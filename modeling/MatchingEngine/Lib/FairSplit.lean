import Mathlib

/-!
# Splitting an amount into shares

The share `i` of an amount `d` cut in `n` parts is the difference of two rounded
quotients, `⌊d (i+1) / n⌋ - ⌊d i / n⌋`.  The shares telescope to the amount, they are not
negative when the amount is not, and any two of them differ by at most one.

## Main definitions

* `share d n i` — the share `i`.
* `sum_share`, `share_nonneg`, `share_le_add_one` — the split is complete and fair.
-/

namespace MatchingEngine.FairSplit

/-- The share `i` of the amount `d` cut in `n` parts. -/
def share (d n : ℤ) (i : ℕ) : ℤ := d * (i + 1) / n - d * i / n

/-- **The shares add up to the amount.** -/
theorem sum_share (d : ℤ) {n : ℕ} (hn : 0 < n) :
    ((List.range n).map (share d n)).sum = d := by
  have htele : ∀ m : ℕ, ((List.range m).map (share d n)).sum = d * m / n := by
    intro m
    induction m with
    | zero => simp
    | succ m ih =>
      rw [List.range_succ, List.map_append, List.sum_append, ih]
      simp only [share, List.map_cons, List.map_nil, List.sum_cons, List.sum_nil]
      push_cast
      ring
  rw [htele n, Int.mul_ediv_cancel d (by omega)]

section bounds
variable {d n : ℤ} (hn : 0 < n) (i j : ℕ)
include hn

/-- A share is at least the quotient, rounded down. -/
theorem ediv_le_share : d / n ≤ share d n i := by
  have hsum : d * i / n + d / n ≤ d * (i + 1) / n := by
    rw [Int.le_ediv_iff_mul_le hn]
    linarith [Int.ediv_mul_le (d * i) hn.ne', Int.ediv_mul_le d hn.ne']
  unfold share
  linarith

/-- A share exceeds the quotient by at most one. -/
theorem share_le_ediv : share d n i ≤ d / n + 1 := by
  have hsum : d * (i + 1) / n < d * i / n + d / n + 2 := by
    rw [Int.ediv_lt_iff_lt_mul hn]
    linarith [Int.lt_ediv_add_one_mul_self (d * i) hn, Int.lt_ediv_add_one_mul_self d hn]
  unfold share
  linarith

theorem share_nonneg (hd : 0 ≤ d) : 0 ≤ share d n i :=
  (Int.ediv_nonneg hd hn.le).trans (ediv_le_share hn i)

/-- **Two shares differ by at most one.** -/
theorem share_le_add_one : share d n i ≤ share d n j + 1 :=
  (share_le_ediv hn i).trans (by linarith [ediv_le_share (d := d) hn j])

end bounds

end MatchingEngine.FairSplit
