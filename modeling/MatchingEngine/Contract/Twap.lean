import Mathlib
import MatchingEngine.Lib.FairSplit
import MatchingEngine.Contract.Runs

/-!
# The TWAP plan

`insertAlpha` appends the slices of one alpha to `twapOrders`; the release walks over the
array from `twapHead` on, writes the price of the entry it passes and inserts the entry
into the book.  The slices of one alpha are the fair split of the change of the target.

## Main definitions

* `slices s alpha` — the entries that `insertAlpha` appends.
* `signedVolume`, `pendingVolume` — volume, plus for `Buy` and minus for `Sale`.
* `Planned`, `Plan.Valid` — the entries are own orders of a definite direction.
-/

namespace MatchingEngine

/-- Plus for `Buy` and minus for `Sale`. -/
def Direction.sign : Direction → ℤ
  | .Sale => -1
  | .Buy => 1

/-- The volume of a TWAP entry with the sign of its direction. -/
def signedVolume (o : CompactOrderLog) : ℤ :=
  match o.twapDirection with
  | some d => d.sign * o.volume
  | none => 0

/-- A TWAP entry as `insertAlpha` makes them. -/
structure Planned (o : CompactOrderLog) : Prop where
  isOwn : o.IsOwn
  volume_nonneg : 0 ≤ o.volume
  direction : ∃ d, o.twapDirection = some d

namespace ContractEngine

/-! ## The slices of an alpha -/

section twapSlice
variable (sessionNum sessionLength : ℤ) (alpha : CompactAlpha) (d : Direction) (diff : ℤ) (i : ℕ)

theorem isOwn_twapSlice : (twapSlice sessionNum sessionLength alpha d diff i).IsOwn := by
  have hcode : ((d.code <<< directionOffset ||| UInt8.ofNat ContractType.MyContract.code) &&&
      typeMask).toNat = ContractType.MyContract.code := by cases d <;> decide
  exact hcode

@[simp] theorem twapDirection_twapSlice :
    (twapSlice sessionNum sessionLength alpha d diff i).twapDirection = some d := by
  have hcode : (d.code <<< directionOffset ||| UInt8.ofNat ContractType.MyContract.code) >>>
      directionOffset = d.code := by cases d <;> decide
  simp only [CompactOrderLog.twapDirection, twapSlice, hcode]
  cases d <;> rfl

variable {sessionNum sessionLength alpha d diff}

theorem volume_twapSlice (hdiff : 0 ≤ diff) :
    (twapSlice sessionNum sessionLength alpha d diff i).volume =
      FairSplit.share diff sessionNum i := by
  change (diff * (i + 1)).tdiv sessionNum - (diff * i).tdiv sessionNum = _
  rw [Int.tdiv_eq_ediv_of_nonneg (by positivity), Int.tdiv_eq_ediv_of_nonneg (by positivity)]
  rfl

end twapSlice

variable {Q : Direction → Type}

/-- The direction in which `alpha` moves the target. -/
def alphaDirection (s : ContractEngine Q) (alpha : CompactAlpha) : Direction :=
  if 0 < alpha.targetVolume - s.targetVolume then .Buy else .Sale

/-- The entries that `insertAlpha` appends. -/
def slices (s : ContractEngine Q) (alpha : CompactAlpha) : List CompactOrderLog :=
  if alpha.targetVolume = s.targetVolume then []
  else (List.range s.sessionNum.toNat).map (twapSlice s.sessionNum s.sessionLength alpha
    (s.alphaDirection alpha) |alpha.targetVolume - s.targetVolume|)

theorem insertAlpha_eq (s : ContractEngine Q) (alpha : CompactAlpha) :
    s.insertAlpha alpha = { s with
      targetVolume := alpha.targetVolume
      twapOrders := s.twapOrders ++ s.slices alpha } := by
  simp only [insertAlpha, slices, Arithmetic.int_exact, sub_eq_zero]
  by_cases h : alpha.targetVolume = s.targetVolume
  · rw [if_pos h, if_pos h, h, List.append_nil]
  · rw [if_neg h, if_neg h]
    have habs : (if alpha.targetVolume - s.targetVolume < 0 then
        -(alpha.targetVolume - s.targetVolume) else alpha.targetVolume - s.targetVolume) =
        |alpha.targetVolume - s.targetVolume| := by
      split
      · next hneg => exact (abs_of_neg hneg).symm
      · next hneg => exact (abs_of_nonneg (not_lt.mp hneg)).symm
    rw [habs, alphaDirection]

section slices
variable {s : ContractEngine Q} {alpha : CompactAlpha} {o : CompactOrderLog}

theorem mem_slices (ho : o ∈ s.slices alpha) :
    alpha.targetVolume ≠ s.targetVolume ∧ ∃ i : ℕ, (i : ℤ) < s.sessionNum ∧
      o = twapSlice s.sessionNum s.sessionLength alpha (s.alphaDirection alpha)
        |alpha.targetVolume - s.targetVolume| i := by
  unfold slices at ho
  split at ho
  · cases ho
  · next hne =>
    obtain ⟨i, hi, rfl⟩ := List.mem_map.mp ho
    exact ⟨hne, i, by rw [List.mem_range] at hi; omega, rfl⟩

/-- The volume of a slice is a share of the change of the target. -/
theorem volume_of_mem_slices (ho : o ∈ s.slices alpha) : 0 < s.sessionNum ∧ ∃ i,
    o.volume = FairSplit.share |alpha.targetVolume - s.targetVolume| s.sessionNum i := by
  obtain ⟨-, i, hi, rfl⟩ := mem_slices ho
  exact ⟨by omega, i, volume_twapSlice i (abs_nonneg _)⟩

theorem planned_of_mem_slices (ho : o ∈ s.slices alpha) : Planned o := by
  obtain ⟨hn, i, hi⟩ := volume_of_mem_slices ho
  refine ⟨?_, by rw [hi]; exact FairSplit.share_nonneg hn i (abs_nonneg _), ?_⟩
  all_goals obtain ⟨-, j, -, rfl⟩ := mem_slices ho
  · exact isOwn_twapSlice ..
  · exact ⟨_, twapDirection_twapSlice ..⟩

theorem twapDirection_of_mem_slices (ho : o ∈ s.slices alpha) :
    o.twapDirection = some (s.alphaDirection alpha) := by
  obtain ⟨-, i, -, rfl⟩ := mem_slices ho
  exact twapDirection_twapSlice ..

theorem signedVolume_of_mem_slices (ho : o ∈ s.slices alpha) :
    signedVolume o = (s.alphaDirection alpha).sign * o.volume := by
  rw [signedVolume, twapDirection_of_mem_slices ho]

theorem sign_alphaDirection_mul_abs (s : ContractEngine Q) (alpha : CompactAlpha) :
    (s.alphaDirection alpha).sign * |alpha.targetVolume - s.targetVolume| =
      alpha.targetVolume - s.targetVolume := by
  unfold alphaDirection
  split
  · next h => rw [abs_of_pos h, Direction.sign, one_mul]
  · next h => rw [abs_of_nonpos (not_lt.mp h), Direction.sign, neg_mul_neg, one_mul]

/-- **The slices of an alpha add up to the change of the target.** -/
theorem sum_slices (hn : 0 < s.sessionNum) (alpha : CompactAlpha) :
    ((s.slices alpha).map signedVolume).sum = alpha.targetVolume - s.targetVolume := by
  by_cases h : alpha.targetVolume = s.targetVolume
  · rw [slices, if_pos h, h, sub_self]
    rfl
  obtain ⟨n, hcast, hpos⟩ : ∃ n : ℕ, s.sessionNum = n ∧ 0 < n :=
    ⟨s.sessionNum.toNat, by omega, by omega⟩
  have hshare : (s.slices alpha).map CompactOrderLog.volume =
      (List.range n).map (FairSplit.share |alpha.targetVolume - s.targetVolume| n) := by
    rw [slices, if_neg h, List.map_map, hcast, Int.toNat_natCast]
    exact List.map_congr_left fun i _ => volume_twapSlice i (abs_nonneg _)
  calc ((s.slices alpha).map signedVolume).sum
      = ((s.slices alpha).map fun o => (s.alphaDirection alpha).sign * o.volume).sum := by
        rw [List.map_congr_left fun o ho => signedVolume_of_mem_slices ho]
    _ = (s.alphaDirection alpha).sign * ((s.slices alpha).map CompactOrderLog.volume).sum :=
        List.sum_map_mul_left ..
    _ = (s.alphaDirection alpha).sign * |alpha.targetVolume - s.targetVolume| := by
        rw [hshare, FairSplit.sum_share _ hpos]
    _ = alpha.targetVolume - s.targetVolume := sign_alphaDirection_mul_abs s alpha

end slices

/-! ## Invariants of the plan -/

variable [OrderQueue Q]

/-- The entries are as `insertAlpha` makes them, and the head is in or at the end of them. -/
structure Plan.Valid (p : Plan) : Prop where
  planned : ∀ o ∈ p.twapOrders, Planned o
  head_le : p.twapHead ≤ p.twapOrders.length

section Valid
variable {s : ContractEngine Q} (h : s.plan.Valid)
include h

omit [OrderQueue Q] in
theorem Plan.Valid.insertAlpha (alpha : CompactAlpha) : (s.insertAlpha alpha).plan.Valid := by
  rw [insertAlpha_eq]
  refine ⟨fun o ho => ?_, ?_⟩
  · rcases List.mem_append.mp ho with ho | ho
    · exact h.planned o ho
    · exact planned_of_mem_slices ho
  · have := h.head_le
    simp only [plan, List.length_append] at this ⊢
    omega

omit [OrderQueue Q] in
theorem Plan.Valid.planned_head {o : CompactOrderLog} (ho : s.twapOrders[s.twapHead]? = some o) :
    Planned o := h.planned o (List.mem_of_getElem? ho)

theorem Plan.Valid.enterTwap {o : CompactOrderLog} (ho : s.twapOrders[s.twapHead]? = some o) :
    (s.enterTwap o).plan.Valid := by
  obtain ⟨isOwn, hvol, hdir⟩ := h.planned_head ho
  have hlt := (List.getElem?_eq_some_iff.mp ho).1
  rw [plan_enterTwap]
  refine ⟨fun o' ho' => ?_, by simpa [plan] using hlt⟩
  rcases List.mem_or_eq_of_mem_set ho' with ho' | rfl
  · exact h.planned o' ho'
  · exact ⟨isOwn, hvol, hdir⟩

end Valid

theorem valid_plan_new (sessionNum sessionLength : ℤ) (info : CompactPrevTradeInfo)
    (instrument : UInt64) :
    (new sessionNum sessionLength info instrument : ContractEngine Q).plan.Valid :=
  ⟨fun _ ho => absurd ho List.not_mem_nil, le_rfl⟩

section passTwap
variable {A : Arithmetic}

/-- The state with the TWAP order `o` at the head priced and passed, but not inserted. -/
def passTwap (s : ContractEngine Q A) (o : CompactOrderLog) : ContractEngine Q A :=
  { s with twapHead := s.twapHead + 1, twapOrders := s.twapOrders.set s.twapHead (s.priced o) }

theorem enterTwap_of_some (s : ContractEngine Q A) {o : CompactOrderLog} {d : Direction}
    (hd : o.twapDirection = some d) : s.enterTwap o =
      if o.volume ≠ 0 then (s.passTwap o).insertOrder d (s.priced o) else s.passTwap o := by
  simp only [enterTwap, passTwap, priced, hd]

theorem enterTwap_of_none (s : ContractEngine Q A) {o : CompactOrderLog}
    (hd : o.twapDirection = none) : s.enterTwap o = s.passTwap o := by
  simp only [enterTwap, passTwap, priced, hd, ite_self]

end passTwap

/-- A TWAP order enters the heap of its direction, unless it is empty. -/
theorem enterTwap_eq {s : ContractEngine Q} (h : s.plan.Valid) {o : CompactOrderLog}
    (ho : s.twapOrders[s.twapHead]? = some o) : ∃ d, o.twapDirection = some d ∧
      s.enterTwap o =
        if o.volume ≠ 0 then (s.passTwap o).insertOrder d (s.priced o) else s.passTwap o := by
  obtain ⟨d, hd⟩ := (h.planned_head ho).direction
  exact ⟨d, hd, enterTwap_of_some s hd⟩

/-! ## The entries released and the entries not yet released -/

/-- The entries that the release has passed. -/
def passedEntries (s : ContractEngine Q) : List CompactOrderLog := s.twapOrders.take s.twapHead

theorem passedEntries_passTwap {s : ContractEngine Q} {o : CompactOrderLog}
    (ho : s.twapOrders[s.twapHead]? = some o) :
    (s.passTwap o).passedEntries = s.passedEntries ++ [s.priced o] := by
  obtain ⟨hlt, -⟩ := List.getElem?_eq_some_iff.mp ho
  simp only [passedEntries, passTwap]
  rw [List.take_add_one, List.take_set_of_le le_rfl, List.getElem?_set_self hlt]
  rfl

omit [OrderQueue Q] in
theorem passedEntries_insertAlpha {s : ContractEngine Q} (h : s.plan.Valid)
    (alpha : CompactAlpha) : (s.insertAlpha alpha).passedEntries = s.passedEntries := by
  rw [insertAlpha_eq]
  exact List.take_append_of_le_length h.head_le

/-- The signed volume of the entries not yet released. -/
def pendingVolume (s : ContractEngine Q) : ℤ :=
  ((s.twapOrders.drop s.twapHead).map signedVolume).sum

omit [OrderQueue Q] in
theorem pendingVolume_insertAlpha {s : ContractEngine Q} (h : s.plan.Valid)
    (hn : 0 < s.sessionNum) (alpha : CompactAlpha) :
    (s.insertAlpha alpha).pendingVolume =
      s.pendingVolume + (alpha.targetVolume - s.targetVolume) := by
  have hdrop : (s.twapOrders ++ s.slices alpha).drop s.twapHead =
      s.twapOrders.drop s.twapHead ++ s.slices alpha := List.drop_append_of_le_length h.head_le
  rw [insertAlpha_eq, ← sum_slices hn, pendingVolume, pendingVolume]
  simp only [hdrop, List.map_append, List.sum_append]

theorem pendingVolume_passTwap {s : ContractEngine Q} {o : CompactOrderLog}
    (ho : s.twapOrders[s.twapHead]? = some o) :
    (s.passTwap o).pendingVolume = s.pendingVolume - signedVolume o := by
  obtain ⟨hlt, rfl⟩ := List.getElem?_eq_some_iff.mp ho
  simp only [pendingVolume, passTwap]
  rw [List.drop_set_of_lt (Nat.lt_succ_self _), List.drop_eq_getElem_cons hlt, List.map_cons,
    List.sum_cons]
  ring

end ContractEngine
end MatchingEngine
