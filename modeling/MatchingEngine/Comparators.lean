import Mathlib
import MatchingEngine.Lib.TolerantLex
import MatchingEngine.Common

/-!
# The comparators as strict weak orders

The comparators of the two heaps take prices within `eps` of each other for equal and go on to
the timestamps and the types.  They are irreflexive and asymmetric on all orders.  They are
strict weak orders on the orders of given prices just if being within `eps` is transitive on
these prices, as it is on the grid.

## Main definitions

* `tieBreak` — what the comparators compare orders of equal prices by.
* `cmp_iff_before` — the comparators as lexicographic orders with a tolerance.
* `cmp_isStrictWeakOrder_iff` — when they are strict weak orders.
-/

namespace MatchingEngine

open TolerantLex

/-! ## The tolerance as a closeness -/

theorem priceEq_iff_abs_sub_le (x y : ℚ) : priceEq x y ↔ |x - y| ≤ eps := by
  simp only [priceEq, Arithmetic.double_exact]
  split
  · next h => rw [abs_of_neg h]
  · next h => rw [abs_of_nonneg (not_lt.mp h)]

theorem closeness_priceEq : Closeness priceEq where
  refl x := by
    rw [priceEq_iff_abs_sub_le, sub_self, abs_zero]
    norm_num [eps]
  symm x y h := by
    rw [priceEq_iff_abs_sub_le] at h ⊢
    rwa [abs_sub_comm]
  between x y z hxy hyz h := by
    rw [priceEq_iff_abs_sub_le, abs_le] at h
    rw [priceEq_iff_abs_sub_le, priceEq_iff_abs_sub_le, abs_le, abs_le]
    constructor <;> constructor <;> linarith

/-- The first key of the comparator of side `d`. -/
def priceKey (d : Direction) (o : CompactOrderLog) : ℚ := d.signedPrice o.price

/-- The tolerance does not see which side ranks the prices. -/
theorem priceEq_priceKey (d : Direction) (a b : CompactOrderLog) :
    priceEq (priceKey d a) (priceKey d b) ↔ priceEq a.price b.price := by
  cases d with
  | Sale => rfl
  | Buy =>
    have hneg : -a.price - -b.price = -(a.price - b.price) := by ring
    rw [priceEq_iff_abs_sub_le, priceEq_iff_abs_sub_le, priceKey, priceKey, Direction.signedPrice,
      Direction.signedPrice, hneg, abs_neg]

/-! ## The comparators -/

/-- The keys after the price: the timestamp, then the type. -/
def tieKey (o : CompactOrderLog) : ℤ ×ₗ ℕ := toLex (o.timestamp, o.type)

/-- Orders of equal prices: the earlier one, then the one of the smaller type. -/
def tieBreak (a b : CompactOrderLog) : Prop := tieKey a < tieKey b

theorem isStrictWeakOrder_tieBreak {α : Type*} (f : α → CompactOrderLog) :
    IsStrictWeakOrder α fun a b => tieBreak (f a) (f b) :=
  have : IsStrictWeakOrder (ℤ ×ₗ ℕ) (· < ·) := isStrictWeakOrder_of_isOrderConnected
  inferInstanceAs (IsStrictWeakOrder α (Order.Preimage (tieKey ∘ f) (· < ·)))

/-- **The comparators are lexicographic orders with a tolerance.** -/
theorem cmp_iff_before (d : Direction) (a b : CompactOrderLog) : d.cmp a b = true ↔
    Before priceEq (priceKey d) tieBreak a b := by
  have htie : (if a.timestamp ≠ b.timestamp then decide (a.timestamp < b.timestamp)
      else decide (a.type < b.type)) = true ↔ tieBreak a b := by
    rw [tieBreak, tieKey, tieKey, Prod.Lex.toLex_lt_toLex]
    by_cases ht : a.timestamp = b.timestamp <;> simp [ht]
  by_cases h : priceEq a.price b.price
  · have hneq : ¬ priceNeq a.price b.price := by simpa [priceNeq_iff_not] using h
    rw [before_of_close ((priceEq_priceKey d _ _).mpr h), ← htie]
    cases d <;> simp only [Direction.cmp, minBinaryHeapCmp, maxBinaryHeapCmp, if_neg hneq]
  · have hneq : priceNeq a.price b.price := (priceNeq_iff_not _ _).mpr h
    rw [before_of_not_close (mt (priceEq_priceKey d _ _).mp h)]
    cases d <;> simp [Direction.cmp, minBinaryHeapCmp, maxBinaryHeapCmp, hneq,
      priceKey, Direction.signedPrice]

/-- Being within `eps` is transitive on the grid, where it is equality. -/
theorem priceEq_trans_of_onGrid {x y z : ℚ} (hx : OnGrid x) (hy : OnGrid y) (hz : OnGrid z)
    (hxy : priceEq x y) (hyz : priceEq y z) : priceEq x z := by
  rw [priceEq_iff hx hy] at hxy
  rw [priceEq_iff hy hz] at hyz
  rw [priceEq_iff hx hz, hxy, hyz]

/-- Orders of any three prices, whose timestamps come in any order. -/
def timed (price : ℚ) (timestamp : ℤ) : CompactOrderLog where
  timestamp := timestamp
  volume := 1
  price := price
  directionAndType := 0

theorem tieBreak_timed {x y : ℚ} {s t : ℤ} (h : s < t) : tieBreak (timed x s) (timed y t) :=
  Prod.Lex.toLex_lt_toLex.mpr (.inl h)

section prices
variable (d : Direction) (P : ℚ → Prop)

/-- On the orders of given prices. -/
theorem isStrictWeakOrder_iff_priceEq_trans :
    IsStrictWeakOrder {o : CompactOrderLog // P o.price} (fun a b => d.cmp a.1 b.1 = true) ↔
      ∀ x y z, P x → P y → P z → priceEq x y → priceEq y z → priceEq x z := by
  have hcmp : (fun a b : {o : CompactOrderLog // P o.price} => d.cmp a.1 b.1 = true) =
      Before priceEq (fun o => priceKey d o.1) fun a b => tieBreak a.1 b.1 := by
    funext a b
    exact propext (cmp_iff_before d a.1 b.1)
  have htie := isStrictWeakOrder_tieBreak (Subtype.val (p := fun o : CompactOrderLog => P o.price))
  rw [hcmp, isStrictWeakOrder_iff closeness_priceEq]
  · simp only [priceEq_priceKey]
    constructor
    · intro h x y z hx hy hz
      exact h ⟨timed x 0, hx⟩ ⟨timed y 0, hy⟩ ⟨timed z 0, hz⟩
    · intro h a b c
      exact h _ _ _ a.2 b.2 c.2
  · intro a b c
    exact ⟨⟨timed a.1.price 0, a.2⟩, ⟨timed b.1.price 1, b.2⟩, ⟨timed c.1.price 2, c.2⟩, rfl, rfl,
      rfl, tieBreak_timed (by norm_num), tieBreak_timed (by norm_num)⟩

/-- **When the comparators are strict weak orders.**  On all orders they are irreflexive and
asymmetric; on the orders whose prices satisfy `P` they are strict weak orders just if being
within the tolerance is transitive on these prices, and so they are on the grid. -/
theorem cmp_isStrictWeakOrder_iff :
    (Std.Irrefl (fun a b : CompactOrderLog => d.cmp a b = true) ∧
      Std.Asymm (fun a b : CompactOrderLog => d.cmp a b = true)) ∧
    (IsStrictWeakOrder {o : CompactOrderLog // P o.price} (fun a b => d.cmp a.1 b.1 = true) ↔
      ∀ x y z, P x → P y → P z → priceEq x y → priceEq y z → priceEq x z) ∧
    IsStrictWeakOrder {o : CompactOrderLog // OnGrid o.price}
      (fun a b => d.cmp a.1 b.1 = true) := by
  have hcmp : (fun a b : CompactOrderLog => d.cmp a b = true) =
      Before priceEq (priceKey d) tieBreak := by
    funext a b
    exact propext (cmp_iff_before d a b)
  have htie : IsStrictWeakOrder CompactOrderLog tieBreak := isStrictWeakOrder_tieBreak id
  have hasymm : Std.Asymm tieBreak := inferInstance
  refine ⟨?_, isStrictWeakOrder_iff_priceEq_trans d P,
    (isStrictWeakOrder_iff_priceEq_trans d OnGrid).mpr fun _ _ _ => priceEq_trans_of_onGrid⟩
  rw [hcmp]
  exact ⟨irrefl closeness_priceEq, asymm closeness_priceEq⟩

end prices

/-- Three orders, each within the tolerance of the next and later than it: the comparators go
round in a circle. -/
theorem not_cmp_isStrictWeakOrder :
    ¬ IsStrictWeakOrder CompactOrderLog (fun a b => minBinaryHeapCmp a b = true) ∧
      ¬ IsStrictWeakOrder CompactOrderLog (fun a b => maxBinaryHeapCmp a b = true) := by
  constructor
  · intro h
    have hround : minBinaryHeapCmp (timed (16 / 10000000) 0) (timed 0 2) = true :=
      h.trans _ (timed (8 / 10000000) 1) _ (by decide +kernel) (by decide +kernel)
    exact absurd hround (by decide +kernel)
  · intro h
    have hround : maxBinaryHeapCmp (timed 0 0) (timed (16 / 10000000) 2) = true :=
      h.trans _ (timed (8 / 10000000) 1) _ (by decide +kernel) (by decide +kernel)
    exact absurd hround (by decide +kernel)

end MatchingEngine
