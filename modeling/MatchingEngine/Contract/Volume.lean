import Mathlib
import MatchingEngine.Contract.Sound

/-!
# Volume of a class of orders

A class of orders is a predicate that a partial fill does not change: the own orders, or
the order of one name.  `volumeOf P` adds up the volume that the class has in a book, and
says how an insertion and the two kinds of trade move it.

## Main definitions

* `portion P o v` — the volume `v`, if `o` is in the class.
* `volumeOf P m` — the volume of the class among the orders `m`.
-/

namespace MatchingEngine

section
variable (P : CompactOrderLog → Prop) [DecidablePred P]

/-- The volume `v`, counted if it is of an order of the class `P`. -/
def portion (o : CompactOrderLog) (v : ℤ) : ℤ := if P o then v else 0

/-- The volume of the orders of the class `P` among `m`. -/
def volumeOf (m : Multiset CompactOrderLog) : ℤ := (m.map fun o => portion P o o.volume).sum

theorem portion_nonneg {o : CompactOrderLog} {v : ℤ} (hv : 0 ≤ v) : 0 ≤ portion P o v := by
  unfold portion
  split <;> simp [hv]

theorem portion_sub (o : CompactOrderLog) (v w : ℤ) :
    portion P o (v - w) = portion P o v - portion P o w := by
  unfold portion
  split <;> simp

@[simp] theorem volumeOf_zero : volumeOf P 0 = 0 := rfl

@[simp] theorem volumeOf_cons (o : CompactOrderLog) (m : Multiset CompactOrderLog) :
    volumeOf P (o ::ₘ m) = portion P o o.volume + volumeOf P m := by
  simp [volumeOf]

@[simp] theorem volumeOf_add (m m' : Multiset CompactOrderLog) :
    volumeOf P (m + m') = volumeOf P m + volumeOf P m' := by
  simp [volumeOf]

theorem volumeOf_nonneg {m : Multiset CompactOrderLog} (hm : ∀ o ∈ m, 0 ≤ o.volume) :
    0 ≤ volumeOf P m := by
  refine Multiset.sum_nonneg fun v hv => ?_
  obtain ⟨o, ho, rfl⟩ := Multiset.mem_map.mp hv
  exact portion_nonneg P (hm o ho)

/-- A book without an order of the class has none of its volume. -/
theorem volumeOf_eq_zero {m : Multiset CompactOrderLog} (hm : ∀ o ∈ m, ¬ P o) :
    volumeOf P m = 0 := by
  refine Multiset.sum_eq_zero fun v hv => ?_
  obtain ⟨o, ho, rfl⟩ := Multiset.mem_map.mp hv
  rw [portion, if_neg (hm o ho)]

end

namespace ContractEngine
variable {Q : Direction → Type} [OrderQueue Q] [LawfulOrderQueue Q]
variable {P : CompactOrderLog → Prop} [DecidablePred P]

theorem volumeOf_book_insertOrder_self (s : ContractEngine Q) (d : Direction)
    (o : CompactOrderLog) : volumeOf P ((s.insertOrder d o).book d) =
      portion P (s.named o) o.volume + volumeOf P (s.book d) := by
  rw [book_insertOrder_self, volumeOf_cons]
  rfl

section class_
variable (hP : ∀ o v, P (o.reduce v) ↔ P o)
include hP

theorem portion_reduce (o : CompactOrderLog) (v w : ℤ) :
    portion P (o.reduce v) w = portion P o w := by
  unfold portion
  rw [if_congr (hP o v) rfl rfl]

/-- What is left of an order is its volume less what it traded. -/
theorem volumeOf_residue (o : CompactOrderLog) (v : ℤ) :
    volumeOf P (residue o v) = portion P o o.volume - portion P o v := by
  rw [← portion_sub]
  unfold residue
  split
  · next h => rw [h, sub_self, volumeOf_zero, portion, ite_self]
  · rw [← Multiset.cons_zero, volumeOf_cons, volumeOf_zero, add_zero, portion_reduce hP,
      CompactOrderLog.volume_reduce]

/-- Taking `v` off a top takes its portion off the volume of the side. -/
theorem volumeOf_residue_add {s : ContractEngine Q} {d : Direction}
    (he : OrderQueue.isEmpty (s.heap d) = false) (v : ℤ) :
    volumeOf P (residue (OrderQueue.top (s.heap d)) v + s.rest d) =
      volumeOf P (s.book d) - portion P (OrderQueue.top (s.heap d)) v := by
  rw [book_eq_top_cons he, volumeOf_add, volumeOf_cons, volumeOf_residue hP]
  ring

section Cross
variable {s t : ContractEngine Q} {a b : CompactOrderLog} (h : Cross s t a b)
include h

theorem Cross.volumeOf_sale :
    volumeOf P (t.book .Sale) = volumeOf P (s.book .Sale) - portion P a (tradeVolume a b) := by
  rw [h.book_sale, ← h.top_sale, volumeOf_residue_add hP h.isEmpty_sale]

theorem Cross.volumeOf_buy :
    volumeOf P (t.book .Buy) = volumeOf P (s.book .Buy) - portion P b (tradeVolume a b) := by
  rw [h.book_buy, ← h.top_buy, volumeOf_residue_add hP h.isEmpty_buy]

end Cross

theorem Fill.volumeOf_opposite {s t : ContractEngine Q} {o a : CompactOrderLog}
    (h : Fill s o t a) : volumeOf P (t.book o.direction.opposite) =
      volumeOf P (s.book o.direction.opposite) - portion P a (tradeVolumeWith o a) := by
  rw [h.book_opposite, ← h.top_opposite, volumeOf_residue_add hP h.isEmpty_opposite]

end class_

end ContractEngine
end MatchingEngine
