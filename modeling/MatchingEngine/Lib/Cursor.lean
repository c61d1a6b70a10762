import Mathlib

/-!
# A cursor over a list of times

A cursor releases the entries of a list in list order and stops at the first entry that is
not due.  It is on time, that is, it has released the due entries, no other one, and those
in order of time, just if no due entry stands behind a later one.

## Main definitions

* `StopsAt l t h` — the cursor over `l` stands at `h`, stopped at the time `t`.
* `OnTime l t h` — what it has released is what is due, in order.
* `StopsAt.onTime_iff` — when a stopped cursor is on time.
-/

namespace MatchingEngine.Cursor

variable {α : Type*} [LinearOrder α]

/-- The cursor has passed due entries only, and stands at the end or at one that is not. -/
structure StopsAt (l : List α) (t : α) (h : ℕ) : Prop where
  le_length : h ≤ l.length
  passed : ∀ i x, l[i]? = some x → i < h → x < t
  stopped : ∀ x, l[h]? = some x → t ≤ x

/-- The entries released are the due ones, and they are in order. -/
structure OnTime (l : List α) (t : α) (h : ℕ) : Prop where
  released_iff : ∀ i x, l[i]? = some x → (i < h ↔ x < t)
  sorted : (l.take h).Pairwise (· ≤ ·)

/-- No due entry stands behind a later one. -/
def SortedBefore (t : α) (l : List α) : Prop := l.Pairwise fun x y => y < t → x ≤ y

variable {l : List α} {t : α} {h : ℕ}

theorem OnTime.sortedBefore (ht : OnTime l t h) : SortedBefore t l := by
  rw [SortedBefore, List.pairwise_iff_getElem]
  intro i j hi hj hij hdue
  have hjh : j < h := (ht.released_iff j _ (List.getElem?_eq_getElem hj)).mpr hdue
  have hsorted := List.pairwise_iff_getElem.mp ht.sorted i j
    (by rw [List.length_take]; omega) (by rw [List.length_take]; omega) hij
  rwa [List.getElem_take, List.getElem_take] at hsorted

/-- The due entries are released: one behind the cursor would be due no earlier than the
entry at which the cursor stopped. -/
theorem StopsAt.onTime (hs : StopsAt l t h) (hl : SortedBefore t l) : OnTime l t h := by
  rw [SortedBefore, List.pairwise_iff_getElem] at hl
  refine ⟨fun i x hx => ⟨hs.passed i x hx, fun hdue => ?_⟩, ?_⟩
  · obtain ⟨hi, rfl⟩ := List.getElem?_eq_some_iff.mp hx
    by_contra hih
    have hstop := hs.stopped _ (List.getElem?_eq_getElem (show h < l.length by omega))
    rcases Nat.eq_or_lt_of_le (not_lt.mp hih) with rfl | hlt
    · exact absurd hdue hstop.not_gt
    · exact absurd (hstop.trans (hl h i (by omega) hi hlt hdue)) hdue.not_ge
  · rw [List.pairwise_iff_getElem]
    intro i j hi hj hij
    rw [List.length_take] at hi hj
    rw [List.getElem_take, List.getElem_take]
    exact hl i j (by omega) (by omega) hij
      (hs.passed j _ (List.getElem?_eq_getElem (by omega)) (by omega))

/-- **A stopped cursor is on time just if no due entry stands behind a later one.** -/
theorem StopsAt.onTime_iff (hs : StopsAt l t h) : OnTime l t h ↔ SortedBefore t l :=
  ⟨OnTime.sortedBefore, hs.onTime⟩

end MatchingEngine.Cursor
