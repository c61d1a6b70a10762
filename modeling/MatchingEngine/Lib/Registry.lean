import Mathlib

/-!
# Indices in the order of arrival

A registry hands out indices to keys: a new key gets the next index, a known key the one
it got.  Its state is the list of the keys in the order of their first arrival, and the
index of a key is its place in that list.

## Main definitions

* `enter l x` — the registry after the key `x` arrives.
* `enterAll l xs` — the registry after the keys `xs` arrive.
* `idxOf_enterAll` — the index of a known key never changes.
-/

namespace MatchingEngine.Registry

variable {α : Type*} [DecidableEq α]

/-- The registry after the key `x` arrives. -/
def enter (l : List α) (x : α) : List α := if x ∈ l then l else l ++ [x]

/-- The registry after the keys `xs` arrive, one after the other. -/
def enterAll (l xs : List α) : List α := xs.foldl enter l

theorem enter_of_mem {l : List α} {x : α} (h : x ∈ l) : enter l x = l := if_pos h

theorem enter_of_notMem {l : List α} {x : α} (h : x ∉ l) : enter l x = l ++ [x] := if_neg h

@[simp] theorem enterAll_nil (l : List α) : enterAll l [] = l := rfl

@[simp] theorem enterAll_cons (l : List α) (x : α) (xs : List α) :
    enterAll l (x :: xs) = enterAll (enter l x) xs := rfl

@[simp] theorem mem_enter {l : List α} {x y : α} : y ∈ enter l x ↔ y ∈ l ∨ y = x := by
  unfold enter
  split
  · next h =>
    constructor
    · exact .inl
    · rintro (hy | rfl)
      · exact hy
      · exact h
  · simp

@[simp] theorem mem_enterAll {l xs : List α} {y : α} : y ∈ enterAll l xs ↔ y ∈ l ∨ y ∈ xs := by
  induction xs generalizing l with
  | nil => simp
  | cons x xs ih => rw [enterAll_cons, ih, mem_enter, List.mem_cons, or_assoc]

theorem length_le_length_enter (l : List α) (x : α) : l.length ≤ (enter l x).length := by
  unfold enter
  split <;> simp

theorem length_le_length_enterAll (l xs : List α) : l.length ≤ (enterAll l xs).length := by
  induction xs generalizing l with
  | nil => exact le_rfl
  | cons x xs ih => exact (length_le_length_enter l x).trans (ih _)

theorem nodup_enter {l : List α} (h : l.Nodup) (x : α) : (enter l x).Nodup := by
  unfold enter
  split
  · exact h
  · next hx =>
    rw [← List.concat_eq_append]
    exact h.concat hx

theorem nodup_enterAll {l : List α} (h : l.Nodup) (xs : List α) : (enterAll l xs).Nodup := by
  induction xs generalizing l with
  | nil => exact h
  | cons x xs ih => exact ih (nodup_enter h x)

theorem idxOf_enter {l : List α} {y : α} (hy : y ∈ l) (x : α) :
    (enter l x).idxOf y = l.idxOf y := by
  unfold enter
  split
  · rfl
  · exact List.idxOf_append_of_mem hy

/-- A key that is new gets the next index. -/
theorem idxOf_enter_self {l : List α} {x : α} (h : x ∉ l) : (enter l x).idxOf x = l.length := by
  rw [enter_of_notMem h, List.idxOf_append_of_notMem h]
  simp

/-- **The index of a known key never changes.** -/
theorem idxOf_enterAll {l : List α} {y : α} (hy : y ∈ l) (xs : List α) :
    (enterAll l xs).idxOf y = l.idxOf y := by
  induction xs generalizing l with
  | nil => rfl
  | cons x xs ih => rw [enterAll_cons, ih (mem_enter.mpr (.inl hy)), idxOf_enter hy]

/-- The registry has one entry for every different key. -/
theorem length_enterAll (xs : List α) : (enterAll [] xs).length = xs.toFinset.card := by
  rw [← List.toFinset_card_of_nodup (nodup_enterAll List.nodup_nil xs)]
  congr 1
  ext y
  simp

end MatchingEngine.Registry
