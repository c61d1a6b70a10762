import Mathlib
import MatchingEngine.Lib.Refinement
import MatchingEngine.BinaryHeap

/-!
# Heaps of images

A map of the values that the comparator does not see can be carried through the heap: what is
done to the images is the image of what is done to the values, slot by slot.  The slots beyond
the size hold anything, so a heap has many images.

## Main definitions

* `Image φ h h'` — the heap `h'` has the images of `h` in the slots in use.
* `Image.insert`, `Image.pop`, `Image.modifyTop` — the operations keep it.
-/

namespace MatchingEngine.BinaryHeap
variable {α : Type} [Inhabited α] {cmp : α → α → Bool} {φ : α → α}

/-- The slots in use of `h'` hold the images of what those of `h` hold. -/
structure Image (φ : α → α) (h h' : BinaryHeap cmp) : Prop where
  size : h'.size = h.size
  capacity : h'.capacity = h.capacity
  slot : ∀ i, 1 ≤ i → i ≤ h.size → slots h'.heapArray i = φ (slots h.heapArray i)

theorem image_new (φ : α → α) (capacity : ℕ) (hc : 0 < capacity) :
    Image φ (new cmp capacity hc) (new cmp capacity hc) := by
  refine ⟨rfl, rfl, fun i h1 hi => ?_⟩
  rw [size_new] at hi
  omega

section Image
variable {h h' : BinaryHeap cmp} (hi : Image φ h h')
include hi

theorem Image.isEmpty : h'.isEmpty = h.isEmpty := by
  rw [BinaryHeap.isEmpty, hi.size, BinaryHeap.isEmpty]

theorem Image.top (hpos : 0 < h.size) : h'.top = φ h.top := hi.slot 1 le_rfl hpos

theorem Image.modifyTop {f f' : α → α} (hf : ∀ a, f' (φ a) = φ (f a)) :
    Image φ (h.modifyTop f) (h'.modifyTop f') := by
  refine ⟨hi.size, hi.capacity, fun i h1 hle => ?_⟩
  rw [size_modifyTop] at hle
  rw [slots_modifyTop, slots_modifyTop]
  by_cases hone : i = 1
  · subst hone
    rw [Function.update_self, Function.update_self, hi.top hle, hf]
  · rw [Function.update_of_ne hone, Function.update_of_ne hone]
    exact hi.slot i h1 hle

end Image

/-- Two memories hold a value and its image in every slot up to `n` but the free one. -/
def ImageOff (φ : α → α) (n free : ℕ) (a a' : Array α) : Prop :=
  ∀ i, 1 ≤ i → i ≤ n → i ≠ free → slots a' i = φ (slots a i)

/-- Moving a value to the free slot frees the slot it was in. -/
theorem ImageOff.move {n free from' : ℕ} {a a' : Array α} (h : ImageOff φ n free a a')
    (hfree : free < a.size) (hfree' : free < a'.size) (h1 : 1 ≤ from') (hn : from' ≤ n)
    (hne : from' ≠ free) :
    ImageOff φ n from' (a.set! free a[from']!) (a'.set! free a'[from']!) := by
  intro i hi1 hin hi
  rw [slots_set hfree, slots_set hfree']
  by_cases hif : i = free
  · rw [hif, Function.update_self, Function.update_self]
    exact h from' h1 hn hne
  · rw [Function.update_of_ne hif, Function.update_of_ne hif]
    exact h i hi1 hin hif

/-- Filling the free slot fills the last one. -/
theorem ImageOff.fill {n free : ℕ} {a a' : Array α} (h : ImageOff φ n free a a') (v : α) {i : ℕ}
    (hi1 : 1 ≤ i) (hin : i ≤ n) :
    Function.update (slots a') free (φ v) i = φ (Function.update (slots a) free v i) := by
  by_cases hif : i = free
  · rw [hif, Function.update_self, Function.update_self]
  · rw [Function.update_of_ne hif, Function.update_of_ne hif]
    exact h i hi1 hin hif

section cmp
variable (hcmp : ∀ a b, cmp (φ a) (φ b) = cmp a b)
include hcmp

/-! ### Insertion -/

/-- The states of the two sifts of `insert`. -/
structure ImageInsert (φ : α → α) (n : ℕ) (s s' : Array α × ℕ) : Prop where
  index : s'.2 = s.2
  bounds : 1 ≤ s.2 ∧ s.2 ≤ n
  size : n < s.1.size ∧ n < s'.1.size
  off : ImageOff φ n s.2 s.1 s'.1

/-- The sifts of `insert` make the same moves. -/
theorem ImageInsert.loop {n : ℕ} {s s' : Array α × ℕ} (h : ImageInsert φ n s s') (v : α) :
    ImageInsert φ n (insertLoop cmp v s) (insertLoop cmp (φ v) s') := by
  refine Loop.exec_related ?_ h.index.symm h
  rintro ⟨a, index⟩ ⟨a', index'⟩ ⟨rfl, ⟨h1, hn⟩, ⟨hsize, hsize'⟩, hoff⟩
  simp only at h1 hn hsize hsize' hoff ⊢
  by_cases hlt : 1 < index'
  · have hfather : a'[index' / 2]! = φ a[index' / 2]! :=
      hoff (index' / 2) (by omega) (by omega) (by omega)
    simp only [insertStep, hlt, true_and, hfather, hcmp]
    split
    · refine .some ⟨rfl, ⟨by simp only; omega, by simp only; omega⟩, ?_, ?_⟩
      · simp only [Array.set!_eq_setIfInBounds, Array.size_setIfInBounds]
        exact ⟨hsize, hsize'⟩
      · rw [← hfather]
        exact hoff.move (by omega) (by omega) (by omega) (by omega) (by omega)
    · exact .none
  · simp only [insertStep, hlt, false_and, if_false]
    exact .none

theorem Image.insert {h h' : BinaryHeap cmp} (hi : Image φ h h') (v : α) :
    Image φ (h.insert v) (h'.insert (φ v)) := by
  have hsize : h.size + 1 < h.grow.1.size ∧ h.size + 1 < h'.grow.1.size := by
    have := h.grow_size
    have := h.size_lt_grow
    have := h'.grow_size
    have := h'.size_lt_grow
    have := hi.size
    omega
  have hstart : ImageInsert φ (h.size + 1) (h.grow.1, h.size + 1) (h'.grow.1, h.size + 1) := by
    refine ⟨rfl, ⟨Nat.succ_pos _, le_rfl⟩, hsize, fun i h1 hn hne => ?_⟩
    simp only at hne
    have hle : i ≤ h.size := by omega
    rw [slots_grow h hle, slots_grow h' (hi.size ▸ hle)]
    exact hi.slot i h1 hle
  have hend := hstart.loop hcmp v
  refine ⟨?_, ?_, fun i h1 hn => ?_⟩
  · rw [size_insert, size_insert, hi.size]
  · change h'.grow.2 = h.grow.2
    simp only [grow, hi.size, hi.capacity]
    split <;> rfl
  · rw [size_insert] at hn
    rw [slots_insert, slots_insert, hi.size, hend.index]
    exact hend.off.fill v h1 hn

/-! ### Removal of the top -/

/-- The states of the two sifts of `pop`. -/
structure ImagePop (φ : α → α) (n : ℕ) (s s' : Array α × ℕ × ℕ) : Prop where
  index : s'.2 = s.2
  popState : PopState n s.1.size s
  size : n < s'.1.size
  off : ImageOff φ n s.2.1 s.1 s'.1

theorem ImageOff.betterChild {n i c : ℕ} {a a' : Array α} (h : ImageOff φ n i a a') (h1 : 1 ≤ c)
    (hi : i < c) : BinaryHeap.betterChild cmp a' n c = BinaryHeap.betterChild cmp a n c := by
  by_cases hlt : c < n
  · have hfirst : a'[c]! = φ a[c]! := h c h1 hlt.le hi.ne'
    have hsecond : a'[c + 1]! = φ a[c + 1]! := h (c + 1) (by omega) hlt (by omega)
    simp only [BinaryHeap.betterChild, hfirst, hsecond, hcmp]
  · simp only [BinaryHeap.betterChild, hlt, false_and, if_false]

/-- The sifts of `pop` make the same moves. -/
theorem ImagePop.loop {n : ℕ} {s s' : Array α × ℕ × ℕ} (h : ImagePop φ n s s') (last : α) :
    ImagePop φ n (popLoop cmp last n s) (popLoop cmp (φ last) n s') := by
  refine Loop.exec_related ?_ (by rw [h.index]) h
  rintro ⟨a, i, c⟩ ⟨a', i', c'⟩ ⟨hindex, hstate, hsize', hoff⟩
  obtain ⟨rfl, rfl⟩ := Prod.mk.inj hindex
  have hnext : ∀ t, popStep cmp last n (a, i', c') = some t → PopState n a.size t :=
    fun t hstep => popStep_popState hstate hstep
  obtain ⟨h1, hin, hna, hc, -⟩ := hstate
  simp only at h1 hin hna hc hsize' hoff
  subst hc
  have hbetter := hoff.betterChild hcmp (c := 2 * i') (by omega) (by omega)
  by_cases hle : 2 * i' ≤ n
  · obtain ⟨hge, -, hchild⟩ := betterChild_bounds cmp a hle
    set child := BinaryHeap.betterChild cmp a n (2 * i')
    have himage : a'[child]! = φ a[child]! := hoff _ (by omega) hchild (by omega)
    by_cases hlast : cmp last a[child]! = true
    · have hstop : popStep cmp last n (a, i', 2 * i') = none := by
        simp only [popStep, hle, if_true, child, hlast]
      have hstop' : popStep cmp (φ last) n (a', i', 2 * i') = none := by
        simp only [popStep, hle, if_true, hbetter, himage, hcmp, hlast]
      rw [hstop, hstop']
      exact .none
    · have hstep : popStep cmp last n (a, i', 2 * i') =
          some (a.set! i' a[child]!, child, 2 * child) := popStep_eq_some.mpr ⟨hle, hlast, rfl⟩
      have hstep' : popStep cmp (φ last) n (a', i', 2 * i') =
          some (a'.set! i' a'[child]!, child, 2 * child) := by
        simp only [popStep, hle, if_true, hbetter, himage, hcmp, hlast, if_false, Bool.false_eq_true]
      have hstate := hnext _ hstep
      have hmove : ImageOff φ n child (a.set! i' a[child]!) (a'.set! i' a'[child]!) :=
        hoff.move (by omega) (by omega) (by omega) hchild (by omega)
      rw [hstep, hstep']
      refine .some ⟨rfl, ?_, ?_, hmove⟩
      · simpa using hstate
      · simpa using hsize'
  · simp only [popStep, hle, if_false]
    exact .none

theorem Image.pop {h h' : BinaryHeap cmp} (hi : Image φ h h') : Image φ h.pop.2 h'.pop.2 := by
  refine ⟨?_, hi.capacity, fun i h1 hn => ?_⟩
  · rw [size_pop, size_pop, hi.size]
  · rw [size_pop] at hn
    have hle : 1 ≤ h.size - 1 := h1.trans hn
    have hlast : slots h'.heapArray h'.size = φ (slots h.heapArray h.size) := by
      rw [hi.size]
      exact hi.slot h.size (by omega) le_rfl
    have hstart : ImagePop φ (h.size - 1) (h.heapArray, 1, 2) (h'.heapArray, 1, 2) := by
      have hstate := popState_start hle
      have hle' : 1 ≤ h'.size - 1 := by rwa [hi.size]
      have hstate' := popState_start hle'
      rw [hi.size] at hstate'
      refine ⟨rfl, ?_, hstate'.2.2.1, fun j hj1 hjn _ => hi.slot j hj1 (by omega)⟩
      rwa [h.heapArray_size]
    have hend := hstart.loop hcmp (slots h.heapArray h.size)
    rw [slots_pop hle, slots_pop (h := h') (by rw [hi.size]; exact hle), hlast, hi.size, hend.index]
    exact hend.off.fill _ h1 hn

end cmp

end MatchingEngine.BinaryHeap
