import Mathlib
import MatchingEngine.Lib.Refinement
import MatchingEngine.BinaryHeap

/-!
# Related heaps

Two heaps of different values with different comparators pass in step if their values are
related slot by slot and the comparators answer the same on related values.

## Main definitions

* `Related R h h'` — the slots in use of `h'` are related to those of `h`.
* `Related.insert`, `Related.pop`, `Related.modifyTop` — the operations keep it.
-/

namespace MatchingEngine.BinaryHeap
variable {α β : Type} [Inhabited α] [Inhabited β] {cmp : α → α → Bool} {cmp' : β → β → Bool}
  {R : α → β → Prop}

/-- What the slots in use of `h'` hold is related to what those of `h` hold. -/
structure Related (R : α → β → Prop) (h : BinaryHeap cmp) (h' : BinaryHeap cmp') : Prop where
  size : h'.size = h.size
  capacity : h'.capacity = h.capacity
  slot : ∀ i, 1 ≤ i → i ≤ h.size → R (slots h.heapArray i) (slots h'.heapArray i)

theorem related_new (R : α → β → Prop) (capacity : ℕ) (hc : 0 < capacity) :
    Related R (new cmp capacity hc) (new cmp' capacity hc) := by
  refine ⟨rfl, rfl, fun i h1 hi => ?_⟩
  rw [size_new] at hi
  omega

section Related
variable {h : BinaryHeap cmp} {h' : BinaryHeap cmp'} (hr : Related R h h')
include hr

theorem Related.isEmpty : h'.isEmpty = h.isEmpty := by
  rw [BinaryHeap.isEmpty, hr.size, BinaryHeap.isEmpty]

theorem Related.top (hpos : 0 < h.size) : R h.top h'.top := hr.slot 1 le_rfl hpos

theorem Related.mono {S : α → β → Prop} (hRS : ∀ a b, R a b → S a b) : Related S h h' :=
  ⟨hr.size, hr.capacity, fun i h1 hi => hRS _ _ (hr.slot i h1 hi)⟩

theorem Related.modifyTop {f : α → α} {f' : β → β} (hf : R h.top h'.top → R (f h.top) (f' h'.top)) :
    Related R (h.modifyTop f) (h'.modifyTop f') := by
  refine ⟨hr.size, hr.capacity, fun i h1 hle => ?_⟩
  rw [size_modifyTop] at hle
  rw [slots_modifyTop, slots_modifyTop]
  by_cases hone : i = 1
  · subst hone
    rw [Function.update_self, Function.update_self]
    exact hf (hr.top hle)
  · rw [Function.update_of_ne hone, Function.update_of_ne hone]
    exact hr.slot i h1 hle

end Related

/-- Two memories are related in every slot up to `n` but the free one. -/
def RelatedOff (R : α → β → Prop) (n free : ℕ) (a : Array α) (a' : Array β) : Prop :=
  ∀ i, 1 ≤ i → i ≤ n → i ≠ free → R (slots a i) (slots a' i)

/-- Moving a value to the free slot frees the slot it was in. -/
theorem RelatedOff.move {n free from' : ℕ} {a : Array α} {a' : Array β}
    (h : RelatedOff R n free a a') (hfree : free < a.size) (hfree' : free < a'.size)
    (h1 : 1 ≤ from') (hn : from' ≤ n) (hne : from' ≠ free) :
    RelatedOff R n from' (a.set! free a[from']!) (a'.set! free a'[from']!) := by
  intro i hi1 hin hi
  rw [slots_set hfree, slots_set hfree']
  by_cases hif : i = free
  · rw [hif, Function.update_self, Function.update_self]
    exact h from' h1 hn hne
  · rw [Function.update_of_ne hif, Function.update_of_ne hif]
    exact h i hi1 hin hif

/-- Filling the free slot fills the last one. -/
theorem RelatedOff.fill {n free : ℕ} {a : Array α} {a' : Array β} (h : RelatedOff R n free a a')
    {v : α} {v' : β} (hv : R v v') {i : ℕ} (hi1 : 1 ≤ i) (hin : i ≤ n) :
    R (Function.update (slots a) free v i) (Function.update (slots a') free v' i) := by
  by_cases hif : i = free
  · rw [hif, Function.update_self, Function.update_self]
    exact hv
  · rw [Function.update_of_ne hif, Function.update_of_ne hif]
    exact h i hi1 hin hif

section cmp
variable (hcmp : ∀ a a' b b', R a a' → R b b' → cmp' a' b' = cmp a b)
include hcmp

/-! ### Insertion -/

/-- The states of the two sifts of `insert`. -/
structure RelatedInsert (R : α → β → Prop) (n : ℕ) (s : Array α × ℕ) (s' : Array β × ℕ) :
    Prop where
  index : s'.2 = s.2
  bounds : 1 ≤ s.2 ∧ s.2 ≤ n
  size : n < s.1.size ∧ n < s'.1.size
  off : RelatedOff R n s.2 s.1 s'.1

/-- The sifts of `insert` make the same moves. -/
theorem RelatedInsert.loop {n : ℕ} {s : Array α × ℕ} {s' : Array β × ℕ}
    (h : RelatedInsert R n s s') {v : α} {v' : β} (hv : R v v') :
    RelatedInsert R n (insertLoop cmp v s) (insertLoop cmp' v' s') := by
  refine Loop.exec_related ?_ h.index.symm h
  rintro ⟨a, index⟩ ⟨a', index'⟩ ⟨rfl, ⟨h1, hn⟩, ⟨hsize, hsize'⟩, hoff⟩
  simp only at h1 hn hsize hsize' hoff ⊢
  by_cases hlt : 1 < index'
  · have hfather : R a[index' / 2]! a'[index' / 2]! :=
      hoff (index' / 2) (by omega) (by omega) (by omega)
    simp only [insertStep, hlt, true_and, hcmp _ _ _ _ hv hfather]
    split
    · refine .some ⟨rfl, ⟨by simp only; omega, by simp only; omega⟩, ?_, ?_⟩
      · simp only [Array.set!_eq_setIfInBounds, Array.size_setIfInBounds]
        exact ⟨hsize, hsize'⟩
      · exact hoff.move (by omega) (by omega) (by omega) (by omega) (by omega)
    · exact .none
  · simp only [insertStep, hlt, false_and, if_false]
    exact .none

theorem Related.insert {h : BinaryHeap cmp} {h' : BinaryHeap cmp'} (hr : Related R h h') {v : α}
    {v' : β} (hv : R v v') : Related R (h.insert v) (h'.insert v') := by
  have hsize : h.size + 1 < h.grow.1.size ∧ h.size + 1 < h'.grow.1.size := by
    have := h.grow_size
    have := h.size_lt_grow
    have := h'.grow_size
    have := h'.size_lt_grow
    have := hr.size
    omega
  have hstart : RelatedInsert R (h.size + 1) (h.grow.1, h.size + 1) (h'.grow.1, h.size + 1) := by
    refine ⟨rfl, ⟨Nat.succ_pos _, le_rfl⟩, hsize, fun i h1 hn hne => ?_⟩
    simp only at hne
    have hle : i ≤ h.size := by omega
    rw [slots_grow h hle, slots_grow h' (hr.size ▸ hle)]
    exact hr.slot i h1 hle
  have hend := hstart.loop hcmp hv
  refine ⟨?_, ?_, fun i h1 hn => ?_⟩
  · rw [size_insert, size_insert, hr.size]
  · change h'.grow.2 = h.grow.2
    simp only [grow, hr.size, hr.capacity]
    split <;> rfl
  · rw [size_insert] at hn
    rw [slots_insert, slots_insert, hr.size, hend.index]
    exact hend.off.fill hv h1 hn

/-! ### Removal of the top -/

/-- The states of the two sifts of `pop`. -/
structure RelatedPop (R : α → β → Prop) (n : ℕ) (s : Array α × ℕ × ℕ) (s' : Array β × ℕ × ℕ) :
    Prop where
  index : s'.2 = s.2
  popState : PopState n s.1.size s
  size : n < s'.1.size
  off : RelatedOff R n s.2.1 s.1 s'.1

theorem RelatedOff.betterChild {n i c : ℕ} {a : Array α} {a' : Array β}
    (h : RelatedOff R n i a a') (h1 : 1 ≤ c) (hi : i < c) :
    BinaryHeap.betterChild cmp' a' n c = BinaryHeap.betterChild cmp a n c := by
  by_cases hlt : c < n
  · have hfirst : R a[c]! a'[c]! := h c h1 hlt.le hi.ne'
    have hsecond : R a[c + 1]! a'[c + 1]! := h (c + 1) (by omega) hlt (by omega)
    simp only [BinaryHeap.betterChild, hcmp _ _ _ _ hsecond hfirst]
  · simp only [BinaryHeap.betterChild, hlt, false_and, if_false]

/-- The sifts of `pop` make the same moves. -/
theorem RelatedPop.loop {n : ℕ} {s : Array α × ℕ × ℕ} {s' : Array β × ℕ × ℕ}
    (h : RelatedPop R n s s') {last : α} {last' : β} (hlast : R last last') :
    RelatedPop R n (popLoop cmp last n s) (popLoop cmp' last' n s') := by
  refine Loop.exec_related ?_ (by rw [h.index]) h
  rintro ⟨a, i, c⟩ ⟨a', i', c'⟩ ⟨hindex, hstate, hsize', hoff⟩
  obtain ⟨rfl, rfl⟩ := Prod.mk.inj hindex
  have hnext : ∀ t, popStep cmp last n (a, i', c') = some t → PopState n a.size t :=
    fun t hstep => popStep_popState hstate hstep
  obtain ⟨h1, hin, hna, hc, -⟩ := hstate
  simp only at h1 hin hna hc hsize' hoff
  subst hc
  have hbetter := hoff.betterChild hcmp (c := 2 * i') (by omega) (by omega)
  by_cases hle : 2 * i' ≤ n
  · obtain ⟨hge, -, hchild⟩ := betterChild_bounds cmp a hle
    set child := BinaryHeap.betterChild cmp a n (2 * i')
    have hrelated : R a[child]! a'[child]! := hoff _ (by omega) hchild (by omega)
    have hanswer := hcmp _ _ _ _ hlast hrelated
    by_cases hstop : cmp last a[child]! = true
    · have hstep : popStep cmp last n (a, i', 2 * i') = none := by
        simp only [popStep, hle, if_true, child, hstop]
      have hstep' : popStep cmp' last' n (a', i', 2 * i') = none := by
        simp only [popStep, hle, if_true, hbetter, hanswer, hstop]
      rw [hstep, hstep']
      exact .none
    · have hstep : popStep cmp last n (a, i', 2 * i') =
          some (a.set! i' a[child]!, child, 2 * child) := popStep_eq_some.mpr ⟨hle, hstop, rfl⟩
      have hstep' : popStep cmp' last' n (a', i', 2 * i') =
          some (a'.set! i' a'[child]!, child, 2 * child) := by
        simp only [popStep, hle, if_true, hbetter, hanswer, hstop, if_false, Bool.false_eq_true]
      have hstate := hnext _ hstep
      have hmove : RelatedOff R n child (a.set! i' a[child]!) (a'.set! i' a'[child]!) :=
        hoff.move (by omega) (by omega) (by omega) hchild (by omega)
      rw [hstep, hstep']
      refine .some ⟨rfl, ?_, ?_, hmove⟩
      · simpa using hstate
      · simpa using hsize'
  · simp only [popStep, hle, if_false]
    exact .none

theorem Related.pop {h : BinaryHeap cmp} {h' : BinaryHeap cmp'} (hr : Related R h h') :
    Related R h.pop.2 h'.pop.2 := by
  refine ⟨?_, hr.capacity, fun i h1 hn => ?_⟩
  · rw [size_pop, size_pop, hr.size]
  · rw [size_pop] at hn
    have hle : 1 ≤ h.size - 1 := h1.trans hn
    have hlast : R (slots h.heapArray h.size) (slots h'.heapArray h.size) :=
      hr.slot h.size (by omega) le_rfl
    have hstart : RelatedPop R (h.size - 1) (h.heapArray, 1, 2) (h'.heapArray, 1, 2) := by
      have hstate := popState_start hle
      have hle' : 1 ≤ h'.size - 1 := by rwa [hr.size]
      have hstate' := popState_start hle'
      rw [hr.size] at hstate'
      refine ⟨rfl, ?_, hstate'.2.2.1, fun j hj1 hjn _ => hr.slot j hj1 (by omega)⟩
      rwa [h.heapArray_size]
    have hend := hstart.loop hcmp hlast
    rw [slots_pop hle, slots_pop (h := h') (by rw [hr.size]; exact hle), hr.size, hend.index]
    exact hend.off.fill hlast h1 hn

end cmp

end MatchingEngine.BinaryHeap
