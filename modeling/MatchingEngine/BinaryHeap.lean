import Mathlib
import MatchingEngine.Lib.Loop
import MatchingEngine.Lib.HeapOrder

/-!
# The binary heap

`binary_heap.h`: a heap in an array whose slot `0` is unused, grown by doubling.  The
comparator is a parameter.  The fields of `BinaryHeap` carry that the array has one slot
more than the capacity and that the capacity covers the size, so every slot the loops
touch is inside the array.

The multiset of values is kept by every operation for any comparator (`contents_insert`,
`contents_pop`); the order needs a strict weak order on the values held.

## Main definitions

* `BinaryHeap cmp` — the heap, `BinaryHeap.new` its constructor.
* `BinaryHeap.insert`, `pop`, `top`, `modifyTop` — the operations.
* `BinaryHeap.contents` — the values held; `BinaryHeap.Ordered` — heap order.
-/

namespace MatchingEngine

/-- The heap of `binary_heap.h`.  `modifyTop` stands for writing through `topPtr`. -/
structure BinaryHeap {α : Type} (cmp : α → α → Bool) where
  heapArray : Array α
  capacity : ℕ
  size : ℕ
  capacity_pos : 0 < capacity
  size_le : size ≤ capacity
  heapArray_size : heapArray.size = capacity + 1

namespace BinaryHeap
variable {α : Type} [Inhabited α] {cmp : α → α → Bool}

/-- An empty heap with room for `capacity` values. -/
def new (cmp : α → α → Bool) (capacity : ℕ) (h : 0 < capacity) : BinaryHeap cmp where
  heapArray := Array.replicate (capacity + 1) default
  capacity := capacity
  size := 0
  capacity_pos := h
  size_le := Nat.zero_le _
  heapArray_size := by simp

def isEmpty (h : BinaryHeap cmp) : Bool := h.size == 0

/-- The value in slot `1`; meaningful on a heap that is not empty. -/
def top (h : BinaryHeap cmp) : α := h.heapArray[1]!

/-- Rewrite the value in slot `1`, as through `topPtr`. -/
def modifyTop (f : α → α) (h : BinaryHeap cmp) : BinaryHeap cmp :=
  { h with
    heapArray := h.heapArray.set! 1 (f h.heapArray[1]!)
    heapArray_size := by simpa using h.heapArray_size }

/-- The array and the capacity after the growth that `insert` makes when it is full. -/
def grow (h : BinaryHeap cmp) : Array α × ℕ :=
  if h.size = h.capacity then
    (h.heapArray.extract 0 (h.size + 1) ++
      Array.replicate (2 * h.capacity - h.size) default, 2 * h.capacity)
  else (h.heapArray, h.capacity)

/-- One pass of the sift of `insert`: the father moves down into slot `index`. -/
def insertStep (cmp : α → α → Bool) (value : α) : Array α × ℕ → Option (Array α × ℕ)
  | (heapArray, index) =>
    let father := index / 2
    if 1 < index ∧ cmp value heapArray[father]! then
      some (heapArray.set! index heapArray[father]!, father)
    else none

/-- The sift of `insert`, which looks for the slot `value` goes to. -/
def insertLoop (cmp : α → α → Bool) (value : α) : Array α × ℕ → Array α × ℕ :=
  Loop.exec (insertStep cmp value) Prod.snd

/-- The child that `pop` compares with: the second one when it exists and is better. -/
def betterChild (cmp : α → α → Bool) (heapArray : Array α) (size maxChild : ℕ) : ℕ :=
  if maxChild < size ∧ cmp heapArray[maxChild + 1]! heapArray[maxChild]! then maxChild + 1
  else maxChild

/-- One pass of the sift of `pop`: the better child moves up into slot `index`. -/
def popStep (cmp : α → α → Bool) (last : α) (size : ℕ) :
    Array α × ℕ × ℕ → Option (Array α × ℕ × ℕ)
  | (heapArray, index, maxChild) =>
    if maxChild ≤ size then
      let child := betterChild cmp heapArray size maxChild
      if cmp last heapArray[child]! then none
      else some (heapArray.set! index heapArray[child]!, child, 2 * child)
    else none

/-- The sift of `pop`, which looks for the slot `last` goes to. -/
def popLoop (cmp : α → α → Bool) (last : α) (size : ℕ) : Array α × ℕ × ℕ → Array α × ℕ × ℕ :=
  Loop.exec (popStep cmp last size) fun s => size + 1 - s.2.2

/-! ### The slots of the array -/

/-- The array as a memory. -/
def slots (a : Array α) : ℕ → α := fun i => a[i]!

theorem slots_set {a : Array α} {i : ℕ} (hi : i < a.size) (v : α) :
    slots (a.set! i v) = Function.update (slots a) i v := by
  funext j
  by_cases hj : j = i
  · subst hj
    simp [slots, hi]
  · rw [Function.update_of_ne hj]
    simp [slots, getElem!_def, Ne.symm hj]

theorem insertLoop_size (value : α) (s : Array α × ℕ) :
    (insertLoop cmp value s).1.size = s.1.size := by
  refine Loop.exec_invariant (fun t : Array α × ℕ => t.1.size = s.1.size) ?_ rfl
  rintro ⟨a, i⟩ t hI hstep
  simp only [insertStep, Option.ite_none_right_eq_some, Option.some.injEq] at hstep
  rw [← hstep.2]
  simpa using hI

theorem popLoop_size (last : α) (n : ℕ) (s : Array α × ℕ × ℕ) :
    (popLoop cmp last n s).1.size = s.1.size := by
  refine Loop.exec_invariant (fun t : Array α × ℕ × ℕ => t.1.size = s.1.size) ?_ rfl
  rintro ⟨a, i, c⟩ t hI hstep
  simp only [popStep, Option.ite_none_right_eq_some, Option.ite_none_left_eq_some,
    Option.some.injEq] at hstep
  rw [← hstep.2.2]
  simpa using hI

theorem grow_size (h : BinaryHeap cmp) : h.grow.1.size = h.grow.2 + 1 := by
  have := h.size_le
  have := h.heapArray_size
  unfold grow
  split <;> simp <;> omega

theorem size_lt_grow (h : BinaryHeap cmp) : h.size + 1 ≤ h.grow.2 := by
  have := h.size_le
  have := h.capacity_pos
  unfold grow
  split <;> simp only <;> omega

/-- The slot past the values in use is in the memory after growing. -/
theorem size_succ_lt_grow (h : BinaryHeap cmp) : h.size + 1 < h.grow.1.size := by
  have := h.grow_size
  have := h.size_lt_grow
  omega

/-! ### The operations -/

def insert (h : BinaryHeap cmp) (value : α) : BinaryHeap cmp where
  heapArray :=
    let s := insertLoop cmp value (h.grow.1, h.size + 1)
    s.1.set! s.2 value
  capacity := h.grow.2
  size := h.size + 1
  capacity_pos := Nat.lt_of_lt_of_le (Nat.succ_pos _) h.size_lt_grow
  size_le := h.size_lt_grow
  heapArray_size := by simp [insertLoop_size, grow_size]

/-- Remove the top.  The source calls it on a heap that is not empty. -/
def pop (h : BinaryHeap cmp) : α × BinaryHeap cmp :=
  let last := h.heapArray[h.size]!
  (h.heapArray[1]!,
    { heapArray :=
        let s := popLoop cmp last (h.size - 1) (h.heapArray, 1, 2)
        s.1.set! s.2.1 last
      capacity := h.capacity
      size := h.size - 1
      capacity_pos := h.capacity_pos
      size_le := (Nat.sub_le _ _).trans h.size_le
      heapArray_size := by simp [popLoop_size, h.heapArray_size] })

/-- The values held. -/
def contents (h : BinaryHeap cmp) : Multiset α := HeapOrder.contents (slots h.heapArray) h.size

/-- Heap order under the comparator. -/
def Ordered (h : BinaryHeap cmp) : Prop :=
  HeapOrder.IsHeap (fun a b => cmp a b = true) (slots h.heapArray) h.size

@[simp] theorem size_new (capacity : ℕ) (hc : 0 < capacity) : (new cmp capacity hc).size = 0 := rfl
@[simp] theorem size_insert (h : BinaryHeap cmp) (v : α) : (h.insert v).size = h.size + 1 := rfl
@[simp] theorem size_pop (h : BinaryHeap cmp) : h.pop.2.size = h.size - 1 := rfl
@[simp] theorem size_modifyTop (f : α → α) (h : BinaryHeap cmp) :
    (h.modifyTop f).size = h.size := rfl
@[simp] theorem fst_pop (h : BinaryHeap cmp) : h.pop.1 = h.top := rfl

@[simp] theorem card_contents (h : BinaryHeap cmp) : Multiset.card h.contents = h.size := by
  simp [contents]

theorem isEmpty_iff (h : BinaryHeap cmp) : h.isEmpty = true ↔ h.contents = 0 := by
  rw [isEmpty, beq_iff_eq, ← card_contents, Multiset.card_eq_zero]

omit [Inhabited α] in
theorem size_pos_of_not_isEmpty {h : BinaryHeap cmp} (he : h.isEmpty = false) : 0 < h.size := by
  simpa [isEmpty, Nat.pos_iff_ne_zero] using he

@[simp] theorem contents_new (capacity : ℕ) (hc : 0 < capacity) :
    (new cmp capacity hc).contents = 0 := rfl

theorem ordered_new (capacity : ℕ) (hc : 0 < capacity) : (new cmp capacity hc).Ordered := by
  intro i h2 hn
  rw [size_new] at hn
  omega

theorem top_mem {h : BinaryHeap cmp} (hpos : 0 < h.size) : h.top ∈ h.contents :=
  HeapOrder.mem_contents.mpr ⟨1, le_rfl, hpos, rfl⟩

/-! ### Writing the top -/

theorem slots_modifyTop (f : α → α) (h : BinaryHeap cmp) :
    slots (h.modifyTop f).heapArray = Function.update (slots h.heapArray) 1 (f h.top) := by
  have hlt : 1 < h.heapArray.size := by
    have := h.capacity_pos
    have := h.heapArray_size
    omega
  exact slots_set hlt _

/-- Writing the top trades its value for the new one. -/
theorem contents_modifyTop {h : BinaryHeap cmp} (hpos : 0 < h.size) (f : α → α) :
    h.top ::ₘ (h.modifyTop f).contents = f h.top ::ₘ h.contents := by
  rw [contents, contents, slots_modifyTop]
  exact HeapOrder.contents_update (f := slots h.heapArray) le_rfl hpos (f h.top)

/-- A write that the comparator does not see keeps the order. -/
theorem Ordered.modifyTop {h : BinaryHeap cmp} (ho : h.Ordered) {f : α → α}
    (hf : ∀ a b, cmp a (f b) = cmp a b) : (h.modifyTop f).Ordered := by
  intro i h2 hn
  rw [slots_modifyTop, Function.update_of_ne (by omega)]
  by_cases hp : i / 2 = 1
  · have := ho i h2 hn
    rw [hp] at this
    rw [hp, Function.update_self]
    change ¬ cmp _ (f h.top) = true
    rw [hf]
    exact this
  · rw [Function.update_of_ne hp]
    exact ho i h2 hn

/-! ### Insertion -/

theorem insertStep_eq_some {value : α} {a : Array α} {index : ℕ} {t : Array α × ℕ} :
    insertStep cmp value (a, index) = some t ↔
      (1 < index ∧ cmp value a[index / 2]! = true) ∧
        (a.set! index a[index / 2]!, index / 2) = t := by
  simp [insertStep]

variable (cmp) in
theorem insertStep_decreases (value : α) :
    Loop.Decreases (fun _ => True) (insertStep cmp value) Prod.snd := by
  rintro ⟨a, i⟩ t - hstep
  obtain ⟨⟨h1, -⟩, rfl⟩ := insertStep_eq_some.mp hstep
  exact ⟨trivial, by simp only; omega⟩

/-- Growing keeps the slots in use. -/
theorem slots_grow (h : BinaryHeap cmp) {i : ℕ} (hi : i ≤ h.size) :
    slots h.grow.1 i = slots h.heapArray i := by
  have hsz := h.heapArray_size
  have hle := h.size_le
  unfold grow slots
  split
  · have hlt : i < h.heapArray.size := by omega
    have hmin : i < min (h.size + 1) h.heapArray.size := by omega
    simp only [getElem!_def, Array.getElem?_append, Array.size_extract, Nat.sub_zero, hmin,
      if_true, Array.getElem?_extract]
    simp
  · rfl

variable (cmp) in
/-- What the sift of `insert` keeps: with `value` in the free slot, the contents. -/
theorem contents_insertLoop (value : α) (n : ℕ) (a : Array α) (index : ℕ) (h1 : 1 ≤ index)
    (hn : index ≤ n) (hsize : n < a.size) :
    let s := insertLoop cmp value (a, index)
    (1 ≤ s.2 ∧ s.2 ≤ n ∧ n < s.1.size) ∧
      HeapOrder.contents (Function.update (slots s.1) s.2 value) n =
        HeapOrder.contents (Function.update (slots a) index value) n := by
  refine Loop.exec_invariant (fun s : Array α × ℕ => (1 ≤ s.2 ∧ s.2 ≤ n ∧ n < s.1.size) ∧
    HeapOrder.contents (Function.update (slots s.1) s.2 value) n =
      HeapOrder.contents (Function.update (slots a) index value) n) ?_ ⟨⟨h1, hn, hsize⟩, rfl⟩
  rintro ⟨b, i⟩ t ⟨⟨hi1, hin, hbn⟩, hc⟩ hstep
  obtain ⟨⟨hlt, -⟩, rfl⟩ := insertStep_eq_some.mp hstep
  simp only at hi1 hin hbn hc ⊢
  refine ⟨⟨by omega, by omega, by simpa using hbn⟩, ?_⟩
  rw [slots_set (by omega), ← hc]
  exact HeapOrder.contents_move hi1 hin (by omega) (by omega) (by omega) value

/-- The memory after an insertion: `value` in the slot the sift found. -/
theorem slots_insert (h : BinaryHeap cmp) (value : α) :
    let s := insertLoop cmp value (h.grow.1, h.size + 1)
    slots (h.insert value).heapArray = Function.update (slots s.1) s.2 value := by
  obtain ⟨⟨-, hn, hlt⟩, -⟩ :=
    contents_insertLoop cmp value (h.size + 1) h.grow.1 _ (Nat.succ_pos _) le_rfl
      h.size_succ_lt_grow
  exact slots_set (hn.trans_lt hlt) value

/-- **Insertion adds the value and nothing else**, whatever the comparator. -/
@[simp] theorem contents_insert (h : BinaryHeap cmp) (value : α) :
    (h.insert value).contents = value ::ₘ h.contents := by
  obtain ⟨-, hc⟩ :=
    contents_insertLoop cmp value (h.size + 1) h.grow.1 _ (Nat.succ_pos _) le_rfl
      h.size_succ_lt_grow
  rw [contents, slots_insert, size_insert, hc, HeapOrder.contents_succ, Function.update_self,
    contents]
  refine congrArg _ (HeapOrder.contents_congr fun i _ hi => ?_)
  rw [Function.update_of_ne (by omega), slots_grow h hi]

variable (cmp) in
/-- The states of the sift of `insert` over a heap in order: the bounds of the free slot, the
values outside it, and the order off it. -/
def InsertState (S : α → Prop) (value : α) (n : ℕ) (s : Array α × ℕ) : Prop :=
  (1 ≤ s.2 ∧ s.2 ≤ n ∧ n < s.1.size) ∧
    (∀ i, 1 ≤ i → i ≤ n → i ≠ s.2 → S (slots s.1 i)) ∧
      HeapOrder.UpHole (fun a b => cmp a b = true) (slots s.1) n s.2 value

theorem insertStep_insertState {S : α → Prop}
    (hS : HeapOrder.StrictWeakOn S fun a b => cmp a b = true) {value : α} (hv : S value) {n : ℕ}
    {s t : Array α × ℕ} (hs : InsertState cmp S value n s)
    (hstep : insertStep cmp value s = some t) : InsertState cmp S value n t := by
  obtain ⟨b, i⟩ := s
  obtain ⟨⟨hi1, hin, hbn⟩, hb, hup⟩ := hs
  obtain ⟨⟨hlt, hcmp⟩, rfl⟩ := insertStep_eq_some.mp hstep
  simp only at hi1 hin hbn hb hup
  refine ⟨⟨by simp only; omega, by simp only; omega, by simpa using hbn⟩, ?_, ?_⟩
  · simp only
    rw [slots_set (by omega)]
    exact HeapOrder.off_hole_move hb (by omega) (by omega) (by omega)
  · simp only
    rw [slots_set (by omega)]
    exact hup.move hS hb hv (by omega) hin hcmp

/-- The sift of `insert` starts at the slot `size + 1`, a leaf: the order off it is the order of
the old heap. -/
theorem insertState_start {S : α → Prop} {h : BinaryHeap cmp} (ho : h.Ordered)
    (hin : ∀ a ∈ h.contents, S a) (value : α) :
    InsertState cmp S value (h.size + 1) (h.grow.1, h.size + 1) := by
  refine ⟨⟨by simp, by simp, h.size_succ_lt_grow⟩, fun i h1 hi hne => ?_,
    ⟨⟨fun i h2 hi hne hpar => ?_, fun _ i h2 hi hpar => ?_⟩, fun i h2 hi hpar => ?_⟩⟩
  · simp only at hne ⊢
    rw [slots_grow h (by omega)]
    exact hin _ (HeapOrder.mem_contents.mpr ⟨i, h1, by omega, rfl⟩)
  · simp only at hne hpar ⊢
    rw [slots_grow h (by omega), slots_grow h (by omega)]
    exact ho i h2 (by omega)
  · simp only at hpar
    omega
  · simp only at hpar
    omega

/-- **Insertion keeps the order** of a heap whose values the comparator orders. -/
theorem Ordered.insert {S : α → Prop} (hS : HeapOrder.StrictWeakOn S fun a b => cmp a b = true)
    {h : BinaryHeap cmp} (ho : h.Ordered) (hin : ∀ a ∈ h.contents, S a) {value : α}
    (hv : S value) : (h.insert value).Ordered := by
  have hend : InsertState cmp S value (h.size + 1)
      (insertLoop cmp value (h.grow.1, h.size + 1)) :=
    Loop.exec_invariant _ (fun _ _ => insertStep_insertState hS hv)
      (insertState_start ho hin value)
  obtain ⟨-, -, hup⟩ := hend
  have hdone := Loop.exec_done (insertStep_decreases cmp value)
    (s := (h.grow.1, h.size + 1)) trivial
  rw [Ordered, slots_insert]
  refine hup.fill fun h2 hcmp => ?_
  -- The loop has ended: the guard fails at the slot it found.
  simp only [insertStep, ite_eq_right_iff, reduceCtorEq, imp_false, not_and] at hdone
  exact hdone h2 hcmp

/-! ### Removal of the top -/

theorem popStep_eq_some {last : α} {n : ℕ} {a : Array α} {index maxChild : ℕ}
    {t : Array α × ℕ × ℕ} :
    popStep cmp last n (a, index, maxChild) = some t ↔
      maxChild ≤ n ∧ ¬ cmp last a[betterChild cmp a n maxChild]! = true ∧
        (a.set! index a[betterChild cmp a n maxChild]!, betterChild cmp a n maxChild,
          2 * betterChild cmp a n maxChild) = t := by
  simp [popStep]

variable (cmp) in
theorem betterChild_bounds (a : Array α) {n c : ℕ} (hc : c ≤ n) :
    c ≤ betterChild cmp a n c ∧ betterChild cmp a n c ≤ c + 1 ∧ betterChild cmp a n c ≤ n := by
  unfold betterChild
  split <;> omega

/-- The better child is not worse than any child. -/
theorem betterChild_min {S : α → Prop}
    (hS : HeapOrder.StrictWeakOn S fun a b => cmp a b = true) {a : Array α} {n i : ℕ}
    (hi : 1 ≤ i) (ha : ∀ j, 1 ≤ j → j ≤ n → j ≠ i → S (slots a j)) :
    ∀ j, 2 ≤ j → j ≤ n → j / 2 = i →
      ¬ cmp (slots a j) (slots a (betterChild cmp a n (2 * i))) = true := by
  intro j h2 hn hpar
  have hj : j = 2 * i ∨ j = 2 * i + 1 := by omega
  unfold betterChild
  split
  · next hbetter =>
    rcases hj with rfl | rfl
    · exact hS.asymm _ _ (ha (2 * i + 1) (by omega) (by omega) (by omega))
        (ha (2 * i) (by omega) (by omega) (by omega)) hbetter.2
    · exact hS.irrefl (ha (2 * i + 1) (by omega) hn (by omega))
  · next hworse =>
    rcases hj with rfl | rfl
    · exact hS.irrefl (ha (2 * i) (by omega) hn (by omega))
    · exact fun hcmp => hworse ⟨by omega, hcmp⟩

/-- The states of the sift of `pop`: the child is always twice the free slot. -/
def PopState (n size : ℕ) (s : Array α × ℕ × ℕ) : Prop :=
  1 ≤ s.2.1 ∧ s.2.1 ≤ n ∧ n < s.1.size ∧ s.2.2 = 2 * s.2.1 ∧ s.1.size = size

theorem popStep_popState {last : α} {n size : ℕ} {s t : Array α × ℕ × ℕ}
    (hs : PopState n size s) (hstep : popStep cmp last n s = some t) : PopState n size t := by
  obtain ⟨a, i, c⟩ := s
  obtain ⟨h1, hin, hna, hc, hsz⟩ := hs
  obtain ⟨hcn, -, rfl⟩ := popStep_eq_some.mp hstep
  have := betterChild_bounds cmp a hcn
  simp only at h1 hin hna hc hsz
  exact ⟨by simp only; omega, by simp only; omega, by simpa using hna, rfl, by simpa using hsz⟩

variable (cmp) in
theorem popStep_decreases (last : α) (n size : ℕ) :
    Loop.Decreases (PopState n size) (popStep cmp last n) fun s => n + 1 - s.2.2 := by
  intro s t hs hstep
  refine ⟨popStep_popState hs hstep, ?_⟩
  obtain ⟨a, i, c⟩ := s
  obtain ⟨h1, -, -, hc, -⟩ := hs
  obtain ⟨hcn, -, rfl⟩ := popStep_eq_some.mp hstep
  have := betterChild_bounds cmp a hcn
  simp only at h1 hc ⊢
  omega

section pop
variable {h : BinaryHeap cmp}

omit [Inhabited α] in
/-- The sift of `pop` starts in slot `1` of a heap that keeps a value. -/
theorem popState_start (hn : 1 ≤ h.size - 1) :
    PopState (h.size - 1) (h.capacity + 1) (h.heapArray, 1, 2) := by
  have := h.size_le
  have := h.heapArray_size
  exact ⟨le_rfl, hn, by simp only; omega, rfl, this⟩

theorem popState_end (hn : 1 ≤ h.size - 1) (last : α) :
    PopState (h.size - 1) (h.capacity + 1) (popLoop cmp last (h.size - 1) (h.heapArray, 1, 2)) :=
  Loop.exec_invariant _ (fun _ _ => popStep_popState) (popState_start hn)

/-- The memory after a removal: the last value in the slot the sift found. -/
theorem slots_pop (hn : 1 ≤ h.size - 1) :
    let last := slots h.heapArray h.size
    let s := popLoop cmp last (h.size - 1) (h.heapArray, 1, 2)
    slots h.pop.2.heapArray = Function.update (slots s.1) s.2.1 last := by
  obtain ⟨-, hin, hlt, -⟩ := popState_end hn (slots h.heapArray h.size)
  exact slots_set (hin.trans_lt hlt) _

/-- What the sift of `pop` keeps: with `last` in the free slot, the contents. -/
theorem contents_popLoop (hn : 1 ≤ h.size - 1) (last : α) :
    let s := popLoop cmp last (h.size - 1) (h.heapArray, 1, 2)
    HeapOrder.contents (Function.update (slots s.1) s.2.1 last) (h.size - 1) =
      HeapOrder.contents (Function.update (slots h.heapArray) 1 last) (h.size - 1) := by
  have hloop := @Loop.exec_invariant _ (popStep cmp last (h.size - 1))
    (fun s => h.size - 1 + 1 - s.2.2)
    (fun s => PopState (h.size - 1) (h.capacity + 1) s ∧
      HeapOrder.contents (Function.update (slots s.1) s.2.1 last) (h.size - 1) =
        HeapOrder.contents (Function.update (slots h.heapArray) 1 last) (h.size - 1)) ?step
    (h.heapArray, 1, 2) ⟨popState_start hn, rfl⟩
  · exact hloop.2
  case step =>
    rintro ⟨a, i, c⟩ t ⟨hst, hc⟩ hstep
    have hst' := popStep_popState hst hstep
    obtain ⟨h1, hin, hna, hci, -⟩ := hst
    obtain ⟨hcn, -, rfl⟩ := popStep_eq_some.mp hstep
    have := betterChild_bounds cmp a hcn
    simp only at h1 hin hna hci hc
    refine ⟨hst', ?_⟩
    simp only
    rw [slots_set (by omega), ← hc]
    exact HeapOrder.contents_move h1 hin (by omega) (by omega) (by omega) last

/-- **Removal takes the top out and nothing else**, whatever the comparator. -/
theorem contents_pop (hpos : 0 < h.size) : h.contents = h.top ::ₘ h.pop.2.contents := by
  obtain ⟨n, hsize⟩ : ∃ n, h.size = n + 1 := ⟨h.size - 1, by omega⟩
  have hsize' : h.size - 1 = n := by omega
  by_cases hn : 1 ≤ n
  · have hloop := contents_popLoop (h := h) (by omega) (slots h.heapArray h.size)
    have hput := HeapOrder.contents_update (f := slots h.heapArray) le_rfl hn
      (slots h.heapArray (n + 1))
    simp only [hsize] at hloop
    rw [contents, contents, slots_pop (by omega), size_pop]
    simp only [hsize]
    rw [hloop, HeapOrder.contents_succ, ← hput]
    rfl
  · obtain rfl : n = 0 := by omega
    rw [contents, contents, size_pop, hsize']
    simp [hsize, slots, top]

variable (cmp) in
/-- The states of the sift of `pop` over a heap in order: the values outside the free slot, and
the order off it. -/
def PopOrdered (S : α → Prop) (last : α) (n size : ℕ) (s : Array α × ℕ × ℕ) : Prop :=
  PopState n size s ∧ (∀ i, 1 ≤ i → i ≤ n → i ≠ s.2.1 → S (slots s.1 i)) ∧
    HeapOrder.DownHole (fun a b => cmp a b = true) (slots s.1) n s.2.1 last

theorem popStep_popOrdered {S : α → Prop}
    (hS : HeapOrder.StrictWeakOn S fun a b => cmp a b = true) {last : α} {n size : ℕ}
    {s t : Array α × ℕ × ℕ} (hs : PopOrdered cmp S last n size s)
    (hstep : popStep cmp last n s = some t) : PopOrdered cmp S last n size t := by
  obtain ⟨a, i, c⟩ := s
  obtain ⟨hst, hb, hdown⟩ := hs
  have hst' := popStep_popState hst hstep
  obtain ⟨h1, hin, hna, hci, -⟩ := hst
  obtain ⟨hcn, hcmp, rfl⟩ := popStep_eq_some.mp hstep
  have hbounds := betterChild_bounds cmp a hcn
  simp only at h1 hin hna hci hb hdown
  refine ⟨hst', ?_, ?_⟩
  · simp only
    rw [slots_set (by omega)]
    exact HeapOrder.off_hole_move hb (by omega) (by omega) (by omega)
  · simp only
    rw [slots_set (by omega)]
    subst hci
    exact hdown.move h1 (by omega) (by omega) (by omega) (betterChild_min hS h1 hb) hcmp

/-- The free slot of the start is the root: the order off it is the order of the heap. -/
theorem popOrdered_start {S : α → Prop} (ho : h.Ordered) (hin : ∀ a ∈ h.contents, S a)
    (hn : 1 ≤ h.size - 1) (last : α) :
    PopOrdered cmp S last (h.size - 1) (h.capacity + 1) (h.heapArray, 1, 2) := by
  refine ⟨popState_start hn, fun i h1 hi _ => ?_,
    ⟨⟨fun i h2 hi _ _ => ho i h2 (by omega), fun h2 => ?_⟩, fun h2 => ?_⟩⟩
  · exact hin _ (HeapOrder.mem_contents.mpr ⟨i, h1, by omega, rfl⟩)
  · simp only at h2
    omega
  · simp only at h2
    omega

/-- Where the sift has ended, `last` fills the free slot in order: it compares before the better
child, and no child is better than that one. -/
theorem PopOrdered.fill {S : α → Prop}
    (hS : HeapOrder.StrictWeakOn S fun a b => cmp a b = true) {last : α} (hlast : S last)
    {n size : ℕ} {s : Array α × ℕ × ℕ} (hs : PopOrdered cmp S last n size s)
    (hdone : popStep cmp last n s = none) :
    HeapOrder.IsHeap (fun a b => cmp a b = true) (Function.update (slots s.1) s.2.1 last) n := by
  obtain ⟨a, i, c⟩ := s
  obtain ⟨⟨h1, -, -, hci, -⟩, hb, hdown⟩ := hs
  simp only at h1 hci hb hdown ⊢
  subst hci
  refine hdown.fill fun j h2 hj hpar => ?_
  simp only [popStep, ite_eq_right_iff, ite_eq_left_iff, reduceCtorEq, imp_false, not_not] at hdone
  have hbefore := hdone (by omega)
  have hbounds := betterChild_bounds (n := n) (c := 2 * i) cmp a (by omega)
  have hbetter : S (slots a (betterChild cmp a n (2 * i))) :=
    hb _ (by omega) (by omega) (by omega)
  exact hS.not_trans _ _ _ (hb j (by omega) hj (by omega)) hbetter hlast
    (betterChild_min hS h1 hb j h2 hj hpar) (hS.asymm _ _ hlast hbetter hbefore)

/-- **Removal keeps the order** of a heap whose values the comparator orders. -/
theorem Ordered.pop {S : α → Prop} (hS : HeapOrder.StrictWeakOn S fun a b => cmp a b = true)
    (ho : h.Ordered) (hin : ∀ a ∈ h.contents, S a) : h.pop.2.Ordered := by
  by_cases hn : 1 ≤ h.size - 1
  · have hlast : S (slots h.heapArray h.size) :=
      hin _ (HeapOrder.mem_contents.mpr ⟨h.size, by omega, le_rfl, rfl⟩)
    set last := slots h.heapArray h.size
    have hend : PopOrdered cmp S last (h.size - 1) (h.capacity + 1)
        (popLoop cmp last (h.size - 1) (h.heapArray, 1, 2)) :=
      Loop.exec_invariant _ (fun _ _ => popStep_popOrdered hS) (popOrdered_start ho hin hn last)
    have hdone := Loop.exec_done (popStep_decreases cmp last (h.size - 1) (h.capacity + 1))
      (popState_start hn)
    rw [Ordered, slots_pop hn]
    exact hend.fill hS hlast hdone
  · intro i h2 hi
    rw [size_pop] at hi
    omega

/-- Nothing compares before the top of a heap in order. -/
theorem Ordered.top_min {S : α → Prop}
    (hS : HeapOrder.StrictWeakOn S fun a b => cmp a b = true) (ho : h.Ordered)
    (hin : ∀ a ∈ h.contents, S a) : ∀ a ∈ h.contents, ¬ cmp a h.top = true := by
  intro a ha
  obtain ⟨i, h1, hi, rfl⟩ := HeapOrder.mem_contents.mp ha
  exact ho.root_min hS (fun j h1 hj => hin _ (HeapOrder.mem_contents.mpr ⟨j, h1, hj, rfl⟩)) i h1 hi

end pop
end BinaryHeap
end MatchingEngine
