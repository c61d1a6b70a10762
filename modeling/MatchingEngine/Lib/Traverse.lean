import Mathlib

/-!
# What is done to all elements of a list

A computation that may fail, done to each element of a list, fails if it fails at one of them.

## Main definitions

* `mapM_eq_some_iff` — what a result is.
* `mapM_bind_mapM`, `foldlM_mapM` — several passes over a list are one pass of several steps.
-/

namespace MatchingEngine.Traverse

variable {α β γ : Type}

theorem mapM_eq_some_iff {f : α → Option β} {l : List α} {l' : List β} :
    l.mapM f = some l' ↔ List.Forall₂ (fun x y => f x = some y) l l' := by
  induction l generalizing l' with
  | nil => simp [eq_comm]
  | cons x l ih =>
    simp only [List.mapM_cons, Option.bind_eq_bind, Option.bind_eq_some_iff, Option.pure_def,
      Option.some.injEq, ih, List.forall₂_cons_left_iff]
    constructor
    · rintro ⟨y, hy, ys, hys, rfl⟩
      exact ⟨y, ys, hy, hys, rfl⟩
    · rintro ⟨y, ys, hy, hys, rfl⟩
      exact ⟨y, hy, ys, hys, rfl⟩

/-- Related elements are put into related lists. -/
theorem forall₂_set {R : α → β → Prop} {l : List α} {l' : List β} (h : List.Forall₂ R l l') {a : α}
    {b : β} (hab : R a b) (n : ℕ) : List.Forall₂ R (l.set n a) (l'.set n b) := by
  induction h generalizing n with
  | nil => exact .nil
  | cons hhead htail ih =>
    cases n with
    | zero => exact .cons hab htail
    | succ n => exact .cons hhead (ih n)

theorem forall₂_getElem? {R : α → β → Prop} {l : List α} {l' : List β} (h : List.Forall₂ R l l')
    (n : ℕ) : Option.Rel R l[n]? l'[n]? := by
  induction h generalizing n with
  | nil => exact .none
  | cons hhead htail ih =>
    cases n with
    | zero => exact .some hhead
    | succ n => exact ih n

theorem optionRel_mono {R S : α → β → Prop} (hRS : ∀ x y, R x y → S x y) {x : Option α}
    {y : Option β} (h : Option.Rel R x y) : Option.Rel S x y := by
  cases h with
  | none => exact .none
  | some hxy => exact .some (hRS _ _ hxy)

/-- Related results are the results of related computations. -/
theorem mapM_rel {R : β → γ → Prop} {f : α → Option β} {g : α → Option γ}
    (h : ∀ x, Option.Rel R (f x) (g x)) (l : List α) :
    Option.Rel (List.Forall₂ R) (l.mapM f) (l.mapM g) := by
  induction l with
  | nil => exact .some .nil
  | cons x l ih =>
    have hhead := h x
    simp only [List.mapM_cons, Option.bind_eq_bind, Option.pure_def]
    generalize f x = y, g x = z at hhead
    generalize l.mapM f = ys, l.mapM g = zs at ih
    cases hhead with
    | none => exact .none
    | some hyz =>
      cases ih with
      | none => exact .none
      | some hyzs => exact .some (.cons hyz hyzs)

/-- Related lists are sorted alike, if related elements compare alike. -/
theorem forall₂_insertionSort {R : α → β → Prop} {r : α → α → Prop} {s : β → β → Prop}
    [DecidableRel r] [DecidableRel s] (hrs : ∀ a a' b b', R a a' → R b b' → (s a' b' ↔ r a b))
    {l : List α} {l' : List β} (h : List.Forall₂ R l l') :
    List.Forall₂ R (l.insertionSort r) (l'.insertionSort s) := by
  have hinsert : ∀ {x : α} {x' : β} {m : List α} {m' : List β}, R x x' → List.Forall₂ R m m' →
      List.Forall₂ R (m.orderedInsert r x) (m'.orderedInsert s x') := by
    intro x x' m m' hx hm
    induction hm with
    | nil => exact .cons hx .nil
    | cons hhead htail ih =>
      simp only [List.orderedInsert_cons, hrs _ _ _ _ hx hhead]
      split
      · exact .cons hx (.cons hhead htail)
      · exact .cons hhead ih
  induction h with
  | nil => exact .nil
  | cons hhead _ ih => exact hinsert hhead ih

/-- A list of which every element has a result has the results. -/
theorem mapM_eq_some_ofFn {f : α → Option β} {l : List α} {g : Fin l.length → β}
    (h : ∀ i, f (l.get i) = some (g i)) : l.mapM f = some (List.ofFn g) := by
  rw [mapM_eq_some_iff, List.forall₂_iff_get]
  refine ⟨(List.length_ofFn ..).symm, fun i hi hi' => ?_⟩
  simpa using h ⟨i, hi⟩

/-- What becomes of each element does not change whether all of them succeed. -/
theorem mapM_map_eq (f : α → Option β) (g : β → γ) (l : List α) :
    (l.mapM fun x => (f x).map g) = (l.mapM f).map fun l => l.map g := by
  induction l with
  | nil => rfl
  | cons x l ih =>
    rw [List.mapM_cons, List.mapM_cons, ih]
    cases f x with
    | none => rfl
    | some y => cases l.mapM f <;> rfl

/-- What is done to each element in two passes is done in one. -/
theorem mapM_bind_mapM (f : α → Option β) (g : β → Option γ) (l : List α) :
    ((l.mapM f).bind fun l => l.mapM g) = l.mapM fun x => (f x).bind g := by
  induction l with
  | nil => rfl
  | cons x l ih =>
    rw [List.mapM_cons, List.mapM_cons, ← ih]
    cases f x with
    | none => rfl
    | some y => cases l.mapM f <;> cases hy : g y <;> simp [hy]

/-- What is done to all elements, one step after the other, is done to each of them alone. -/
theorem foldlM_mapM (f : α → β → Option α) (steps : List β) (l : List α) :
    (steps.foldlM (fun l b => l.mapM fun x => f x b) l) = l.mapM fun x => steps.foldlM f x := by
  induction steps generalizing l with
  | nil =>
    have hpure := List.mapM_pure (m := Option) (l := l) (f := id)
    simpa using hpure.symm
  | cons b steps ih =>
    have hrest : (fun l : List α => steps.foldlM (fun l b => l.mapM fun x => f x b) l) =
        fun l => l.mapM fun x => steps.foldlM f x := funext ih
    rw [List.foldlM_cons, hrest]
    exact mapM_bind_mapM (fun x => f x b) (fun x => steps.foldlM f x) l

end MatchingEngine.Traverse
