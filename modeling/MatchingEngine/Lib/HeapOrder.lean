import Mathlib

/-!
# Heap order with a hole

A binary heap on the slots `1, …, n` of a memory `f : ℕ → α`, the parent of slot `i`
being slot `i / 2`.  Sifting is seen as moving a *hole*: the slot at `hole` is free,
a value `v` waits to be put there, and one move copies a neighbour into the hole.
`UpHole` and `DownHole` say what is known of the order meanwhile; each has a `move`
lemma for one pass of the loop and a `fill` lemma for its end.

The comparison is a strict weak order on the values of interest only (`StrictWeakOn`),
so that a comparator which is well behaved on part of its type can still be used.

## Main definitions

* `StrictWeakOn S lt` — `lt` is a strict weak order on the values in `S`.
* `IsHeap lt f n` — no slot compares before its parent.
* `contents f n` — the multiset of the values in the slots `1, …, n`.
* `UpHole`, `DownHole` — the invariants of the two sifts.
* `IsHeap.root_min` — nothing compares before the root.
-/

namespace MatchingEngine.HeapOrder

universe u
variable {α : Type u} {lt : α → α → Prop} {S : α → Prop} {f : ℕ → α} {n hole : ℕ} {v : α}

/-- `lt` is a strict weak order on the values that satisfy `S`: asymmetric, with a
transitive complement. -/
structure StrictWeakOn (S : α → Prop) (lt : α → α → Prop) : Prop where
  asymm : ∀ a b, S a → S b → lt a b → ¬ lt b a
  not_trans : ∀ a b c, S a → S b → S c → ¬ lt a b → ¬ lt b c → ¬ lt a c

theorem StrictWeakOn.irrefl (h : StrictWeakOn S lt) {a : α} (ha : S a) : ¬ lt a a :=
  fun haa => h.asymm a a ha ha haa haa

/-- A strict weak order pulled back along a key into a linear order. -/
theorem strictWeakOn_of_key {κ : Type*} [LinearOrder κ] (key : α → κ)
    (hkey : ∀ a b, S a → S b → (lt a b ↔ key a < key b)) : StrictWeakOn S lt where
  asymm a b ha hb hab := by
    rw [hkey b a hb ha]
    exact ((hkey a b ha hb).mp hab).asymm
  not_trans a b c ha hb hc hab hbc := by
    rw [hkey a b ha hb, not_lt] at hab
    rw [hkey b c hb hc, not_lt] at hbc
    rw [hkey a c ha hc, not_lt]
    exact hbc.trans hab

/-- On all values, a strict weak order in the sense of Mathlib. -/
theorem strictWeakOn_of_isStrictWeakOrder [IsStrictWeakOrder α lt] :
    StrictWeakOn (fun _ => True) lt where
  asymm a b _ _ hab hba := Std.Irrefl.irrefl a (IsTrans.trans a b a hab hba)
  not_trans a b c _ _ _ hab hbc hac := by
    have hba : ¬ lt b a := fun hba => hbc (IsTrans.trans b a c hba hac)
    have hcb : ¬ lt c b := fun hcb => hab (IsTrans.trans a c b hac hcb)
    exact (IsStrictWeakOrder.incomp_trans a b c ⟨hab, hba⟩ ⟨hbc, hcb⟩).1 hac

/-! ## Contents -/

/-- The values in the slots `1, …, n`. -/
def contents (f : ℕ → α) (n : ℕ) : Multiset α := (Multiset.range n).map fun i => f (i + 1)

@[simp] theorem contents_zero (f : ℕ → α) : contents f 0 = 0 := rfl

@[simp] theorem contents_succ (f : ℕ → α) (n : ℕ) :
    contents f (n + 1) = f (n + 1) ::ₘ contents f n := by
  simp [contents, Multiset.range_succ]

@[simp] theorem card_contents (f : ℕ → α) (n : ℕ) : Multiset.card (contents f n) = n := by
  simp [contents]

theorem mem_contents {a : α} : a ∈ contents f n ↔ ∃ i, 1 ≤ i ∧ i ≤ n ∧ f i = a := by
  simp only [contents, Multiset.mem_map, Multiset.mem_range]
  constructor
  · rintro ⟨i, hi, rfl⟩
    exact ⟨i + 1, by omega, by omega, rfl⟩
  · rintro ⟨i, h1, hn, rfl⟩
    exact ⟨i - 1, by omega, by rw [Nat.sub_add_cancel h1]⟩

theorem contents_congr {g : ℕ → α} (h : ∀ i, 1 ≤ i → i ≤ n → f i = g i) :
    contents f n = contents g n := by
  refine Multiset.map_congr rfl fun i hi => h (i + 1) (by omega) ?_
  have := Multiset.mem_range.mp hi
  omega

/-- Overwriting a slot trades its value for the new one. -/
theorem contents_update (h1 : 1 ≤ hole) (hn : hole ≤ n) (v : α) :
    f hole ::ₘ contents (Function.update f hole v) n = v ::ₘ contents f n := by
  induction n with
  | zero => omega
  | succ n ih =>
    by_cases hlast : hole = n + 1
    · subst hlast
      have hrest : contents (Function.update f (n + 1) v) n = contents f n :=
        contents_congr fun i _ hi => Function.update_of_ne (by omega) _ _
      rw [contents_succ, contents_succ, Function.update_self, hrest, Multiset.cons_swap]
    · rw [contents_succ, contents_succ, Function.update_of_ne (Ne.symm hlast),
        Multiset.cons_swap, ih (by omega), Multiset.cons_swap]

/-- Copying slot `p` into the hole and moving the hole to `p` keeps the contents. -/
theorem contents_move {p : ℕ} (h1 : 1 ≤ hole) (hn : hole ≤ n) (hp1 : 1 ≤ p) (hpn : p ≤ n)
    (hne : p ≠ hole) (v : α) :
    contents (Function.update (Function.update f hole (f p)) p v) n =
      contents (Function.update f hole v) n := by
  have hcopy := contents_update (f := f) h1 hn (f p)
  have hput := contents_update (f := Function.update f hole (f p)) hp1 hpn v
  have hgoal := contents_update (f := f) h1 hn v
  rw [Function.update_of_ne hne] at hput
  refine Multiset.cons_inj_right (f hole) |>.mp (Multiset.cons_inj_right (f p) |>.mp ?_)
  calc f p ::ₘ f hole ::ₘ contents (Function.update (Function.update f hole (f p)) p v) n
      = f hole ::ₘ v ::ₘ contents (Function.update f hole (f p)) n := by
        rw [Multiset.cons_swap, hput]
    _ = v ::ₘ f p ::ₘ contents f n := by rw [Multiset.cons_swap, hcopy]
    _ = f p ::ₘ f hole ::ₘ contents (Function.update f hole v) n := by
        rw [Multiset.cons_swap, hgoal]

/-! ## Heap order -/

/-- No slot compares before its parent. -/
def IsHeap (lt : α → α → Prop) (f : ℕ → α) (n : ℕ) : Prop :=
  ∀ i, 2 ≤ i → i ≤ n → ¬ lt (f i) (f (i / 2))

/-- Nothing compares before the root of a heap. -/
theorem IsHeap.root_min (h : IsHeap lt f n) (ho : StrictWeakOn S lt)
    (hS : ∀ i, 1 ≤ i → i ≤ n → S (f i)) : ∀ i, 1 ≤ i → i ≤ n → ¬ lt (f i) (f 1) := by
  intro i
  induction i using Nat.strong_induction_on with
  | _ i ih =>
    intro h1 hn
    by_cases hi : i = 1
    · subst hi
      exact ho.irrefl (hS 1 h1 hn)
    · exact ho.not_trans _ _ _ (hS i h1 hn) (hS (i / 2) (by omega) (by omega))
        (hS 1 le_rfl (by omega)) (h i (by omega) hn)
        (ih (i / 2) (by omega) (by omega) (by omega))

/-- The order off the hole: pairs that do not touch it are in order, and its children
are in order with its parent. -/
structure AroundHole (lt : α → α → Prop) (f : ℕ → α) (n hole : ℕ) : Prop where
  kept : ∀ i, 2 ≤ i → i ≤ n → i ≠ hole → i / 2 ≠ hole → ¬ lt (f i) (f (i / 2))
  grand : 2 ≤ hole → ∀ i, 2 ≤ i → i ≤ n → i / 2 = hole → ¬ lt (f i) (f (hole / 2))

/-- The invariant of sifting up: the children of the hole may stay below `v`. -/
structure UpHole (lt : α → α → Prop) (f : ℕ → α) (n hole : ℕ) (v : α) : Prop
    extends AroundHole lt f n hole where
  below : ∀ i, 2 ≤ i → i ≤ n → i / 2 = hole → ¬ lt (f i) v

/-- The invariant of sifting down: `v` may stay below the parent of the hole. -/
structure DownHole (lt : α → α → Prop) (f : ℕ → α) (n hole : ℕ) (v : α) : Prop
    extends AroundHole lt f n hole where
  above : 2 ≤ hole → ¬ lt v (f (hole / 2))

/-- A value that is in order with the parent and the children of the hole fills it. -/
theorem AroundHole.fill (h : AroundHole lt f n hole)
    (habove : 2 ≤ hole → ¬ lt v (f (hole / 2)))
    (hbelow : ∀ i, 2 ≤ i → i ≤ n → i / 2 = hole → ¬ lt (f i) v) :
    IsHeap lt (Function.update f hole v) n := by
  intro i h2 hn
  by_cases hi : i = hole
  · subst hi
    rw [Function.update_self, Function.update_of_ne (by omega)]
    exact habove h2
  · rw [Function.update_of_ne hi]
    by_cases hp : i / 2 = hole
    · rw [hp, Function.update_self]
      exact hbelow i h2 hn hp
    · rw [Function.update_of_ne hp]
      exact h.kept i h2 hn hi hp

theorem UpHole.fill (h : UpHole lt f n hole v) (hstop : 2 ≤ hole → ¬ lt v (f (hole / 2))) :
    IsHeap lt (Function.update f hole v) n :=
  h.toAroundHole.fill hstop h.below

theorem DownHole.fill (h : DownHole lt f n hole v)
    (hstop : ∀ i, 2 ≤ i → i ≤ n → i / 2 = hole → ¬ lt (f i) v) :
    IsHeap lt (Function.update f hole v) n :=
  h.toAroundHole.fill h.above hstop

/-- What holds of every value outside the hole holds outside the next one, once the value of
that slot has moved into the first. -/
theorem off_hole_move {p : ℕ} (hS : ∀ i, 1 ≤ i → i ≤ n → i ≠ hole → S (f i)) (hp1 : 1 ≤ p)
    (hpn : p ≤ n) (hne : p ≠ hole) :
    ∀ i, 1 ≤ i → i ≤ n → i ≠ p → S (Function.update f hole (f p) i) := by
  intro i h1 hi _
  by_cases hih : i = hole
  · rw [hih, Function.update_self]
    exact hS p hp1 hpn hne
  · rw [Function.update_of_ne hih]
    exact hS i h1 hi hih

/-- One pass of sifting up: the parent, which `v` compares before, moves into the hole. -/
theorem UpHole.move (h : UpHole lt f n hole v) (ho : StrictWeakOn S lt)
    (hS : ∀ i, 1 ≤ i → i ≤ n → i ≠ hole → S (f i)) (hv : S v) (h2 : 2 ≤ hole) (hn : hole ≤ n)
    (hlt : lt v (f (hole / 2))) :
    UpHole lt (Function.update f hole (f (hole / 2))) n (hole / 2) v := by
  have hp : S (f (hole / 2)) := hS _ (by omega) (by omega) (by omega)
  have hup : 2 ≤ hole / 2 → ¬ lt (f (hole / 2)) (f (hole / 2 / 2)) := fun hq =>
    h.kept (hole / 2) hq (by omega) (by omega) (by omega)
  -- A child of the new hole other than the old hole is in order with the moved parent.
  have hsib : ∀ i, 2 ≤ i → i ≤ n → i / 2 = hole / 2 → i ≠ hole → ¬ lt (f i) (f (hole / 2)) := by
    intro i hi2 hin hpar hne
    have := h.kept i hi2 hin hne (by omega)
    rwa [hpar] at this
  refine ⟨⟨?_, ?_⟩, ?_⟩
  · intro i hi2 hin hne hpar
    have hih : i ≠ hole := fun he => hpar (by rw [he])
    rw [Function.update_of_ne hih]
    by_cases hph : i / 2 = hole
    · rw [hph, Function.update_self]
      exact h.grand h2 i hi2 hin hph
    · rw [Function.update_of_ne hph]
      exact h.kept i hi2 hin hih hph
  · intro hq2 i hi2 hin hpar
    rw [Function.update_of_ne (show hole / 2 / 2 ≠ hole by omega)]
    by_cases hih : i = hole
    · rw [hih, Function.update_self]
      exact hup hq2
    · rw [Function.update_of_ne hih]
      exact ho.not_trans _ _ _ (hS i (by omega) hin hih) hp
        (hS _ (by omega) (by omega) (by omega)) (hsib i hi2 hin hpar hih) (hup hq2)
  · intro i hi2 hin hpar
    by_cases hih : i = hole
    · rw [hih, Function.update_self]
      exact ho.asymm _ _ hv hp hlt
    · rw [Function.update_of_ne hih]
      exact ho.not_trans _ _ _ (hS i (by omega) hin hih) hp hv (hsib i hi2 hin hpar hih)
        (ho.asymm _ _ hv hp hlt)

/-- One pass of sifting down: the least child, which `v` does not compare before, moves
into the hole. -/
theorem DownHole.move (h : DownHole lt f n hole v) {c : ℕ} (h1 : 1 ≤ hole) (hc2 : 2 ≤ c)
    (hcn : c ≤ n) (hc : c / 2 = hole)
    (hmin : ∀ i, 2 ≤ i → i ≤ n → i / 2 = hole → ¬ lt (f i) (f c))
    (hv : ¬ lt v (f c)) : DownHole lt (Function.update f hole (f c)) n c v := by
  refine ⟨⟨?_, ?_⟩, ?_⟩
  · intro i hi2 hin hic hpar
    by_cases hih : i = hole
    · subst hih
      rw [Function.update_self, Function.update_of_ne (by omega)]
      exact h.grand hi2 c hc2 hcn hc
    · rw [Function.update_of_ne hih]
      by_cases hph : i / 2 = hole
      · rw [hph, Function.update_self]
        exact hmin i hi2 hin hph
      · rw [Function.update_of_ne hph]
        exact h.kept i hi2 hin hih hph
  · intro _ i hi2 hin hpar
    rw [hc, Function.update_self, Function.update_of_ne (by omega)]
    have := h.kept i hi2 hin (by omega) (by omega)
    rwa [hpar] at this
  · intro _
    rw [hc, Function.update_self]
    exact hv

end MatchingEngine.HeapOrder
