import Mathlib

/-!
# Sweeps over a supply

A supply is a multiset of items, each with a volume and a key that says which goes first.  A
sweep takes items in order of the keys, each wholly before the next; the last one may be
taken in part, and the rest of it stays.

A sweep may be confined to the best levels of the supply, where an item's level is a coarser
key.  `levelsUpTo` counts the levels down to an item, and the `cons` lemmas say how the count
moves when the first item is taken.

## Main definitions

* `Supply` — the key and the volume of an item, and what is left of it.
* `Supply.Sweeps m l m'` — the sweep that takes the volumes `l` from `m` and leaves `m'`.
* `Sweeps.head` — a sweep that starts with the first item.
* `SweepsUpTo P m q l m'` — the sweep takes the items of a kind, up to the volume `q`.
* `better` — the number of levels better than that of an item.
* `levelsUpTo` — the number of levels down to an item, one level left out.
-/

namespace MatchingEngine

/-- How items are ordered, measured and taken in part. -/
structure Supply (α κ : Type*) where
  key : α → κ
  volume : α → ℤ
  reduce : α → ℤ → α
  volume_reduce : ∀ a v, volume (reduce a v) = volume a - v

namespace Supply

section sweeps
variable {α κ : Type*} (S : Supply α κ)

/-- The volume of the items `m`. -/
def total (m : Multiset α) : ℤ := (m.map S.volume).sum

/-- What stays of an item when `v` of it is taken. -/
def leftover (a : α) (v : ℤ) : Multiset α := if S.volume a = v then 0 else {S.reduce a v}

variable {S} {m m' : Multiset α} {l : List (α × ℤ)}

@[simp] theorem total_cons (a : α) (m : Multiset α) : S.total (a ::ₘ m) = S.volume a + S.total m := by
  simp [total]

theorem total_nonneg (h : ∀ x ∈ m, 0 ≤ S.volume x) : 0 ≤ S.total m := by
  refine Multiset.sum_nonneg fun v hv => ?_
  obtain ⟨x, hx, rfl⟩ := Multiset.mem_map.mp hv
  exact h x hx

theorem volume_pos_of_mem_leftover {a x : α} {v : ℤ} (hv : v ≤ S.volume a)
    (hx : x ∈ S.leftover a v) : 0 < S.volume x := by
  unfold leftover at hx
  split at hx
  · exact absurd hx (Multiset.notMem_zero x)
  · rw [Multiset.mem_singleton.mp hx, S.volume_reduce]
    omega

variable [LinearOrder κ]

variable (S) in
/-- The sweep of `m` takes the volumes `l`, in this order, and leaves `m'`. -/
inductive Sweeps : Multiset α → List (α × ℤ) → Multiset α → Prop
  | stop (m : Multiset α) : Sweeps m [] m
  | whole {a : α} {m m' : Multiset α} {l : List (α × ℤ)} (hbest : ∀ x ∈ m, S.key a ≤ S.key x)
      (h : Sweeps m l m') : Sweeps (a ::ₘ m) ((a, S.volume a) :: l) m'
  | part {a : α} {m : Multiset α} {v : ℤ} (hbest : ∀ x ∈ m, S.key a ≤ S.key x) (hpos : 0 < v)
      (hlt : v < S.volume a) : Sweeps (a ::ₘ m) [(a, v)] (S.reduce a v ::ₘ m)

theorem Sweeps.eq_of_nil (h : S.Sweeps m [] m') : m' = m := by
  generalize hl : ([] : List (α × ℤ)) = l at h
  cases h with
  | stop m => rfl
  | whole => cases hl
  | part => cases hl

/-- What is taken was there. -/
theorem Sweeps.mem (h : S.Sweeps m l m') : ∀ p ∈ l, p.1 ∈ m := by
  induction h with
  | stop m => intro p hp; exact absurd hp List.not_mem_nil
  | whole hbest h ih =>
    intro p hp
    rcases List.mem_cons.mp hp with rfl | hp
    · exact Multiset.mem_cons_self _ _
    · exact Multiset.mem_cons_of_mem (ih p hp)
  | part hbest hpos hlt =>
    intro p hp
    rw [List.mem_singleton.mp hp]
    exact Multiset.mem_cons_self _ _

/-- A sweep that takes no volume takes no item. -/
theorem Sweeps.eq_nil (h : S.Sweeps m l m') (hm : ∀ x ∈ m, 0 < S.volume x)
    (hsum : (l.map Prod.snd).sum = 0) : l = [] := by
  have hpos : ∀ p ∈ l, 0 < p.2 := by
    clear hsum
    induction h with
    | stop m => intro p hp; exact absurd hp List.not_mem_nil
    | whole hbest h ih =>
      intro p hp
      rcases List.mem_cons.mp hp with rfl | hp
      · exact hm _ (Multiset.mem_cons_self _ _)
      · exact ih (fun x hx => hm x (Multiset.mem_cons_of_mem hx)) p hp
    | part hbest hpos hlt =>
      intro p hp
      rw [List.mem_singleton.mp hp]
      exact hpos
  cases l with
  | nil => rfl
  | cons p l =>
    have hhead := hpos p List.mem_cons_self
    have htail : 0 ≤ (l.map Prod.snd).sum := by
      refine List.sum_nonneg fun v hv => ?_
      obtain ⟨p, hp, rfl⟩ := List.mem_map.mp hv
      exact (hpos p (List.mem_cons_of_mem _ hp)).le
    rw [List.map_cons, List.sum_cons] at hsum
    omega

/-- Items of a kind of which nothing is taken stay as they are. -/
theorem Sweeps.filter_eq (h : S.Sweeps m l m') {P : α → Prop} [DecidablePred P]
    (hP : ∀ a v, P a → P (S.reduce a v)) (hl : ∀ p ∈ l, P p.1) :
    m'.filter (fun x => ¬ P x) = m.filter fun x => ¬ P x := by
  induction h with
  | stop m => rfl
  | whole hbest h ih =>
    have ha := hl _ List.mem_cons_self
    rw [ih fun p hp => hl p (List.mem_cons_of_mem _ hp),
      Multiset.filter_cons_of_neg (p := fun x => ¬ P x) _ (not_not.mpr ha)]
  | part hbest hpos hlt =>
    have ha := hl _ List.mem_cons_self
    rw [Multiset.filter_cons_of_neg (p := fun x => ¬ P x) _ (not_not.mpr ha),
      Multiset.filter_cons_of_neg (p := fun x => ¬ P x) _ (not_not.mpr (hP _ _ ha))]

/-- **A sweep of the volume `q` takes the first item first**, as much of it as it can. -/
theorem Sweeps.head {a : α} {q : ℤ} (hbest : ∀ x ∈ m, S.key a ≤ S.key x) (hq : 0 < q)
    (h : S.Sweeps (S.leftover a (min q (S.volume a)) + m) l m')
    (hend : q ≤ S.volume a → l = []) :
    S.Sweeps (a ::ₘ m) ((a, min q (S.volume a)) :: l) m' := by
  by_cases hle : S.volume a ≤ q
  · rw [min_eq_right hle] at h ⊢
    rw [leftover, if_pos rfl, zero_add] at h
    exact .whole hbest h
  · -- The volume ends within the item.
    have hlt : q < S.volume a := not_le.mp hle
    rw [hend hlt.le, min_eq_left hlt.le] at h
    rw [hend hlt.le, min_eq_left hlt.le]
    rw [leftover, if_neg hlt.ne', Multiset.singleton_add] at h
    rw [h.eq_of_nil]
    exact .part hbest hq hlt

variable (S) in
/-- The sweep of `m` takes the items of the kind `P` and no others, up to the volume `q`. -/
structure SweepsUpTo (P : α → Prop) [DecidablePred P] (m : Multiset α) (q : ℤ)
    (l : List (α × ℤ)) (m' : Multiset α) : Prop where
  sweeps : S.Sweeps m l m'
  volume : (l.map Prod.snd).sum = min q (S.total (m.filter P))
  taken : ∀ p ∈ l, P p.1

/-- **The first item goes before the sweep that follows it**, which may be confined to the kind
`P'` if that is `P` among the items after the first. -/
theorem SweepsUpTo.head {P P' : α → Prop} [DecidablePred P] [DecidablePred P'] {a : α} {q : ℤ}
    (hbest : ∀ x ∈ m, S.key a ≤ S.key x) (hq : 0 < q) (ha : P a) (hiff : ∀ x ∈ m, P x ↔ P' x)
    (hpos : ∀ x ∈ a ::ₘ m, 0 < S.volume x)
    (h : S.SweepsUpTo P' (S.leftover a (min q (S.volume a)) + m) (q - min q (S.volume a)) l m') :
    S.SweepsUpTo P (a ::ₘ m) q ((a, min q (S.volume a)) :: l) m' := by
  have hposRest : ∀ x ∈ m, 0 < S.volume x := fun x hx => hpos x (Multiset.mem_cons_of_mem hx)
  have hposLeft : ∀ x ∈ S.leftover a (min q (S.volume a)) + m, 0 < S.volume x := fun x hx =>
    (Multiset.mem_add.mp hx).elim (volume_pos_of_mem_leftover (min_le_right _ _)) (hposRest x)
  have hnonneg : 0 ≤ S.total (m.filter P) :=
    total_nonneg fun x hx => (hposRest x (Multiset.mem_of_mem_filter hx)).le
  have hnonnegLeft : 0 ≤ S.total ((S.leftover a (min q (S.volume a)) + m).filter P') :=
    total_nonneg fun x hx => (hposLeft x (Multiset.mem_of_mem_filter hx)).le
  -- Once the volume is taken the sweep takes nothing more.
  have hend : q ≤ S.volume a → l = [] := fun hle => by
    refine h.sweeps.eq_nil hposLeft ?_
    rw [h.volume]
    omega
  have hwhole : S.volume a ≤ q → S.leftover a (min q (S.volume a)) + m = m := fun hle => by
    rw [min_eq_right hle, leftover, if_pos rfl, zero_add]
  refine ⟨h.sweeps.head hbest hq hend, ?_, fun p hp => ?_⟩
  · rw [List.map_cons, List.sum_cons, Multiset.filter_cons_of_pos _ ha, total_cons]
    by_cases hle : S.volume a ≤ q
    · have hvolume := h.volume
      rw [hwhole hle, ← Multiset.filter_congr hiff] at hvolume
      omega
    · rw [hend (not_le.mp hle).le, List.map_nil, List.sum_nil]
      omega
  · rcases List.mem_cons.mp hp with rfl | hp
    · exact ha
    · have hle : S.volume a ≤ q := by
        by_contra hlt
        rw [hend (not_le.mp hlt).le] at hp
        exact absurd hp List.not_mem_nil
      have hmem := h.sweeps.mem p hp
      rw [hwhole hle] at hmem
      exact (hiff _ hmem).mpr (h.taken p hp)

end sweeps

/-! ## Levels -/

section levels
variable {α κ : Type*} [LinearOrder κ] (level : α → κ)

/-- The number of the levels of `m` down to that of `x`, the level `skip` left out. -/
def levelsUpTo (m : Multiset α) (skip : κ) (x : α) : ℕ :=
  (((m.map level).toFinset.erase skip).filter fun k => k ≤ level x).card

/-- The number of the levels of `m` better than that of `x`. -/
def better (m : Multiset α) (x : α) : ℕ := ((m.map level).toFinset.filter fun k => k < level x).card

variable {level} {m : Multiset α} {skip : κ} {a x : α}

/-- Taking an item of the level left out changes no count. -/
theorem levelsUpTo_cons_self (a : α) (m : Multiset α) (x : α) :
    levelsUpTo level (a ::ₘ m) (level a) x = levelsUpTo level m (level a) x := by
  simp only [levelsUpTo, Multiset.map_cons, Multiset.toFinset_cons, Finset.erase_insert_eq_erase]

/-- Taking an item of a new level leaves that level out instead. -/
theorem levelsUpTo_cons_of_notMem (hskip : skip ∉ (a ::ₘ m).map level) (hx : level a ≤ level x) :
    levelsUpTo level (a ::ₘ m) skip x = levelsUpTo level m (level a) x + 1 := by
  rw [← levelsUpTo_cons_self]
  have hmem : level a ∈ ((a ::ₘ m).map level).toFinset.filter fun k => k ≤ level x := by
    simp [hx]
  simp only [levelsUpTo]
  rw [Finset.erase_eq_of_notMem (by rwa [Multiset.mem_toFinset]), Finset.filter_erase,
    Finset.card_erase_add_one hmem]

/-- No level is better than the best one. -/
theorem levelsUpTo_eq_zero (hbest : ∀ y ∈ m, level x ≤ level y) :
    levelsUpTo level m (level x) x = 0 := by
  rw [levelsUpTo, Finset.card_eq_zero, Finset.filter_eq_empty_iff]
  intro k hk hle
  obtain ⟨hne, hk⟩ := Finset.mem_erase.mp hk
  obtain ⟨y, hy, rfl⟩ := Multiset.mem_map.mp (Multiset.mem_toFinset.mp hk)
  exact hne (le_antisymm hle (hbest y hy))

/-- Down to an item of the supply there are the better levels and its own. -/
theorem levelsUpTo_eq_better (hx : x ∈ m) (hskip : skip ∉ m.map level) :
    levelsUpTo level m skip x = better level m x + 1 := by
  have hmem : level x ∈ (m.map level).toFinset :=
    Multiset.mem_toFinset.mpr (Multiset.mem_map_of_mem level hx)
  have hinsert : (m.map level).toFinset.filter (fun k => k ≤ level x) =
      insert (level x) ((m.map level).toFinset.filter fun k => k < level x) := by
    ext k
    simp only [Finset.mem_filter, Finset.mem_insert, le_iff_eq_or_lt]
    constructor
    · intro h
      exact h.2.imp_right fun hlt => ⟨h.1, hlt⟩
    · rintro (rfl | h)
      · exact ⟨hmem, .inl rfl⟩
      · exact ⟨h.1, .inr h.2⟩
  rw [levelsUpTo, Finset.erase_eq_of_notMem (by rwa [Multiset.mem_toFinset]), hinsert,
    Finset.card_insert_of_notMem (by simp), better]

end levels

end Supply
end MatchingEngine
