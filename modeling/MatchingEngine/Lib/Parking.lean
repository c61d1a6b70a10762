import Mathlib

/-!
# Parking keys in a row of slots

Every key has a home slot, looks for a free slot from there on, and stays in the first one it
finds; there is no way back to the start of the row.  Whether all keys find a slot does not
depend on the order in which they come: they do just if, for every `m`, no more keys have
their home at or after slot `m` than there are slots from `m` on.

## Main definitions

* `Parked home slots S` — the keys `S` stand in the slots, without a gap after a home.
* `Fits home n S` — the keys are not too many for the end of the row.
* `Parked.park` — one more key parks.
* `Parked.fits`, `Parked.exists_free` — the counting, in both directions.
-/

namespace MatchingEngine.Parking

variable {α : Type*} {n : ℕ} {home : α → ℕ} {slots : Fin n → Option α} {S T : Finset α}
  {x : α} {i : Fin n}

/-- The keys `S` stand in the slots, each once and with no free slot between its home and it. -/
structure Parked (home : α → ℕ) (slots : Fin n → Option α) (S : Finset α) : Prop where
  mem : ∀ {i x}, slots i = some x → x ∈ S
  unique : ∀ {i j x}, slots i = some x → slots j = some x → i = j
  stands : ∀ x ∈ S, ∃ i, slots i = some x ∧ home x ≤ i ∧
    ∀ j : Fin n, home x ≤ j → j < i → slots j ≠ none

/-- From every slot on there are as many slots as keys with a home there. -/
def Fits (home : α → ℕ) (n : ℕ) (S : Finset α) : Prop :=
  ∀ m, (S.filter fun x => m ≤ home x).card ≤ n - m

theorem Fits.mono (h : Fits home n T) (hST : S ⊆ T) : Fits home n S := fun m =>
  (Finset.card_le_card (Finset.filter_subset_filter _ hST)).trans (h m)

theorem Fits.home_lt (h : Fits home n S) (hx : x ∈ S) : home x < n := by
  by_contra hge
  have hcard := h n
  rw [Nat.sub_self, Nat.le_zero, Finset.card_eq_zero] at hcard
  exact Finset.notMem_empty x (hcard ▸ Finset.mem_filter.mpr ⟨hx, not_lt.mp hge⟩)

theorem parked_empty (h : ∀ i, slots i = none) : Parked home slots ∅ where
  mem hi := by
    rw [h] at hi
    cases hi
  unique hi := by
    rw [h] at hi
    cases hi
  stands _ hx := absurd hx (Finset.notMem_empty _)

/-- A new key parks in the first free slot from its home on. -/
theorem Parked.park [DecidableEq α] (h : Parked home slots S) (hx : x ∉ S) (hhome : home x ≤ i)
    (hfree : slots i = none) (hfirst : ∀ j : Fin n, home x ≤ j → j < i → slots j ≠ none) :
    Parked home (Function.update slots i (some x)) (insert x S) := by
  have hkeep : ∀ {j : Fin n}, slots j ≠ none →
      Function.update slots i (some x) j = slots j := fun {j} hj =>
    Function.update_of_ne (fun heq : j = i => hj (by rw [heq, hfree])) ..
  have hslot : ∀ {j : Fin n} {y}, Function.update slots i (some x) j = some y →
      (j = i ∧ y = x) ∨ (j ≠ i ∧ slots j = some y) := by
    intro j y hj
    by_cases hji : j = i
    · rw [hji, Function.update_self] at hj
      exact .inl ⟨hji, (Option.some.inj hj).symm⟩
    · rw [Function.update_of_ne hji] at hj
      exact .inr ⟨hji, hj⟩
  refine ⟨fun {j y} hj => ?_, fun {j k y} hj hk => ?_, fun y hy => ?_⟩
  · rcases hslot hj with ⟨-, rfl⟩ | ⟨-, hj⟩
    · exact Finset.mem_insert_self _ _
    · exact Finset.mem_insert_of_mem (h.mem hj)
  · rcases hslot hj with ⟨hji, hyx⟩ | ⟨-, hj⟩ <;> rcases hslot hk with ⟨hki, hyx'⟩ | ⟨-, hk⟩
    · rw [hji, hki]
    · exact absurd (hyx ▸ h.mem hk) hx
    · exact absurd (hyx' ▸ h.mem hj) hx
    · exact h.unique hj hk
  · rcases Finset.mem_insert.mp hy with rfl | hy
    · refine ⟨i, Function.update_self .., hhome, fun j hle hlt => ?_⟩
      rw [hkeep (hfirst j hle hlt)]
      exact hfirst j hle hlt
    · obtain ⟨k, hk, hle, hgap⟩ := h.stands y hy
      refine ⟨k, ?_, hle, fun j hj hlt => ?_⟩
      · rw [hkeep (by rw [hk]; exact Option.some_ne_none y), hk]
      · rw [hkeep (hgap j hj hlt)]
        exact hgap j hj hlt

/-! ## Counting -/

/-- **Keys that are parked fit**: those with a home from `m` on stand from `m` on. -/
theorem Parked.fits (h : Parked home slots S) : Fits home n S := by
  intro m
  have hstands : ∀ x, ∃ k : ℕ, x ∈ S → home x ≤ k ∧ ∃ hk : k < n, slots ⟨k, hk⟩ = some x := by
    intro x
    by_cases hx : x ∈ S
    · obtain ⟨i, hi, hle, -⟩ := h.stands x hx
      exact ⟨i, fun _ => ⟨hle, i.isLt, hi⟩⟩
    · exact ⟨0, fun hmem => absurd hmem hx⟩
  choose slot hslot using hstands
  have hle := Finset.card_le_card_of_injOn (s := S.filter fun x => m ≤ home x)
    (t := Finset.Ico m n) slot (fun x hx => ?_) fun x hx y hy heq => ?_
  · rwa [Nat.card_Ico] at hle
  · obtain ⟨hx, hm⟩ := Finset.mem_filter.mp hx
    obtain ⟨hhome, hlt, -⟩ := hslot x hx
    exact Finset.mem_Ico.mpr ⟨hm.trans hhome, hlt⟩
  · obtain ⟨-, _, hx⟩ := hslot x (Finset.mem_filter.mp hx).1
    obtain ⟨-, _, hy⟩ := hslot y (Finset.mem_filter.mp hy).1
    simp only [heq] at hx
    exact Option.some.inj (hx.symm.trans hy)

/-- **A key that fits beside those parked finds a free slot.**  Else take the longest full end
of the row that its home is in: all keys there have their homes there, and it is one too many. -/
theorem Parked.exists_free [DecidableEq α] (h : Parked home slots S) (hx : x ∉ S)
    (hfits : Fits home n (insert x S)) : ∃ i : Fin n, home x ≤ i ∧ slots i = none := by
  by_contra hfull
  have hfull' : ∃ m : ℕ, ∀ j : Fin n, m ≤ j → slots j ≠ none :=
    ⟨home x, fun j hj hnone => hfull ⟨j, hj, hnone⟩⟩
  classical
  set m := Nat.find hfull' with hm
  have hend : ∀ j : Fin n, m ≤ j → slots j ≠ none := Nat.find_spec hfull'
  have hmx : m ≤ home x := Nat.find_min' hfull' fun j hj hnone => hfull ⟨j, hj, hnone⟩
  have hlt := hfits.home_lt (Finset.mem_insert_self x S)
  -- A key of the full end with its home before it would fill the slot before it, too.
  have hhome : ∀ {j : Fin n} {y}, m ≤ j → slots j = some y → m ≤ home y := by
    intro j y hj hy
    obtain ⟨k, hk, -, hgap⟩ := h.stands y (h.mem hy)
    obtain rfl := h.unique hy hk
    by_contra hbefore
    refine Nat.find_min hfull' (m := m - 1) (by omega) fun k hmk => ?_
    by_cases hkm : m ≤ k
    · exact hend k hkm
    · exact hgap k (by omega) (Fin.lt_def.mpr (by omega))
  have hsome : ∀ j : ℕ, ∃ y, ∀ hj : j < n, m ≤ j → slots ⟨j, hj⟩ = some y := by
    intro j
    by_cases hj : j < n ∧ m ≤ j
    · obtain ⟨y, hy⟩ := Option.ne_none_iff_exists'.mp (hend ⟨j, hj.1⟩ hj.2)
      exact ⟨y, fun _ _ => hy⟩
    · exact ⟨x, fun hlt hle => absurd ⟨hlt, hle⟩ hj⟩
  choose key hkey using hsome
  have hcard := Finset.card_le_card_of_injOn (s := Finset.Ico m n)
    (t := S.filter fun y => m ≤ home y) key (fun j hj => ?_) fun j hj k hk heq => ?_
  · have hmore := hfits m
    rw [Finset.filter_insert, if_pos hmx,
      Finset.card_insert_of_notMem (fun hmem => hx (Finset.mem_filter.mp hmem).1)] at hmore
    rw [Nat.card_Ico] at hcard
    omega
  · obtain ⟨hmj, hjn⟩ := Finset.mem_Ico.mp hj
    exact Finset.mem_filter.mpr ⟨h.mem (hkey j hjn hmj), hhome hmj (hkey j hjn hmj)⟩
  · obtain ⟨hmj, hjn⟩ := Finset.mem_Ico.mp hj
    obtain ⟨hmk, hkn⟩ := Finset.mem_Ico.mp hk
    have hj := hkey j hjn hmj
    rw [heq] at hj
    exact congrArg Fin.val (h.unique hj (hkey k hkn hmk))

end MatchingEngine.Parking
