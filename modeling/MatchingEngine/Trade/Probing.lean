import Mathlib
import MatchingEngine.Lib.Parking
import MatchingEngine.Trade.Instruments

/-!
# Where the probe loop goes

The probe loop of `getOrInsertInstrument` means to go on at slot `0` behind the last slot, but
asks `index < MOD` where the last slot is `MOD - 1`: its index gets to be `MOD`, which is
outside of the array.  Up to that point the instruments are parked in the table, so that
whether the index stays in range depends on the home slots of the instruments alone.

## Main definitions

* `Takes t instrument index` — the index takes this value.
* `InRange`, `CallsInRange` — every index of a call, of all calls, is a slot of the table.
* `occupant` — the instrument in a slot.
* `callsInRange_iff` — when the index stays in range.
-/

namespace MatchingEngine.InstrumentTable

open Parking

/-- The values that the index of the probe loop takes. -/
def Takes (t : InstrumentTable) (instrument : UInt64) : ℕ → Prop :=
  Relation.ReflTransGen (fun index next => t.probeStep instrument index = some next)
    (home instrument)

/-- Every value of the index is a slot of the table, the loop ends, and so is the slot written. -/
structure InRange (t : InstrumentTable) (instrument : UInt64) : Prop where
  takes : ∀ index, t.Takes instrument index → index < mod
  ends : Loop.Ends (t.probeStep instrument) (home instrument)
  written : t.probe instrument (home instrument) < mod

/-- Every call is in range, in the table before it. -/
def CallsInRange (t : InstrumentTable) : List UInt64 → Prop
  | [] => True
  | instrument :: instruments =>
    InRange t instrument ∧
      ∀ r, t.getOrInsertInstrument instrument = some r → CallsInRange r.2 instruments

/-! ## One call -/

/-- The index takes no value behind the one it ends with. -/
theorem Takes.le_probe {t : InstrumentTable} {instrument : UInt64} {index : ℕ}
    (h : t.Takes instrument index) : index ≤ t.probe instrument (home instrument) := by
  have hend : t.probe instrument index = t.probe instrument (home instrument) := by
    induction h with
    | refl => rfl
    | tail _ hstep ih =>
      rw [← ih]
      exact (Loop.exec_of_some (probeStep_decreases t instrument) trivial hstep).symm
  exact hend ▸ InstrumentTable.le_probe t instrument index

theorem inRange_iff (t : InstrumentTable) (instrument : UInt64) :
    t.InRange instrument ↔ t.probe instrument (home instrument) < mod := by
  constructor
  · exact InRange.written
  · intro h
    exact ⟨fun index htakes => htakes.le_probe.trans_lt h,
      Loop.ends_of_decreases (probeStep_decreases t instrument) trivial, h⟩

/-- The instrument in a slot. -/
def occupant (t : InstrumentTable) (i : Fin mod) : Option UInt64 :=
  if (t.contractPairs i).1 = 0 then none else some (t.contractPairs i).1

theorem occupant_eq_none {t : InstrumentTable} {i : Fin mod} :
    t.occupant i = none ↔ (t.contractPairs i).1 = 0 := by simp [occupant]

theorem occupant_eq_some {t : InstrumentTable} {i : Fin mod} {instrument : UInt64}
    (hne : instrument ≠ 0) :
    t.occupant i = some instrument ↔ (t.contractPairs i).1 = instrument := by
  unfold occupant
  split
  · next h => simp [h, hne.symm]
  · simp

theorem occupant_register {instrument : UInt64} (hne : instrument ≠ 0) (t : InstrumentTable)
    (i : Fin mod) :
    (t.register instrument i).occupant = Function.update t.occupant i (some instrument) := by
  funext j
  by_cases hj : j = i
  · subst hj
    rw [Function.update_self, occupant_eq_some hne]
    simp [register]
  · rw [Function.update_of_ne hj]
    simp [occupant, register, Function.update_of_ne hj]

section call
variable {t : InstrumentTable} {S : Finset UInt64} {instrument : UInt64}
  (h : Parked home t.occupant S) (hne : instrument ≠ 0)
include h hne

/-- An instrument that is parked is found where it stands. -/
theorem probe_of_mem (hmem : instrument ∈ S) :
    ∃ hlt : t.probe instrument (home instrument) < mod,
      t.occupant ⟨_, hlt⟩ = some instrument := by
  obtain ⟨i, hi, hle, hgap⟩ := h.stands instrument hmem
  obtain ⟨hpassed, hend⟩ := t.probe_spec instrument (home instrument)
  have hslot := (occupant_eq_some hne).mp hi
  have hpi : t.probe instrument (home instrument) ≤ i := by
    by_contra hgt
    exact (hpassed i hle (by omega)).2 hslot
  have hlt := hpi.trans_lt i.isLt
  refine ⟨hlt, ?_⟩
  rcases Nat.eq_or_lt_of_le hpi with heq | hbefore
  · have hsame : (⟨_, hlt⟩ : Fin mod) = i := Fin.ext heq
    rw [hsame, hi]
  · have hfull := hgap ⟨_, hlt⟩ (le_probe t instrument _) (Fin.lt_def.mpr hbefore)
    exact (occupant_eq_some hne).mpr ((hend hlt).resolve_left (mt occupant_eq_none.mpr hfull))

/-- A new instrument ends at the first free slot, if there is one. -/
theorem probe_of_notMem (hnew : instrument ∉ S)
    (hlt : t.probe instrument (home instrument) < mod) :
    t.occupant ⟨_, hlt⟩ = none ∧ ∀ j : Fin mod, home instrument ≤ j →
      j < ⟨_, hlt⟩ → t.occupant j ≠ none := by
  obtain ⟨hpassed, hend⟩ := t.probe_spec instrument (home instrument)
  refine ⟨occupant_eq_none.mpr ((hend hlt).resolve_right fun hslot => ?_), fun j hle hj => ?_⟩
  · exact hnew (h.mem ((occupant_eq_some hne).mpr hslot))
  · exact mt occupant_eq_none.mp (hpassed j hle hj).1

/-- **A call that stays in range parks its instrument.** -/
theorem parked_call (hlt : t.probe instrument (home instrument) < mod) :
    ∃ r, t.getOrInsertInstrument instrument = some r ∧
      Parked home r.2.occupant (insert instrument S) := by
  by_cases hhome : (t.contractPairs (homeSlot instrument)).1 = instrument
  · have hmem := h.mem ((occupant_eq_some hne).mpr hhome)
    rw [Finset.insert_eq_of_mem hmem]
    exact ⟨_, getOrInsertInstrument_of_home hhome, h⟩
  · refine ⟨_, getOrInsertInstrument_of_lt hhome hlt, ?_⟩
    rw [occupant_register hne]
    by_cases hmem : instrument ∈ S
    · obtain ⟨_, hslot⟩ := probe_of_mem h hne hmem
      rw [← hslot, Function.update_eq_self, Finset.insert_eq_of_mem hmem]
      exact h
    · obtain ⟨hfree, hfirst⟩ := probe_of_notMem h hne hmem hlt
      exact h.park hmem (le_probe t instrument _) hfree hfirst

/-- A call whose instrument fits beside those parked stays in range. -/
theorem inRange_of_fits (hfits : Fits home mod (insert instrument S)) : t.InRange instrument := by
  rw [inRange_iff]
  by_cases hmem : instrument ∈ S
  · exact (probe_of_mem h hne hmem).1
  · obtain ⟨i, hle, hfree⟩ := h.exists_free hmem hfits
    by_contra hge
    have hpassed := (t.probe_spec instrument (home instrument)).1 i hle (by omega)
    exact hpassed.1 (occupant_eq_none.mp hfree)

end call

/-! ## All calls -/

/-- Calls on a table in which `S` is parked. -/
theorem callsInRange_iff_fits {instruments : List UInt64} {t : InstrumentTable} {S : Finset UInt64}
    (h : Parked home t.occupant S) (hne : ∀ x ∈ instruments, x ≠ 0) :
    t.CallsInRange instruments ↔ Fits home mod (S ∪ instruments.toFinset) := by
  induction instruments generalizing t S with
  | nil =>
    rw [List.toFinset_nil, Finset.union_empty]
    exact iff_of_true trivial h.fits
  | cons x xs ih =>
    have hx := hne x List.mem_cons_self
    have hunion : S ∪ (x :: xs).toFinset = insert x S ∪ xs.toFinset := by
      rw [List.toFinset_cons, Finset.union_insert, Finset.insert_union]
    rw [hunion]
    have hnext : t.InRange x → ((∀ r, t.getOrInsertInstrument x = some r → r.2.CallsInRange xs) ↔
        Fits home mod (insert x S ∪ xs.toFinset)) := by
      intro hrange
      obtain ⟨r, hr, hparked⟩ := parked_call h hx ((inRange_iff t x).mp hrange)
      rw [← ih hparked fun y hy => hne y (List.mem_cons_of_mem _ hy), hr]
      simp
    constructor
    · rintro ⟨hrange, hrest⟩
      exact (hnext hrange).mp hrest
    · intro hfits
      have hrange := inRange_of_fits h hx (hfits.mono Finset.subset_union_left)
      exact ⟨hrange, (hnext hrange).mpr hfits⟩

theorem parked_new : Parked home new.occupant ∅ :=
  parked_empty fun _ => occupant_eq_none.mpr rfl

/-- **When the index stays in range**: for every slot `m`, no more of the instruments have their
home slot at or after it than there are slots from it on. -/
theorem callsInRange_iff {instruments : List UInt64} (hne : ∀ x ∈ instruments, x ≠ 0) :
    new.CallsInRange instruments ↔
      ∀ m, (instruments.toFinset.filter fun x => m ≤ home x).card ≤ mod - m := by
  rw [callsInRange_iff_fits parked_new hne, Finset.empty_union]
  exact Iff.rfl

/-- Three instruments with one home slot that is not among the last three. -/
theorem callsInRange_of_three : new.CallsInRange [1, 20022, 40043] := by
  refine (callsInRange_iff (by simp)).mpr fun m => ?_
  have hcard := Finset.card_filter_le [(1 : UInt64), 20022, 40043].toFinset fun x => m ≤ home x
  have hthree : [(1 : UInt64), 20022, 40043].toFinset.card = 3 := by decide +kernel
  by_cases hm : m ≤ 1
  · have hmod : mod = 20021 := rfl
    omega
  · have hnone : ([(1 : UInt64), 20022, 40043].toFinset.filter fun x => m ≤ home x) = ∅ := by
      refine Finset.filter_eq_empty_iff.mpr fun x hx => ?_
      have hhome : home x = 1 := by
        simp only [List.mem_toFinset, List.mem_cons, List.not_mem_nil, or_false] at hx
        rcases hx with rfl | rfl | rfl <;> rfl
      rw [hhome]
      exact hm
    rw [hnone, Finset.card_empty]
    exact Nat.zero_le _

/-- Two instruments with the last slot as their home: at the second call the index is `MOD`. -/
theorem not_callsInRange_of_last : ¬ ∀ instruments : List UInt64, (∀ x ∈ instruments, x ≠ 0) →
    instruments.toFinset.card ≤ maxContractNum → new.CallsInRange instruments := by
  intro h
  obtain ⟨-, hrest⟩ := h [20020, 40041] (by simp) (by decide +kernel)
  obtain ⟨r, hr⟩ : ∃ r, new.getOrInsertInstrument 20020 = some r :=
    Option.isSome_iff_exists.mp (by decide +kernel)
  have hwritten := (hrest r hr).1.written
  have hprobe : (new.getOrInsertInstrument 20020).map
      (fun r => r.2.probe 40041 (home 40041)) = some 20021 := by decide +kernel
  rw [hr, Option.map_some, Option.some.injEq] at hprobe
  rw [hprobe] at hwritten
  exact absurd hwritten (by decide)

end MatchingEngine.InstrumentTable
