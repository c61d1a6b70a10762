import Mathlib
import MatchingEngine.Lib.Registry
import MatchingEngine.TradeEngine

/-!
# The table of the instruments as a registry

`getOrInsertInstrument` should hand out indices in the order in which the instruments
first come, as a `Registry` does.  It looks an instrument up in its home slot only: one that
a collision has displaced is not found there, and gets a new index.  The table is a map
just as long as no call meets that, and `CallsFind` says so of the state before each call.

## Main definitions

* `Holds t l` — the table holds indices of the registry `l`.
* `Finds`, `CallsFind` — a known instrument is in its home slot, a new one finds a free one.
* `IsMap` — one index for each instrument, and no gap.
* `Desk` — the reference of a trade engine: one engine for each instrument.
* `getOrInsertInstrument_isMap_iff` — when the table is a map.
-/

namespace MatchingEngine

namespace InstrumentTable

/-! ## The probe loop -/

theorem pair?_of_lt (t : InstrumentTable) {index : ℕ} (h : index < mod) :
    t.pair? index = some (t.contractPairs ⟨index, h⟩) := dif_pos h

theorem probeStep_eq_some {t : InstrumentTable} {instrument : UInt64} {index next : ℕ}
    (h : t.probeStep instrument index = some next) :
    ∃ hlt : index < mod, (t.contractPairs ⟨index, hlt⟩).1 ≠ 0 ∧
      (t.contractPairs ⟨index, hlt⟩).1 ≠ instrument ∧ next = index + 1 := by
  unfold probeStep at h
  split at h
  · next p hp =>
    simp only [Option.ite_none_right_eq_some, Option.some.injEq] at h
    obtain ⟨⟨hfree, hne⟩, hnext⟩ := h
    unfold pair? at hp
    split at hp
    · next hlt =>
      obtain rfl := Option.some.inj hp
      exact ⟨hlt, hfree, hne, by rw [← hnext, if_pos hlt]⟩
    · cases hp
  · cases h

theorem probeStep_eq_none {t : InstrumentTable} {instrument : UInt64} {index : ℕ}
    (h : t.probeStep instrument index = none) (hlt : index < mod) :
    (t.contractPairs ⟨index, hlt⟩).1 = 0 ∨ (t.contractPairs ⟨index, hlt⟩).1 = instrument := by
  by_contra hne
  rw [not_or] at hne
  simp [probeStep, pair?_of_lt t hlt, hne.1, hne.2] at h

theorem probeStep_decreases (t : InstrumentTable) (instrument : UInt64) :
    Loop.Decreases (fun _ => True) (t.probeStep instrument) fun index => mod - index := by
  intro index next _ h
  obtain ⟨hlt, -, -, rfl⟩ := probeStep_eq_some h
  refine ⟨trivial, ?_⟩
  simp only
  omega

theorem le_probe (t : InstrumentTable) (instrument : UInt64) (start : ℕ) :
    start ≤ t.probe instrument start := by
  refine Loop.exec_invariant (fun index => start ≤ index) (fun index next hle h => ?_) le_rfl
  obtain ⟨-, -, -, rfl⟩ := probeStep_eq_some h
  omega

/-- **Where the probe loop ends**: it passes slots of other instruments only, and inside the
array it ends at a free slot or at one of the instrument. -/
theorem probe_spec (t : InstrumentTable) (instrument : UInt64) (start : ℕ) :
    (∀ i : Fin mod, start ≤ i → (i : ℕ) < t.probe instrument start →
      (t.contractPairs i).1 ≠ 0 ∧ (t.contractPairs i).1 ≠ instrument) ∧
    ∀ h : t.probe instrument start < mod, (t.contractPairs ⟨_, h⟩).1 = 0 ∨
      (t.contractPairs ⟨_, h⟩).1 = instrument := by
  refine Loop.exec_induction (probeStep_decreases t instrument)
    (fun start last => (∀ i : Fin mod, start ≤ i → (i : ℕ) < last →
      (t.contractPairs i).1 ≠ 0 ∧ (t.contractPairs i).1 ≠ instrument) ∧
      ∀ h : last < mod, (t.contractPairs ⟨last, h⟩).1 = 0 ∨
        (t.contractPairs ⟨last, h⟩).1 = instrument) ?_ ?_ trivial
  · intro index _ hnone
    exact ⟨fun i hle hlt => by omega, probeStep_eq_none hnone⟩
  · rintro index next _ hsome ⟨hpassed, hend⟩
    obtain ⟨hlt, hfree, hne, rfl⟩ := probeStep_eq_some hsome
    refine ⟨fun i hle hi => ?_, hend⟩
    rcases Nat.eq_or_lt_of_le hle with heq | hle
    · obtain rfl : i = ⟨index, hlt⟩ := Fin.ext heq.symm
      exact ⟨hfree, hne⟩
    · exact hpassed i hle hi

/-! ## One call -/

theorem home_lt (instrument : UInt64) : home instrument < mod := Nat.mod_lt _ (by decide)

/-- The home slot of an instrument. -/
def homeSlot (instrument : UInt64) : Fin mod := ⟨home instrument, home_lt instrument⟩

/-- The table after a new index is written at a slot. -/
def register (t : InstrumentTable) (instrument : UInt64) (i : Fin mod) : InstrumentTable where
  lastContract := t.lastContract + 1
  contractPairs := Function.update t.contractPairs i (instrument, t.lastContract)

theorem getOrInsertInstrument_of_home {t : InstrumentTable} {instrument : UInt64}
    (h : (t.contractPairs (homeSlot instrument)).1 = instrument) :
    t.getOrInsertInstrument instrument = some ((t.contractPairs (homeSlot instrument)).2, t) := by
  rw [getOrInsertInstrument, pair?_of_lt t (home_lt instrument), Option.bind_some]
  exact if_pos h

theorem getOrInsertInstrument_of_lt {t : InstrumentTable} {instrument : UInt64}
    (hne : (t.contractPairs (homeSlot instrument)).1 ≠ instrument)
    (h : t.probe instrument (home instrument) < mod) :
    t.getOrInsertInstrument instrument = some (t.lastContract, t.register instrument ⟨_, h⟩) := by
  rw [getOrInsertInstrument, pair?_of_lt t (home_lt instrument), Option.bind_some, setPair,
    dif_pos h]
  exact if_neg hne

theorem getOrInsertInstrument_of_ge {t : InstrumentTable} {instrument : UInt64}
    (hne : (t.contractPairs (homeSlot instrument)).1 ≠ instrument)
    (h : ¬ t.probe instrument (home instrument) < mod) :
    t.getOrInsertInstrument instrument = none := by
  rw [getOrInsertInstrument, pair?_of_lt t (home_lt instrument), Option.bind_some, setPair,
    dif_neg h]
  exact if_neg hne

/-! ## The table against the registry -/

/-- The slots hold instruments of the registry `l` with their indices. -/
structure Holds (t : InstrumentTable) (l : List UInt64) : Prop where
  nodup : l.Nodup
  lastContract : t.lastContract = l.length
  slot : ∀ i, (t.contractPairs i).1 ≠ 0 → l[(t.contractPairs i).2]? = some (t.contractPairs i).1

theorem holds_new : Holds new [] := ⟨List.nodup_nil, rfl, fun _ h => absurd rfl h⟩

/-- What a call needs of the table: an instrument seen before is in its home slot, and a new one
finds a free slot at or after it. -/
def Finds (t : InstrumentTable) (seen : List UInt64) (instrument : UInt64) : Prop :=
  if instrument ∈ seen then (t.contractPairs (homeSlot instrument)).1 = instrument
  else ∃ i : Fin mod, home instrument ≤ i ∧ (t.contractPairs i).1 = 0

/-- Every call finds what it needs in the state before it. -/
def CallsFind (t : InstrumentTable) (seen : List UInt64) : List UInt64 → Prop
  | [] => True
  | instrument :: instruments =>
    Finds t seen instrument ∧ ∀ r, t.getOrInsertInstrument instrument = some r →
      CallsFind r.2 (instrument :: seen) instruments

section Holds
variable {t : InstrumentTable} {l : List UInt64} {instrument : UInt64} (h : Holds t l)
include h

/-- The instrument of a slot has come before. -/
theorem Holds.mem {i : Fin mod} (hne : instrument ≠ 0)
    (hi : (t.contractPairs i).1 = instrument) : instrument ∈ l := by
  subst hi
  exact List.mem_of_getElem? (h.slot i hne)

theorem Holds.idxOf {i : Fin mod} (hi : (t.contractPairs i).1 ≠ 0) :
    l.idxOf (t.contractPairs i).1 = (t.contractPairs i).2 := by
  obtain ⟨hlt, heq⟩ := List.getElem?_eq_some_iff.mp (h.slot i hi)
  rw [← heq]
  exact h.nodup.idxOf_getElem _ hlt

theorem Holds.register (hne : instrument ∉ l) (i : Fin mod) :
    Holds (t.register instrument i) (l ++ [instrument]) := by
  refine ⟨?_, ?_, fun j => ?_⟩
  · rw [← List.concat_eq_append]
    exact h.nodup.concat hne
  · simp [InstrumentTable.register, h.lastContract]
  · by_cases hj : j = i
    · subst hj
      simp [InstrumentTable.register, h.lastContract]
    · simp only [InstrumentTable.register, Function.update_of_ne hj]
      intro hfree
      have hslot := h.slot j hfree
      rw [List.getElem?_append_left (List.getElem?_eq_some_iff.mp hslot).1, hslot]

/-- A new instrument is in no slot, so the probe loop ends at the first free one. -/
theorem Holds.probe_lt_iff (hne : instrument ≠ 0) (hnew : instrument ∉ l) :
    t.probe instrument (home instrument) < mod ↔
      ∃ i : Fin mod, home instrument ≤ i ∧ (t.contractPairs i).1 = 0 := by
  obtain ⟨hpassed, hend⟩ := t.probe_spec instrument (home instrument)
  have hslot : ∀ i, (t.contractPairs i).1 ≠ instrument := fun i hi => hnew (h.mem hne hi)
  constructor
  · intro hlt
    exact ⟨⟨_, hlt⟩, le_probe t instrument _, (hend hlt).resolve_right (hslot _)⟩
  · rintro ⟨i, hle, hfree⟩
    by_contra hge
    exact (hpassed i hle (by omega)).1 hfree

end Holds

section call
variable {t : InstrumentTable} {l seen : List UInt64} {instrument : UInt64} (h : Holds t l)
  (hseen : ∀ y, y ∈ seen ↔ y ∈ l) (hne : instrument ≠ 0)
include h hseen hne

/-- A call that finds what it needs is a call of the registry. -/
theorem Holds.call_of_finds (hfinds : Finds t seen instrument) :
    ∃ t', t.getOrInsertInstrument instrument =
        some ((Registry.enter l instrument).idxOf instrument, t') ∧
      Holds t' (Registry.enter l instrument) := by
  unfold Finds at hfinds
  by_cases hx : instrument ∈ l
  · rw [if_pos ((hseen _).mpr hx)] at hfinds
    have hidx := h.idxOf (i := homeSlot instrument) (by rw [hfinds]; exact hne)
    rw [hfinds] at hidx
    rw [Registry.enter_of_mem hx, hidx]
    exact ⟨t, getOrInsertInstrument_of_home hfinds, h⟩
  · rw [if_neg (mt (hseen _).mp hx), ← h.probe_lt_iff hne hx] at hfinds
    have hhome : (t.contractPairs (homeSlot instrument)).1 ≠ instrument := fun heq =>
      hx (h.mem hne heq)
    rw [Registry.idxOf_enter_self hx, Registry.enter_of_notMem hx, ← h.lastContract]
    exact ⟨_, getOrInsertInstrument_of_lt hhome hfinds, h.register hx _⟩

/-- A call that returns, and a known instrument its index, has found what it needs. -/
theorem Holds.finds_of_call {r : ℕ × InstrumentTable}
    (hcall : t.getOrInsertInstrument instrument = some r)
    (hknown : instrument ∈ l → r.1 = l.idxOf instrument) : Finds t seen instrument := by
  unfold Finds
  by_cases hhome : (t.contractPairs (homeSlot instrument)).1 = instrument
  · rw [if_pos ((hseen _).mpr (h.mem hne hhome))]
    exact hhome
  by_cases hlt : t.probe instrument (home instrument) < mod
  · rw [getOrInsertInstrument_of_lt hhome hlt] at hcall
    obtain rfl := Option.some.inj hcall
    have hx : instrument ∉ l := by
      intro hx
      -- The index is a new one, and the instrument has another.
      have hidx : t.lastContract = l.idxOf instrument := hknown hx
      have hlt := List.idxOf_lt_length_iff.mpr hx
      rw [h.lastContract] at hidx
      omega
    rw [if_neg (mt (hseen _).mp hx)]
    exact (h.probe_lt_iff hne hx).mp hlt
  · rw [getOrInsertInstrument_of_ge hhome hlt] at hcall
    cases hcall

end call

/-! ## Lists of calls -/

theorem mem_cons_iff_mem_enter {l seen : List UInt64} (hseen : ∀ y, y ∈ seen ↔ y ∈ l)
    (instrument : UInt64) (y : UInt64) :
    y ∈ instrument :: seen ↔ y ∈ Registry.enter l instrument := by
  rw [List.mem_cons, Registry.mem_enter, hseen, or_comm]

/-- Calls that find what they need get the indices of the registry. -/
theorem getOrInsertAll_of_callsFind {instruments : List UInt64} {t : InstrumentTable}
    {l seen : List UInt64} (h : Holds t l) (hseen : ∀ y, y ∈ seen ↔ y ∈ l)
    (hne : ∀ x ∈ instruments, x ≠ 0) (hfind : CallsFind t seen instruments) :
    ∃ t', t.getOrInsertAll instruments =
        some (instruments.map fun x => (x, (Registry.enterAll l instruments).idxOf x), t') ∧
      Holds t' (Registry.enterAll l instruments) := by
  induction instruments generalizing t l seen with
  | nil => exact ⟨t, rfl, h⟩
  | cons x xs ih =>
    obtain ⟨t₁, hcall, h₁⟩ := h.call_of_finds hseen (hne x List.mem_cons_self) hfind.1
    obtain ⟨t', hall, h'⟩ := ih h₁ (mem_cons_iff_mem_enter hseen x)
      (fun y hy => hne y (List.mem_cons_of_mem _ hy)) (hfind.2 _ hcall)
    refine ⟨t', ?_, h'⟩
    have hx : x ∈ Registry.enter l x := Registry.mem_enter.mpr (.inr rfl)
    rw [getOrInsertAll, hcall, Option.bind_some, hall, List.map_cons, Registry.enterAll_cons,
      Registry.idxOf_enterAll hx]
    rfl

/-- Calls that all return, and one index for each instrument, have found what they need. -/
theorem callsFind_of_getOrInsertAll {instruments : List UInt64} {t t' : InstrumentTable}
    {l seen : List UInt64} {rs : List (UInt64 × ℕ)} (h : Holds t l)
    (hseen : ∀ y, y ∈ seen ↔ y ∈ l) (hne : ∀ x ∈ instruments, x ≠ 0)
    (hall : t.getOrInsertAll instruments = some (rs, t'))
    (hsame : ∀ p ∈ rs, ∀ q ∈ rs, p.1 = q.1 → p.2 = q.2)
    (hknown : ∀ p ∈ rs, p.1 ∈ l → p.2 = l.idxOf p.1) : CallsFind t seen instruments := by
  induction instruments generalizing t l seen rs with
  | nil => trivial
  | cons x xs ih =>
    simp only [getOrInsertAll, Option.bind_eq_some_iff, Option.map_eq_some_iff] at hall
    obtain ⟨r, hcall, ⟨rs', t₂⟩, hall, hrs⟩ := hall
    obtain ⟨rfl, rfl⟩ := Prod.mk.inj hrs
    have hx := hne x List.mem_cons_self
    have hfinds := h.finds_of_call hseen hx hcall (hknown _ List.mem_cons_self)
    obtain ⟨t₁, hcall', h₁⟩ := h.call_of_finds hseen hx hfinds
    obtain rfl := Option.some.inj (hcall.symm.trans hcall')
    refine ⟨hfinds, fun r hr => ?_⟩
    obtain rfl := Option.some.inj (hcall.symm.trans hr)
    refine ih h₁ (mem_cons_iff_mem_enter hseen x) (fun y hy => hne y (List.mem_cons_of_mem _ hy))
      hall (fun p hp q hq => hsame p (List.mem_cons_of_mem _ hp) q (List.mem_cons_of_mem _ hq))
      fun p hp hmem => ?_
    rcases Registry.mem_enter.mp hmem with hl | heq
    · rw [Registry.idxOf_enter hl]
      exact hknown p (List.mem_cons_of_mem _ hp) hl
    · rw [heq]
      exact hsame p (List.mem_cons_of_mem _ hp) _ List.mem_cons_self heq

/-- The calls `rs`, with the indices they returned, are those of a map from instruments to
indices that leaves no index out, and `t` counts the instruments. -/
structure IsMap (instruments : List UInt64) (rs : List (UInt64 × ℕ)) (t : InstrumentTable) :
    Prop where
  calls : rs.map Prod.fst = instruments
  same_iff : ∀ p ∈ rs, ∀ q ∈ rs, p.2 = q.2 ↔ p.1 = q.1
  indices : ∀ n, n ∈ rs.map Prod.snd ↔ n < instruments.toFinset.card
  lastContract : t.lastContract = instruments.toFinset.card

theorem isMap_of_holds {instruments : List UInt64} {t : InstrumentTable}
    (h : Holds t (Registry.enterAll [] instruments)) :
    IsMap instruments
      (instruments.map fun x => (x, (Registry.enterAll [] instruments).idxOf x)) t := by
  have hmem : ∀ x, x ∈ Registry.enterAll [] instruments ↔ x ∈ instruments := by simp
  refine ⟨?_, ?_, fun n => ?_, ?_⟩
  · rw [List.map_map]
    exact List.map_id _
  · intro p hp q hq
    obtain ⟨x, hx, rfl⟩ := List.mem_map.mp hp
    obtain ⟨y, -, rfl⟩ := List.mem_map.mp hq
    exact List.idxOf_inj ((hmem x).mpr hx)
  · rw [← Registry.length_enterAll, List.map_map, List.mem_map]
    constructor
    · rintro ⟨x, hx, rfl⟩
      exact List.idxOf_lt_length_iff.mpr ((hmem x).mpr hx)
    · intro hn
      exact ⟨_, (hmem _).mp (List.getElem_mem hn), h.nodup.idxOf_getElem n hn⟩
  · rw [h.lastContract, Registry.length_enterAll]

end InstrumentTable

/-! ## The reference of a trade engine -/

/-- One engine for each instrument, found by the instrument itself. -/
structure Desk where
  session : ℤ × ℤ
  timestampOffset : ℤ
  engine : UInt64 → Option (ContractEngine OrderHeap)

namespace Desk

def new (session : ℤ × ℤ) : Desk := ⟨session, -1, fun _ => none⟩

def apply (d : Desk) : Call → Desk
  | .initContract instrument prevClosePrice prevPosition =>
    { d with
      engine := Function.update d.engine instrument
        (some (.new d.session.1 d.session.2 ⟨prevClosePrice, prevPosition⟩ instrument)) }
  | .insertAlpha instrument timestamp targetVolume =>
    let offset := alphaOffset d.timestampOffset timestamp
    { d with
      timestampOffset := offset
      engine := Function.update d.engine instrument ((d.engine instrument).map fun e =>
        e.insertAlpha (compactAlpha offset timestamp targetVolume)) }
  | .insertOrderLog instrument timestamp type direction volume priceOff =>
    { d with
      engine := Function.update d.engine instrument ((d.engine instrument).map fun e =>
        e.insertOrderLog
          (compactOrderLog d.timestampOffset timestamp type direction volume priceOff)) }

def run (d : Desk) (calls : List Call) : Desk := calls.foldl apply d

end Desk

/-- Every alpha and every order log comes after an `initContract` of its instrument. -/
def Initialised (started : List UInt64) : List Call → Prop
  | [] => True
  | .initContract instrument _ _ :: calls => Initialised (instrument :: started) calls
  | .insertAlpha instrument _ _ :: calls => instrument ∈ started ∧ Initialised started calls
  | .insertOrderLog instrument _ _ _ _ _ :: calls =>
    instrument ∈ started ∧ Initialised started calls

theorem Initialised.cases {started : List UInt64} {call : Call} {calls : List Call}
    (h : Initialised started (call :: calls)) :
    (∃ prevClosePrice prevPosition,
        call = .initContract call.instrument prevClosePrice prevPosition) ∧
      Initialised (call.instrument :: started) calls ∨
    call.instrument ∈ started ∧ Initialised started calls := by
  cases call with
  | initContract => exact .inl ⟨⟨_, _, rfl⟩, h⟩
  | insertAlpha => exact .inr h
  | insertOrderLog => exact .inr h

/-- The instruments that were initialised have an engine. -/
theorem Desk.engine_apply {d : Desk} {call : Call} {x : UInt64}
    (hx : (∃ e, d.engine x = some e) ∨
      ∃ prevClosePrice prevPosition, call = .initContract x prevClosePrice prevPosition) :
    ∃ e, (d.apply call).engine x = some e := by
  have hupdate : ∀ {y : UInt64} {e' : Option (ContractEngine OrderHeap)},
      (y = x → ∃ e, e' = some e) → (y ≠ x → ∃ e, d.engine x = some e) →
      ∃ e, Function.update d.engine y e' x = some e := by
    intro y e' hself hother
    by_cases hyx : y = x
    · subst hyx
      rw [Function.update_self]
      exact hself rfl
    · rw [Function.update_of_ne (Ne.symm hyx)]
      exact hother hyx
  have hold : (∃ e, d.engine x = some e) → ∀ f : ContractEngine OrderHeap → ContractEngine OrderHeap,
      ∃ e, (d.engine x).map f = some e := by
    rintro ⟨e, he⟩ f
    exact ⟨f e, by rw [he, Option.map_some]⟩
  cases call with
  | initContract instrument prevClosePrice prevPosition =>
    refine hupdate (fun _ => ⟨_, rfl⟩) fun hne => hx.resolve_right ?_
    rintro ⟨_, _, heq⟩
    exact hne (Call.initContract.inj heq).1
  | insertAlpha instrument timestamp targetVolume =>
    have he := hx.resolve_right (by rintro ⟨_, _, heq⟩; cases heq)
    refine hupdate (fun heq => ?_) fun _ => he
    rw [heq]
    exact hold he _
  | insertOrderLog instrument timestamp type direction volume priceOff =>
    have he := hx.resolve_right (by rintro ⟨_, _, heq⟩; cases heq)
    refine hupdate (fun heq => ?_) fun _ => he
    rw [heq]
    exact hold he _

namespace TradeEngine
open InstrumentTable

/-- The engine at the index of an instrument is the one the reference has for it. -/
structure Serves (t : TradeEngine) (l : List UInt64) (d : Desk) : Prop where
  holds : Holds t.toInstrumentTable l
  session : t.session = d.session
  timestampOffset : t.timestampOffset = d.timestampOffset
  engine : ∀ x ∈ l, t.engine? (l.idxOf x) = d.engine x

theorem engine?_of_lt (t : TradeEngine) {index : ℕ} (h : index < maxContractNum) :
    t.engine? index = t.contractEngines ⟨index, h⟩ := dif_pos h

section Serves
variable {t : TradeEngine} {l seen : List UInt64} {d : Desk} {instrument : UInt64}
  (h : Serves t l d) (hseen : ∀ y, y ∈ seen ↔ y ∈ l) (hne : instrument ≠ 0)
  (hfinds : Finds t.toInstrumentTable seen instrument)
  (hlen : (Registry.enter l instrument).length ≤ maxContractNum)
include h hseen hne hfinds hlen

/-- A call that finds its instrument acts on the engine that the reference has for it. -/
theorem Serves.serve {f : Option (ContractEngine OrderHeap) → Option (ContractEngine OrderHeap)}
    {e : ContractEngine OrderHeap} (hf : ∀ e', (instrument ∈ l → e' = d.engine instrument) →
      f e' = some e) :
    ∃ t', t.serve instrument f = some t' ∧
      t.getOrInsertInstrument instrument =
        some ((Registry.enter l instrument).idxOf instrument, t'.toInstrumentTable) ∧
      Serves t' (Registry.enter l instrument)
        { d with engine := Function.update d.engine instrument (some e) } := by
  obtain ⟨table, hcall, hholds⟩ := h.holds.call_of_finds hseen hne hfinds
  have hmem : instrument ∈ Registry.enter l instrument := Registry.mem_enter.mpr (.inr rfl)
  have hlt : (Registry.enter l instrument).idxOf instrument < maxContractNum :=
    (List.idxOf_lt_length_iff.mpr hmem).trans_le hlen
  have he : f (t.contractEngines ⟨_, hlt⟩) = some e := by
    refine hf _ fun hl => ?_
    rw [← engine?_of_lt, Registry.idxOf_enter hl]
    exact h.engine instrument hl
  refine ⟨{ t with
    toInstrumentTable := table
    contractEngines := Function.update t.contractEngines ⟨_, hlt⟩ (some e) }, ?_, hcall, hholds,
    h.session, h.timestampOffset, fun y hy => ?_⟩
  · rw [TradeEngine.serve, hcall, Option.bind_some, dif_pos hlt, he]
    rfl
  · by_cases hyx : y = instrument
    · subst hyx
      rw [engine?_of_lt _ hlt]
      simp
    · have hyl : y ∈ l := (Registry.mem_enter.mp hy).resolve_right hyx
      have hylt := (List.idxOf_lt_length_iff.mpr hy).trans_le hlen
      have hidx : (⟨_, hylt⟩ : Fin maxContractNum) ≠ ⟨_, hlt⟩ := fun heq =>
        hyx ((List.idxOf_inj hy).mp (Fin.mk.inj heq))
      have hold := h.engine y hyl
      rw [← Registry.idxOf_enter hyl instrument, engine?_of_lt _ hylt] at hold
      rw [engine?_of_lt _ hylt]
      simp only [Function.update_of_ne hidx, Function.update_of_ne hyx, hold]

end Serves

/-- A call on an instrument that has been initialised, or its `initContract`. -/
theorem Serves.apply {t : TradeEngine} {l seen : List UInt64} {d : Desk} {call : Call}
    (h : Serves t l d) (hseen : ∀ y, y ∈ seen ↔ y ∈ l) (hne : call.instrument ≠ 0)
    (hfinds : Finds t.toInstrumentTable seen call.instrument)
    (hlen : (Registry.enter l call.instrument).length ≤ maxContractNum)
    (hinit : (∃ prevClosePrice prevPosition,
        call = .initContract call.instrument prevClosePrice prevPosition) ∨
      call.instrument ∈ l ∧ ∃ e, d.engine call.instrument = some e) :
    ∃ t', t.apply call = some t' ∧
      t.getOrInsertInstrument call.instrument =
        some ((Registry.enter l call.instrument).idxOf call.instrument, t'.toInstrumentTable) ∧
      Serves t' (Registry.enter l call.instrument) (d.apply call) := by
  cases call with
  | initContract instrument prevClosePrice prevPosition =>
    simp only [Call.instrument] at hne hfinds hlen ⊢
    refine h.serve hseen hne hfinds hlen
      (f := fun _ => some (.new t.session.1 t.session.2 ⟨prevClosePrice, prevPosition⟩ instrument))
      (e := .new d.session.1 d.session.2 ⟨prevClosePrice, prevPosition⟩ instrument) fun _ _ => ?_
    rw [h.session]
  | insertAlpha instrument timestamp targetVolume =>
    obtain ⟨hl, e, he⟩ := hinit.resolve_left (by rintro ⟨_, _, heq⟩; cases heq)
    simp only [Call.instrument] at hne hfinds hlen hl he ⊢
    have h' : Serves { t with timestampOffset := alphaOffset t.timestampOffset timestamp } l
        { d with timestampOffset := alphaOffset d.timestampOffset timestamp } :=
      ⟨h.holds, h.session, congrArg (alphaOffset · timestamp) h.timestampOffset, h.engine⟩
    simp only [Desk.apply, he, Option.map_some]
    refine h'.serve hseen hne hfinds hlen fun e' he' => ?_
    rw [he' hl, h.timestampOffset]
    simp only [he, Option.map_some]
  | insertOrderLog instrument timestamp type direction volume priceOff =>
    obtain ⟨hl, e, he⟩ := hinit.resolve_left (by rintro ⟨_, _, heq⟩; cases heq)
    simp only [Call.instrument] at hne hfinds hlen hl he ⊢
    simp only [Desk.apply, he, Option.map_some]
    refine h.serve hseen hne hfinds hlen fun e' he' => ?_
    rw [he' hl, h.timestampOffset, he, Option.map_some]

/-- **Every call reaches the engine that the reference has for its instrument.** -/
theorem Serves.run {calls : List Call} {t : TradeEngine} {l seen started : List UInt64} {d : Desk}
    (h : Serves t l d) (hseen : ∀ y, y ∈ seen ↔ y ∈ l) (hne : ∀ x ∈ calls.map Call.instrument, x ≠ 0)
    (hfind : CallsFind t.toInstrumentTable seen (calls.map Call.instrument))
    (hlen : (Registry.enterAll l (calls.map Call.instrument)).length ≤ maxContractNum)
    (hstarted : ∀ x ∈ started, x ∈ l ∧ ∃ e, d.engine x = some e)
    (hinit : Initialised started calls) :
    ∃ t', t.run calls = some t' ∧
      Serves t' (Registry.enterAll l (calls.map Call.instrument)) (d.run calls) := by
  induction calls generalizing t l seen started d with
  | nil => exact ⟨t, rfl, h⟩
  | cons call calls ih =>
    have hnone := hne _ List.mem_cons_self
    have hlen' := (Registry.length_le_length_enterAll (Registry.enter l call.instrument) _).trans hlen
    have hready : (∃ prevClosePrice prevPosition,
        call = .initContract call.instrument prevClosePrice prevPosition) ∨
        call.instrument ∈ l ∧ ∃ e, d.engine call.instrument = some e := by
      rcases hinit.cases with hnew | hold
      · exact .inl hnew.1
      · exact .inr (hstarted _ hold.1)
    obtain ⟨t₁, happly, hcall, h₁⟩ := h.apply hseen hnone hfind.1 hlen' hready
    have hkeep : ∀ x ∈ started, x ∈ Registry.enter l call.instrument ∧
        ∃ e, (d.apply call).engine x = some e := fun x hx =>
      ⟨Registry.mem_enter.mpr (.inl (hstarted x hx).1), Desk.engine_apply (.inl (hstarted x hx).2)⟩
    obtain ⟨started', hstarted', hinit'⟩ : ∃ started', (∀ x ∈ started',
        x ∈ Registry.enter l call.instrument ∧ ∃ e, (d.apply call).engine x = some e) ∧
        Initialised started' calls := by
      rcases hinit.cases with ⟨hnew, hrest⟩ | ⟨-, hrest⟩
      · refine ⟨call.instrument :: started, fun x hx => ?_, hrest⟩
        rcases List.mem_cons.mp hx with rfl | hx
        · exact ⟨Registry.mem_enter.mpr (.inr rfl), Desk.engine_apply (.inr hnew)⟩
        · exact hkeep x hx
      · exact ⟨started, hkeep, hrest⟩
    obtain ⟨t', hrun, h'⟩ := ih h₁ (mem_cons_iff_mem_enter hseen _)
      (fun x hx => hne x (List.mem_cons_of_mem _ hx)) (hfind.2 _ hcall) hlen hstarted' hinit'
    exact ⟨t', by rw [TradeEngine.run, happly, Option.bind_some, hrun], h'⟩

theorem serves_new (session : ℤ × ℤ) : Serves (new session) [] (Desk.new session) :=
  ⟨holds_new, rfl, rfl, fun _ hx => absurd hx List.not_mem_nil⟩

end TradeEngine

namespace InstrumentTable

/-- **The table is a map just when every call finds its instrument.**  Then every call of a
trade engine reaches the engine of its instrument. -/
theorem getOrInsertInstrument_isMap_iff {instruments : List UInt64}
    (hne : ∀ x ∈ instruments, x ≠ 0) (hcard : instruments.toFinset.card ≤ maxContractNum) :
    (∃ rs t, new.getOrInsertAll instruments = some (rs, t) ∧ IsMap instruments rs t ∧
      ∀ session calls, calls.map Call.instrument = instruments → Initialised [] calls →
        ∃ t, (TradeEngine.new session).run calls = some t ∧
          ∀ p ∈ rs, t.engine? p.2 = ((Desk.new session).run calls).engine p.1) ↔
      CallsFind new [] instruments := by
  constructor
  · rintro ⟨rs, t, hall, hmap, -⟩
    exact callsFind_of_getOrInsertAll holds_new (fun _ => Iff.rfl) hne hall
      (fun p hp q hq heq => (hmap.same_iff p hp q hq).mpr heq)
      fun p _ hl => absurd hl List.not_mem_nil
  · intro hfind
    obtain ⟨t, hall, hholds⟩ :=
      getOrInsertAll_of_callsFind holds_new (fun _ => Iff.rfl) hne hfind
    refine ⟨_, t, hall, isMap_of_holds hholds, fun session calls hcalls hinit => ?_⟩
    subst hcalls
    rw [← Registry.length_enterAll] at hcard
    obtain ⟨t', hrun, hserves⟩ := (TradeEngine.serves_new session).run (fun _ => Iff.rfl) hne hfind
      hcard (fun _ hx => absurd hx List.not_mem_nil) hinit
    refine ⟨t', hrun, fun p hp => ?_⟩
    obtain ⟨x, hx, rfl⟩ := List.mem_map.mp hp
    exact hserves.engine x (Registry.mem_enterAll.mpr (.inr hx))

/-- The second instrument is displaced by the first, but only the first is called again. -/
theorem isMap_of_displaced :
    ∃ rs t, new.getOrInsertAll [1, 20022, 1] = some (rs, t) ∧ IsMap [1, 20022, 1] rs t := by
  have hne : ∀ x ∈ ([1, 20022, 1] : List UInt64), x ≠ 0 := by simp
  have hfind : CallsFind new [] [1, 20022, 1] := by
    obtain ⟨⟨rs, t⟩, hall⟩ : ∃ r, new.getOrInsertAll [1, 20022, 1] = some r :=
      Option.isSome_iff_exists.mp (by decide +kernel)
    have hrs : (new.getOrInsertAll [1, 20022, 1]).map Prod.fst =
        some [(1, 0), (20022, 1), (1, 0)] := by
      decide +kernel
    rw [hall] at hrs
    obtain rfl : rs = [(1, 0), (20022, 1), (1, 0)] := Option.some.inj hrs
    exact callsFind_of_getOrInsertAll holds_new (fun _ => Iff.rfl) hne hall (by decide +kernel)
      fun p _ hl => absurd hl List.not_mem_nil
  obtain ⟨rs, t, hall, hmap, -⟩ :=
    (getOrInsertInstrument_isMap_iff hne (by decide +kernel)).mpr hfind
  exact ⟨rs, t, hall, hmap⟩

/-- The second instrument has the home slot of the first: called again, it gets a new index. -/
theorem not_isMap_of_collision :
    ¬ ∀ instruments : List UInt64, (∀ x ∈ instruments, x ≠ 0) →
      instruments.toFinset.card ≤ maxContractNum →
      ∃ rs t, new.getOrInsertAll instruments = some (rs, t) ∧ IsMap instruments rs t := by
  intro h
  obtain ⟨rs, t, hall, hmap⟩ := h [1, 20022, 20022] (by simp) (by decide +kernel)
  have hrs : (new.getOrInsertAll [1, 20022, 20022]).map Prod.fst =
      some [(1, 0), (20022, 1), (20022, 2)] := by decide +kernel
  rw [hall] at hrs
  obtain rfl : rs = [(1, 0), (20022, 1), (20022, 2)] := Option.some.inj hrs
  have hsame := (hmap.same_iff (20022, 1) (by decide +kernel) (20022, 2) (by decide +kernel)).mpr rfl
  exact absurd hsame (by decide)

end InstrumentTable
end MatchingEngine
