import Mathlib
import MatchingEngine.Contract.Shift
import MatchingEngine.Trade.Instruments
import MatchingEngine.Trade.Results

/-!
# Instruments do not influence each other

Two things are shared by the instruments of a trade engine: the table and the offset that the
first alpha of the day sets.  With every instrument in a home slot of its own the table is a
map, so each engine gets the calls of its instrument and no others.  The offset moves all its
timestamps by one amount, which a contract engine does not notice and the report takes back.

## Main definitions

* `Homed` — every known instrument is in its home slot.
* `Day calls` — `initContract` for each instrument, then alphas, then order logs.
* `offset`, `FitsInt` — the offset of a day, and the days whose timestamps fit in an `int`.
* `only x calls` — the calls of one instrument.
* `report_only` — what is reported of an instrument is what a run of its own reports.
-/

namespace MatchingEngine

namespace InstrumentTable

/-! ## Instruments in their home slots -/

/-- The slots in use are the home slots of the instruments seen. -/
structure Homed (t : InstrumentTable) (seen : List UInt64) : Prop where
  home : ∀ x ∈ seen, (t.contractPairs (homeSlot x)).1 = x
  slot : ∀ i, (t.contractPairs i).1 ≠ 0 →
    (t.contractPairs i).1 ∈ seen ∧ homeSlot (t.contractPairs i).1 = i

theorem homed_new : Homed new [] := ⟨fun _ hx => absurd hx List.not_mem_nil, fun _ h => absurd rfl h⟩

theorem Homed.register {t : InstrumentTable} {seen : List UInt64} {instrument : UInt64}
    (h : Homed t seen) (hapart : ∀ x ∈ seen, homeSlot x ≠ homeSlot instrument) :
    Homed (t.register instrument (homeSlot instrument)) (instrument :: seen) := by
  refine ⟨fun x hx => ?_, fun i hi => ?_⟩
  · rcases List.mem_cons.mp hx with rfl | hx
    · simp [InstrumentTable.register]
    · simp only [InstrumentTable.register, Function.update_of_ne (hapart x hx)]
      exact h.home x hx
  · by_cases heq : i = homeSlot instrument
    · subst heq
      simp [InstrumentTable.register]
    · simp only [InstrumentTable.register, Function.update_of_ne heq] at hi ⊢
      exact ⟨List.mem_cons_of_mem _ (h.slot i hi).1, (h.slot i hi).2⟩

/-- A known instrument is found where it is. -/
theorem homed_getOrInsert_of_mem {t : InstrumentTable} {seen : List UInt64} {x : UInt64}
    (h : Homed t seen) (hx : x ∈ seen) :
    Finds t seen x ∧ ∀ r, t.getOrInsertInstrument x = some r → Homed r.2 (x :: seen) := by
  have hhome := h.home x hx
  refine ⟨by rw [Finds, if_pos hx]; exact hhome, fun r hr => ?_⟩
  rw [getOrInsertInstrument_of_home hhome] at hr
  obtain rfl := Option.some.inj hr
  refine ⟨fun y hy => ?_, fun i hi => ⟨List.mem_cons_of_mem _ (h.slot i hi).1, (h.slot i hi).2⟩⟩
  rcases List.mem_cons.mp hy with rfl | hy
  · exact hhome
  · exact h.home y hy

/-- A new instrument whose home slot no other one has gets it. -/
theorem homed_getOrInsert_of_notMem {t : InstrumentTable} {seen : List UInt64} {x : UInt64}
    (h : Homed t seen) (hx : x ∉ seen) (hne : x ≠ 0)
    (hslot : ∀ y ∈ seen, homeSlot y = homeSlot x → y = x) :
    Finds t seen x ∧ ∀ r, t.getOrInsertInstrument x = some r → Homed r.2 (x :: seen) := by
  have hfree : (t.contractPairs (homeSlot x)).1 = 0 := by
    by_contra hi
    obtain ⟨hmem, heq⟩ := h.slot _ hi
    rw [hslot _ hmem heq] at hmem
    exact hx hmem
  have hfree' : (t.contractPairs ⟨home x, home_lt x⟩).1 = 0 := hfree
  have hprobe : t.probe x (home x) = home x :=
    Loop.exec_of_none (by simp [probeStep, pair?_of_lt t (home_lt x), hfree'])
  have hlt : t.probe x (home x) < mod := by
    rw [hprobe]
    exact home_lt x
  have hnew : (t.contractPairs (homeSlot x)).1 ≠ x := by
    rw [hfree]
    exact hne.symm
  refine ⟨by rw [Finds, if_neg hx]; exact ⟨homeSlot x, le_rfl, hfree⟩, fun r hr => ?_⟩
  rw [getOrInsertInstrument_of_lt hnew hlt] at hr
  obtain rfl := Option.some.inj hr
  have hregister := h.register fun y hy heq => hx (hslot y hy heq ▸ hy)
  simp only [hprobe]
  exact hregister

/-- **Instruments with home slots of their own find them.** -/
theorem callsFind_of_apart {instruments : List UInt64} {t : InstrumentTable} {seen : List UInt64}
    (h : Homed t seen) (hne : ∀ x ∈ instruments, x ≠ 0)
    (hapart : ∀ x ∈ seen ++ instruments, ∀ y ∈ seen ++ instruments,
      home x = home y → x = y) : CallsFind t seen instruments := by
  induction instruments generalizing t seen with
  | nil => trivial
  | cons x xs ih =>
    have hrest : ∀ y ∈ x :: seen ++ xs, y ∈ seen ++ x :: xs := fun y hy => by
      simp only [List.cons_append, List.mem_cons, List.mem_append] at hy ⊢
      tauto
    obtain ⟨hfinds, hnext⟩ : Finds t seen x ∧
        ∀ r, t.getOrInsertInstrument x = some r → Homed r.2 (x :: seen) := by
      by_cases hx : x ∈ seen
      · exact homed_getOrInsert_of_mem h hx
      · exact homed_getOrInsert_of_notMem h hx (hne x List.mem_cons_self) fun y hy heq =>
          hapart y (by simp [hy]) x (by simp) (Fin.mk.inj heq)
    exact ⟨hfinds, fun r hr => ih (hnext r hr) (fun y hy => hne y (List.mem_cons_of_mem _ hy))
      fun y hy z hz => hapart y (hrest y hy) z (hrest z hz)⟩

end InstrumentTable

/-! ## Days -/

/-- The order in which the calls of a day come. -/
def Call.phase : Call → ℕ
  | .initContract .. => 0
  | .insertAlpha .. => 1
  | .insertOrderLog .. => 2

/-- The raw timestamp of a call. -/
def Call.timestamp? : Call → Option ℤ
  | .initContract .. => none
  | .insertAlpha _ timestamp _ => some timestamp
  | .insertOrderLog _ timestamp _ _ _ _ => some timestamp

/-- The position that an `initContract` starts from. -/
def Call.prevPosition? : Call → Option ℤ
  | .initContract _ _ prevPosition => some prevPosition
  | _ => none

/-- `initContract` once for each of the instruments, which have home slots of their own, then
alphas for them, then order logs. -/
structure Day (calls : List Call) : Prop where
  phases : calls.Pairwise fun a b => a.phase ≤ b.phase
  once : calls.Pairwise fun a b => a.phase = 0 → b.phase = 0 → a.instrument ≠ b.instrument
  initialised : Initialised [] calls
  ne_zero : ∀ call ∈ calls, call.instrument ≠ 0
  apart : ∀ a ∈ calls, ∀ b ∈ calls, InstrumentTable.home a.instrument =
    InstrumentTable.home b.instrument → a.instrument = b.instrument
  few : (calls.map Call.instrument).toFinset.card ≤ maxContractNum
  positive : ∀ call ∈ calls, ∀ timestamp ∈ call.timestamp?, 0 < timestamp

/-- The calls of one instrument, in their order. -/
def only (x : UInt64) (calls : List Call) : List Call :=
  calls.filter fun call => call.instrument = x

/-- The offset after a call. -/
def Call.offsetAfter (timestampOffset : ℤ) : Call → ℤ
  | .insertAlpha _ timestamp _ => alphaOffset timestampOffset timestamp
  | _ => timestampOffset

/-- The offset after all calls of a day. -/
def offset (calls : List Call) : ℤ := calls.foldl Call.offsetAfter (-1)

/-- What a contract engine gets from a call, with the offset of the whole day. -/
def Call.op? (timestampOffset : ℤ) : Call → Option ContractEngine.Op
  | .initContract .. => none
  | .insertAlpha _ timestamp targetVolume =>
    some (.insertAlpha (compactAlpha timestampOffset timestamp targetVolume))
  | .insertOrderLog _ timestamp type direction volume priceOff =>
    some (.insertOrderLog (compactOrderLog timestampOffset timestamp type direction volume priceOff))

/-- What the engine of `x` gets from the calls of a day. -/
def opsOf (timestampOffset : ℤ) (x : UInt64) (calls : List Call) : List ContractEngine.Op :=
  (only x calls).filterMap (Call.op? timestampOffset)

/-- A compacted timestamp that `int` holds and that `onComplete` finds due. -/
def BelowMaxInt (x : ℤ) : Prop := -2147483648 ≤ x ∧ x < maxInt

instance (x : ℤ) : Decidable (BelowMaxInt x) := inferInstanceAs (Decidable (_ ∧ _))

/-- With the offset of the day taken off, the timestamps of the calls fit in an `int` below
`maxInt`, and those of the slices of the alphas that change a target do. -/
structure FitsInt (session : ℤ × ℤ) (calls : List Call) : Prop where
  call : ∀ call ∈ calls, ∀ timestamp ∈ call.timestamp?, BelowMaxInt (timestamp - offset calls)
  slice : ∀ call ∈ calls, ∀ prevPosition ∈ call.prevPosition?,
    ∀ alpha ∈ ContractEngine.effectiveAlphas prevPosition
      ((opsOf (offset calls) call.instrument calls).filterMap ContractEngine.Op.alpha?),
    ∀ time ∈ ContractEngine.sliceTimes session.1 session.2 alpha, BelowMaxInt time

/-! ## One offset for the whole day -/

theorem foldl_offsetAfter_of_ne {timestampOffset : ℤ} (h : timestampOffset ≠ -1)
    (calls : List Call) : calls.foldl Call.offsetAfter timestampOffset = timestampOffset := by
  induction calls with
  | nil => rfl
  | cons call calls ih =>
    have hcall : call.offsetAfter timestampOffset = timestampOffset := by
      cases call with
      | insertAlpha instrument timestamp targetVolume => exact if_neg h
      | initContract => rfl
      | insertOrderLog => rfl
    rw [List.foldl_cons, hcall, ih]

theorem foldl_offsetAfter_of_phase (timestampOffset : ℤ) {calls : List Call}
    (h : ∀ call ∈ calls, call.phase ≠ 1) :
    calls.foldl Call.offsetAfter timestampOffset = timestampOffset := by
  induction calls with
  | nil => rfl
  | cons call calls ih =>
    have hcall : call.offsetAfter timestampOffset = timestampOffset := by
      cases call with
      | insertAlpha => exact absurd rfl (h _ List.mem_cons_self)
      | initContract => rfl
      | insertOrderLog => rfl
    rw [List.foldl_cons, hcall, ih fun call hcall => h call (List.mem_cons_of_mem _ hcall)]

/-- Once alphas or order logs have begun, a call comes with the offset of the whole day. -/
theorem foldl_offsetAfter_cons (timestampOffset : ℤ) {call : Call} {calls : List Call}
    (hphase : call.phase ≠ 0) (hphases : ∀ b ∈ calls, call.phase ≤ b.phase)
    (hpos : ∀ timestamp ∈ call.timestamp?, 0 < timestamp) :
    (call :: calls).foldl Call.offsetAfter timestampOffset = call.offsetAfter timestampOffset := by
  cases call with
  | initContract => exact absurd rfl hphase
  | insertAlpha instrument timestamp targetVolume =>
    have hne : alphaOffset timestampOffset timestamp ≠ -1 := by
      have := hpos timestamp rfl
      unfold alphaOffset
      split <;> omega
    exact foldl_offsetAfter_of_ne hne calls
  | insertOrderLog =>
    have hrest : ∀ b ∈ calls, b.phase ≠ 1 := fun b hb heq => by
      have hle := hphases b hb
      rw [heq] at hle
      exact Nat.not_succ_le_self 1 hle
    rw [List.foldl_cons]
    exact foldl_offsetAfter_of_phase _ hrest

namespace Desk

theorem timestampOffset_apply (d : Desk) (call : Call) :
    (d.apply call).timestampOffset = call.offsetAfter d.timestampOffset := by
  cases call <;> rfl

theorem timestampOffset_run (calls : List Call) (d : Desk) :
    (d.run calls).timestampOffset = calls.foldl Call.offsetAfter d.timestampOffset := by
  induction calls generalizing d with
  | nil => rfl
  | cons call calls ih => rw [List.foldl_cons, ← timestampOffset_apply, ← ih]; rfl

theorem session_run (calls : List Call) (d : Desk) : (d.run calls).session = d.session := by
  induction calls generalizing d with
  | nil => rfl
  | cons call calls ih => exact (ih _).trans (by cases call <;> rfl)

/-- A call of another instrument leaves the engine as it is. -/
theorem engine_apply_of_ne {d : Desk} {call : Call} {x : UInt64} (h : call.instrument ≠ x) :
    (d.apply call).engine x = d.engine x := by
  cases call <;> exact Function.update_of_ne (Ne.symm h) ..

/-- The first call of the rest of a day, after the instruments have been initialised, comes with
the offset of the whole day. -/
theorem engine_apply_of_op {d : Desk} {call : Call} {calls : List Call} {x : UInt64}
    {e : ContractEngine OrderHeap} {op : ContractEngine.Op} (hx : d.engine x = some e)
    (hcall : call.instrument = x) (hphases : ∀ b ∈ calls, call.phase ≤ b.phase)
    (hpos : ∀ timestamp ∈ call.timestamp?, 0 < timestamp)
    (hop : call.op? ((call :: calls).foldl Call.offsetAfter d.timestampOffset) = some op) :
    (d.apply call).engine x = some (e.apply op) := by
  subst hcall
  have hphase : call.phase ≠ 0 := fun hzero => by
    cases call with
    | initContract => cases hop
    | insertAlpha | insertOrderLog => cases hzero
  rw [foldl_offsetAfter_cons _ hphase hphases hpos] at hop
  cases call with
  | initContract => cases hop
  | insertAlpha | insertOrderLog =>
    obtain rfl := Option.some.inj hop
    simp only [Call.instrument] at hx
    simp only [Desk.apply, Call.instrument, Function.update_self, hx, Option.map_some]
    rfl

/-- After its `initContract` the engine of `x` gets the calls of `x`, with one offset. -/
theorem engine_run {calls : List Call} {d : Desk} {x : UInt64} {e : ContractEngine OrderHeap}
    (hx : d.engine x = some e) (hphases : calls.Pairwise fun a b => a.phase ≤ b.phase)
    (hinit : ∀ call ∈ calls, call.phase = 0 → call.instrument ≠ x)
    (hpos : ∀ call ∈ calls, ∀ timestamp ∈ call.timestamp?, 0 < timestamp) :
    (d.run calls).engine x =
      some (e.run (opsOf (calls.foldl Call.offsetAfter d.timestampOffset) x calls)) := by
  induction calls generalizing d e with
  | nil => exact hx
  | cons call calls ih =>
    have hnext : ∀ {e'}, (d.apply call).engine x = some e' →
        (d.run (call :: calls)).engine x = some (e'.run
          (opsOf ((call :: calls).foldl Call.offsetAfter d.timestampOffset) x calls)) := by
      intro e' he'
      rw [List.foldl_cons, ← timestampOffset_apply]
      exact ih he' hphases.of_cons (fun b hb => hinit b (List.mem_cons_of_mem _ hb))
        fun b hb => hpos b (List.mem_cons_of_mem _ hb)
    by_cases hcall : call.instrument = x
    · obtain ⟨op, hop⟩ : ∃ op,
          call.op? ((call :: calls).foldl Call.offsetAfter d.timestampOffset) = some op := by
        cases call with
        | initContract => exact absurd hcall (hinit _ List.mem_cons_self rfl)
        | insertAlpha => exact ⟨_, rfl⟩
        | insertOrderLog => exact ⟨_, rfl⟩
      have hfirst := engine_apply_of_op hx hcall (fun b hb => List.rel_of_pairwise_cons hphases hb)
        (hpos call List.mem_cons_self) hop
      have honly : only x (call :: calls) = call :: only x calls :=
        List.filter_cons_of_pos (by simpa using hcall)
      rw [hnext hfirst, opsOf, opsOf, honly, List.filterMap_cons_some hop]
      rfl
    · have honly : only x (call :: calls) = only x calls :=
        List.filter_cons_of_neg (by simpa using hcall)
      rw [hnext ((engine_apply_of_ne hcall).trans hx), opsOf, opsOf, honly]

end Desk

/-! ## The engines after a day -/

/-- An instrument that has not started is initialised by one of the calls. -/
theorem Initialised.exists_init {started : List UInt64} {calls : List Call} {x : UInt64}
    (h : Initialised started calls) (hx : x ∈ calls.map Call.instrument) (hnot : x ∉ started) :
    ∃ prevClosePrice prevPosition, .initContract x prevClosePrice prevPosition ∈ calls := by
  induction calls generalizing started with
  | nil => cases hx
  | cons call calls ih =>
    rcases h.cases with ⟨⟨prevClosePrice, prevPosition, hcall⟩, hrest⟩ | ⟨hmem, hrest⟩
    · by_cases heq : call.instrument = x
      · rw [heq] at hcall
        exact ⟨prevClosePrice, prevPosition, hcall ▸ List.mem_cons_self⟩
      · have hx' := (List.mem_cons.mp hx).resolve_left (Ne.symm heq)
        have hnot' : x ∉ call.instrument :: started := fun hmem =>
          (List.mem_cons.mp hmem).elim (fun h => heq h.symm) hnot
        obtain ⟨p, q, hmem⟩ := ih hrest hx' hnot'
        exact ⟨p, q, List.mem_cons_of_mem _ hmem⟩
    · have hne : x ≠ call.instrument := fun heq => hnot (heq ▸ hmem)
      obtain ⟨p, q, hmem⟩ := ih hrest ((List.mem_cons.mp hx).resolve_left hne) hnot
      exact ⟨p, q, List.mem_cons_of_mem _ hmem⟩

section Day
variable {calls : List Call} (h : Day calls)
include h

/-- Every instrument of a day has its `initContract`. -/
theorem Day.exists_init {x : UInt64} (hx : x ∈ calls.map Call.instrument) :
    ∃ prevClosePrice prevPosition, .initContract x prevClosePrice prevPosition ∈ calls :=
  h.initialised.exists_init hx List.not_mem_nil

/-- Before the `initContract` of `x` other instruments are initialised; after it nothing
initialises `x` again. -/
theorem Day.split {x : UInt64} {prevClosePrice : ℚ} {prevPosition : ℤ}
    (hx : .initContract x prevClosePrice prevPosition ∈ calls) :
    ∃ pre post, calls = (pre ++ [.initContract x prevClosePrice prevPosition]) ++ post ∧
      (∀ call ∈ pre, call.phase = 0 ∧ call.instrument ≠ x) ∧
      (post.Pairwise fun a b => a.phase ≤ b.phase) ∧
      ∀ call ∈ post, call.phase = 0 → call.instrument ≠ x := by
  obtain ⟨pre, post, rfl⟩ := List.append_of_mem hx
  obtain ⟨-, hphases, hbefore⟩ := List.pairwise_append.mp h.phases
  obtain ⟨-, honce, hbefore'⟩ := List.pairwise_append.mp h.once
  refine ⟨pre, post, by simp, fun call hcall => ?_, hphases.of_cons, fun call hcall hphase => ?_⟩
  · have hphase := Nat.le_zero.mp (hbefore call hcall _ List.mem_cons_self)
    exact ⟨hphase, hbefore' call hcall _ List.mem_cons_self hphase rfl⟩
  · exact (List.rel_of_pairwise_cons honce hcall rfl hphase).symm

/-- **The engine of an instrument after a day** has got the calls of the instrument. -/
theorem Day.engine {x : UInt64} {prevClosePrice : ℚ} {prevPosition : ℤ}
    (hx : .initContract x prevClosePrice prevPosition ∈ calls) (session : ℤ × ℤ) :
    ((Desk.new session).run calls).engine x = some ((ContractEngine.new session.1 session.2
      ⟨prevClosePrice, prevPosition⟩ x).run (opsOf (offset calls) x calls)) := by
  have hpos := h.positive
  obtain ⟨pre, post, hcalls, hpre, hphases, hpost⟩ := h.split hx
  set start := Call.initContract x prevClosePrice prevPosition with hstart
  rw [hcalls] at hpos ⊢
  have hoffset : ∀ o : ℤ, (pre ++ [start]).foldl Call.offsetAfter o = o := fun o =>
    foldl_offsetAfter_of_phase o fun call hcall => by
      rcases List.mem_append.mp hcall with hcall | hcall
      · rw [(hpre call hcall).1]
        decide
      · rw [List.mem_singleton.mp hcall]
        exact Nat.zero_ne_one
  have hops : ∀ o, opsOf o x (pre ++ [start] ++ post) = opsOf o x post := fun o => by
    have hnone : only x pre = [] := List.filter_eq_nil_iff.mpr fun call hcall => by
      simpa using (hpre call hcall).2
    have hself : only x [start] = [start] :=
      List.filter_cons_of_pos (by simp [hstart, Call.instrument])
    rw [opsOf, only, List.filter_append, List.filter_append, ← only, ← only, ← only, hnone, hself,
      List.nil_append, List.singleton_append, List.filterMap_cons_none rfl]
    rfl
  have hnew : ((Desk.new session).run (pre ++ [start])).engine x =
      some (.new session.1 session.2 ⟨prevClosePrice, prevPosition⟩ x) := by
    have hlast : (Desk.new session).run (pre ++ [start]) =
        ((Desk.new session).run pre).apply start := List.foldl_append
    rw [hlast]
    simp only [hstart, Desk.apply, Function.update_self, Desk.session_run]
    rfl
  have hrun := Desk.engine_run hnew hphases hpost
    fun call hcall => hpos call (List.mem_append_right _ hcall)
  rw [Desk.timestampOffset_run, hoffset] at hrun
  rw [hops, offset, List.foldl_append, hoffset, Desk.run, List.foldl_append]
  exact hrun

end Day

/-! ## The reports of a day -/

/-- Of the rows of all keys, those of the key `x` are its own. -/
theorem filter_flatMap_key {α β : Type} [DecidableEq α] {rows : α → List β} {key : β → α}
    {l : List α} (hkey : ∀ y ∈ l, ∀ b ∈ rows y, key b = y) (hl : l.Nodup) {x : α} (hx : x ∈ l) :
    (l.flatMap rows).filter (fun b => key b = x) = rows x := by
  have hother : ∀ y ∈ l, y ≠ x → ∀ b ∈ rows y, ¬ decide (key b = x) = true := fun y hyl hy b hb => by
    simpa [hkey y hyl b hb] using hy
  induction l with
  | nil => cases hx
  | cons y l ih =>
    obtain ⟨hyl, hl⟩ := List.nodup_cons.mp hl
    rw [List.flatMap_cons, List.filter_append]
    by_cases hyx : y = x
    · subst hyx
      have hself : (rows y).filter (fun b => key b = y) = rows y :=
        List.filter_eq_self.mpr fun b hb => by simp [hkey y List.mem_cons_self b hb]
      have hrest : (l.flatMap rows).filter (fun b => key b = y) = [] := by
        refine List.filter_eq_nil_iff.mpr fun b hb => ?_
        obtain ⟨z, hz, hb⟩ := List.mem_flatMap.mp hb
        exact hother z (List.mem_cons_of_mem _ hz) (fun heq => hyl (heq ▸ hz)) b hb
      rw [hself, hrest, List.append_nil]
    · have hfirst : (rows y).filter (fun b => key b = x) = [] :=
        List.filter_eq_nil_iff.mpr (hother y List.mem_cons_self hyx)
      rw [hfirst, List.nil_append]
      exact ih (fun z hz => hkey z (List.mem_cons_of_mem _ hz)) hl
        ((List.mem_cons.mp hx).resolve_left (Ne.symm hyx))
        fun z hz => hother z (List.mem_cons_of_mem _ hz)

theorem mapM_eq_some_map {α β : Type} {f : α → Option β} {g : α → β} {l : List α}
    (h : ∀ a ∈ l, f a = some (g a)) : l.mapM f = some (l.map g) := by
  induction l with
  | nil => rfl
  | cons a l ih =>
    rw [List.mapM_cons, h a List.mem_cons_self, ih fun b hb => h b (List.mem_cons_of_mem _ hb)]
    rfl

namespace TradeEngine

/-- The engines that the reference has are completed, and their rows reported. -/
theorem Serves.report {t : TradeEngine} {l : List UInt64} {d : Desk} (h : Serves t l d)
    {f : UInt64 → ContractEngine OrderHeap} (hf : ∀ y ∈ l, d.engine y = some (f y))
    (path : String) :
    ∃ u report, t.onComplete path = some (u, report) ∧
      report.twapOrders.Perm
        (l.flatMap fun y => twapRows d.timestampOffset (f y).onComplete) ∧
      report.pnlAndPos.Perm (l.map fun y => pnlRow (f y).onComplete) := by
  have hslot : ∀ i (hi : i < l.length), t.engine? i = some (f l[i]) := fun i hi => by
    have hengine := h.engine l[i] (List.getElem_mem hi)
    rwa [h.holds.nodup.idxOf_getElem i hi, hf _ (List.getElem_mem hi)] at hengine
  obtain ⟨u, hu, hsame, hcomplete⟩ := completeContracts_spec (t := t) t.lastContract
    fun i hi => ⟨_, hslot i (h.holds.lastContract ▸ hi)⟩
  have hlast : u.lastContract = l.length := by rw [hsame, h.holds.lastContract]
  have hoffset : u.timestampOffset = d.timestampOffset := by rw [hsame, h.timestampOffset]
  have hcontracts : u.contracts = some (l.map fun y => (f y).onComplete) := by
    rw [contracts, hlast, mapM_eq_some_map (g := fun i => (f (l.getD i 0)).onComplete)]
    · refine congrArg some (List.ext_getElem (by simp) fun i hi _ => ?_)
      simp only [List.length_map, List.length_range] at hi
      simp [List.getElem?_eq_getElem hi]
    · intro i hi
      rw [List.mem_range] at hi
      rw [hcomplete, if_pos (h.holds.lastContract ▸ hi), hslot i hi, List.getD_eq_getElem _ _ hi]
      rfl
  obtain ⟨twapOrders, htwap, htwapPerm⟩ := getTWAPOrders_perm hcontracts
  obtain ⟨pnlAndPos, hpnl, hpnlPerm⟩ := getPNLAndPos_perm hcontracts
  have hreport : t.onComplete path = some (u, ⟨path ++ "_" ++ toString u.session.1 ++ "_" ++
      toString u.session.2, twapOrders, pnlAndPos⟩) := by
    rw [onComplete, completeContracts, hu, Option.bind_some, htwap, Option.bind_some, hpnl]
    rfl
  refine ⟨u, _, hreport, ?_, ?_⟩
  · rwa [hoffset, List.flatMap_map] at htwapPerm
  · rwa [List.map_map] at hpnlPerm

end TradeEngine

/-! ## What is reported of one instrument -/

namespace ContractEngine

theorem instrument_apply (s : ContractEngine OrderHeap) (op : Op) :
    (s.apply op).instrument = s.instrument := by
  have hrelease : ∀ currentTime,
      (s.processTwapOrdersIfNecessary currentTime).plan.instrument = s.instrument :=
    fun currentTime => by rw [plan_release]; rfl
  cases op with
  | insertAlpha alpha => rw [apply, insertAlpha_eq]
  | insertOrderLog o => exact (congrArg Plan.instrument (plan_insertOrderLog s o)).trans (hrelease _)
  | onComplete => exact hrelease _

theorem instrument_run (ops : List Op) (s : ContractEngine OrderHeap) :
    (s.run ops).instrument = s.instrument := by
  induction ops generalizing s with
  | nil => rfl
  | cons op ops ih => rw [run_cons, ih, instrument_apply]

end ContractEngine

section report
variable {calls : List Call} (h : Day calls) (session : ℤ × ℤ)
include h

theorem Day.run : ∃ t, (TradeEngine.new session).run calls = some t ∧
    TradeEngine.Serves t (Registry.enterAll [] (calls.map Call.instrument))
      ((Desk.new session).run calls) := by
  have hne : ∀ x ∈ calls.map Call.instrument, x ≠ 0 := fun x hx => by
    obtain ⟨call, hcall, rfl⟩ := List.mem_map.mp hx
    exact h.ne_zero call hcall
  have hfind : InstrumentTable.CallsFind .new [] (calls.map Call.instrument) := by
    refine InstrumentTable.callsFind_of_apart InstrumentTable.homed_new hne fun x hx y hy => ?_
    obtain ⟨a, ha, rfl⟩ := List.mem_map.mp hx
    obtain ⟨b, hb, rfl⟩ := List.mem_map.mp hy
    exact h.apart a ha b hb
  have hlen := h.few
  rw [← Registry.length_enterAll] at hlen
  exact (TradeEngine.serves_new session).run (fun _ => Iff.rfl) hne hfind hlen
    (fun _ hx => absurd hx List.not_mem_nil) h.initialised

/-- **What is reported of an instrument** are the rows of its own engine. -/
theorem Day.report (path : String) : ∃ t u report,
    (TradeEngine.new session).run calls = some t ∧ t.onComplete path = some (u, report) ∧
      (∀ row ∈ report.twapOrders, row.instrumentId ∈ calls.map Call.instrument) ∧
      (∀ row ∈ report.pnlAndPos, row.instrumentId ∈ calls.map Call.instrument) ∧
      ∀ x e, x ∈ calls.map Call.instrument → ((Desk.new session).run calls).engine x = some e →
        (report.twapOrders.filter fun row => row.instrumentId = x).Perm
            (twapRows (offset calls) e.onComplete) ∧
          (report.pnlAndPos.filter fun row => row.instrumentId = x) = [pnlRow e.onComplete] := by
  obtain ⟨t, hrun, hserves⟩ := h.run session
  set d := (Desk.new session).run calls with hd
  set l := Registry.enterAll [] (calls.map Call.instrument)
  have hmem : ∀ y, y ∈ l ↔ y ∈ calls.map Call.instrument := fun y => by simp [l]
  have hoffset : d.timestampOffset = offset calls := Desk.timestampOffset_run calls _
  -- An instrument without an engine does not come up.
  set f : UInt64 → ContractEngine OrderHeap := fun y =>
    (d.engine y).getD (.new session.1 session.2 ⟨0, 0⟩ y)
  have hf : ∀ y ∈ l, d.engine y = some (f y) := fun y hy => by
    obtain ⟨p, q, hinit⟩ := h.exists_init ((hmem y).mp hy)
    simp only [f, d, h.engine hinit session, Option.getD_some]
  have hinstrument : ∀ y ∈ l, (f y).onComplete.instrument = y := fun y hy => by
    obtain ⟨p, q, hinit⟩ := h.exists_init ((hmem y).mp hy)
    simp only [f, d, h.engine hinit session, Option.getD_some]
    exact (ContractEngine.instrument_apply _ .onComplete).trans (ContractEngine.instrument_run _ _)
  have hkey : ∀ y ∈ l, ∀ row ∈ twapRows d.timestampOffset (f y).onComplete,
      row.instrumentId = y := fun y hy row hrow => by
    obtain ⟨o, -, rfl⟩ := List.mem_map.mp hrow
    exact hinstrument y hy
  have hkey' : ∀ y ∈ l, ∀ row ∈ [pnlRow (f y).onComplete], row.instrumentId = y :=
    fun y hy row hrow => by
      rw [List.mem_singleton.mp hrow]
      exact hinstrument y hy
  obtain ⟨u, report, hreport, htwap, hpnl⟩ := hserves.report hf path
  rw [List.map_eq_flatMap] at hpnl
  refine ⟨t, u, report, hrun, hreport, fun row hrow => ?_, fun row hrow => ?_, fun x e hx he => ?_⟩
  · obtain ⟨y, hy, hrow⟩ := List.mem_flatMap.mp (htwap.mem_iff.mp hrow)
    rw [hkey y hy row hrow]
    exact (hmem y).mp hy
  · obtain ⟨y, hy, hrow⟩ := List.mem_flatMap.mp (hpnl.mem_iff.mp hrow)
    rw [hkey' y hy row hrow]
    exact (hmem y).mp hy
  · obtain rfl : e = f x := Option.some.inj (he.symm.trans (hf x ((hmem x).mpr hx)))
    have htwap' := htwap.filter fun row => row.instrumentId = x
    have hpnl' := hpnl.filter fun row => row.instrumentId = x
    rw [filter_flatMap_key hkey hserves.holds.nodup ((hmem x).mpr hx), hoffset] at htwap'
    rw [filter_flatMap_key hkey' hserves.holds.nodup ((hmem x).mpr hx)] at hpnl'
    exact ⟨htwap', List.perm_singleton.mp hpnl'⟩

end report

/-! ## A day and a day of one instrument -/

theorem Initialised.only {started : List UInt64} {calls : List Call}
    (h : Initialised started calls) (x : UInt64) :
    Initialised (started.filter fun y => y = x) (only x calls) := by
  induction calls generalizing started with
  | nil => trivial
  | cons call calls ih =>
    by_cases hcall : call.instrument = x
    · have honly : MatchingEngine.only x (call :: calls) = call :: MatchingEngine.only x calls :=
        List.filter_cons_of_pos (by simpa using hcall)
      subst hcall
      rw [honly]
      cases call with
      | initContract instrument prevClosePrice prevPosition =>
        have hrest := ih h
        rwa [List.filter_cons_of_pos (by simp [Call.instrument])] at hrest
      | insertAlpha instrument timestamp targetVolume =>
        exact ⟨List.mem_filter.mpr ⟨h.1, by simp [Call.instrument]⟩, ih h.2⟩
      | insertOrderLog instrument timestamp type direction volume priceOff =>
        exact ⟨List.mem_filter.mpr ⟨h.1, by simp [Call.instrument]⟩, ih h.2⟩
    · have honly : MatchingEngine.only x (call :: calls) = MatchingEngine.only x calls :=
        List.filter_cons_of_neg (by simpa using hcall)
      rw [honly]
      rcases h.cases with ⟨-, hrest⟩ | ⟨-, hrest⟩
      · have hrest' := ih hrest
        rwa [List.filter_cons_of_neg (by simpa using hcall)] at hrest'
      · exact ih hrest

theorem mem_of_mem_only {x : UInt64} {call : Call} {calls : List Call}
    (h : call ∈ only x calls) : call ∈ calls ∧ call.instrument = x := by
  simpa [only] using h

/-- The calls of one instrument are a day. -/
theorem Day.only {calls : List Call} (h : Day calls) (x : UInt64) : Day (only x calls) where
  phases := h.phases.filter _
  once := h.once.filter _
  initialised := h.initialised.only x
  ne_zero call hcall := h.ne_zero call (mem_of_mem_only hcall).1
  apart a ha b hb := h.apart a (mem_of_mem_only ha).1 b (mem_of_mem_only hb).1
  few := by
    refine (Finset.card_le_card fun y hy => ?_).trans h.few
    simp only [List.mem_toFinset, List.mem_map] at hy ⊢
    obtain ⟨call, hcall, rfl⟩ := hy
    exact ⟨call, (mem_of_mem_only hcall).1, rfl⟩
  positive call hcall := h.positive call (mem_of_mem_only hcall).1

theorem only_only (x : UInt64) (calls : List Call) : only x (only x calls) = only x calls := by
  simp [only]

theorem toInt_of_belowMaxInt {x : ℤ} (h : BelowMaxInt x) : toInt x = x := by
  obtain ⟨hge, hlt⟩ := h
  unfold maxInt at hlt
  exact Int.bmod_eq_of_le_mul_two (by omega) (by omega)

open ContractEngine (Later)

section FitsInt
variable {session : ℤ × ℤ} {calls : List Call} {x : UInt64} (hfits : FitsInt session calls)
  (hfits' : FitsInt session (only x calls))
include hfits hfits'

/-- **The two offsets move all timestamps by one amount.** -/
theorem opsOf_eq_map_delay : opsOf (offset calls) x calls =
    (opsOf (offset (only x calls)) x (only x calls)).map
      (ContractEngine.Op.delay (offset (only x calls) - offset calls)) := by
  rw [opsOf, opsOf, only_only, List.map_filterMap]
  refine List.filterMap_congr fun call hcall => ?_
  have htime : ∀ timestamp ∈ call.timestamp?,
      toInt (timestamp - offset calls) =
        toInt (timestamp - offset (only x calls)) + (offset (only x calls) - offset calls) :=
    fun timestamp ht => by
      rw [toInt_of_belowMaxInt (hfits.call call (mem_of_mem_only hcall).1 timestamp ht),
        toInt_of_belowMaxInt (hfits'.call call hcall timestamp ht)]
      ring
  cases call with
  | initContract => rfl
  | insertAlpha instrument timestamp targetVolume =>
    simp only [Call.op?, compactAlpha, Option.map_some, ContractEngine.Op.delay,
      htime timestamp rfl]
  | insertOrderLog instrument timestamp type direction volume priceOff =>
    simp only [Call.op?, compactOrderLog, Option.map_some, ContractEngine.Op.delay,
      CompactOrderLog.delay, htime timestamp rfl]

/-- The engine of `x` in the run of all instruments is the one in the run of its own, later. -/
theorem later_onComplete {prevClosePrice : ℚ} {prevPosition : ℤ}
    (hx : .initContract x prevClosePrice prevPosition ∈ calls) :
    let s := ContractEngine.new session.1 session.2 ⟨prevClosePrice, prevPosition⟩ x
    Later (offset (only x calls) - offset calls)
      (s.run (opsOf (offset (only x calls)) x (only x calls))).onComplete
      (s.run (opsOf (offset calls) x calls)).onComplete := by
  intro s
  have hcomplete : ContractEngine.Op.onComplete ∉
      opsOf (offset (only x calls)) x (only x calls) := fun hmem => by
    obtain ⟨call, -, hop⟩ := List.mem_filterMap.mp hmem
    cases call <;> cases hop
  have hrun := (ContractEngine.later_new (offset (only x calls) - offset calls) session.1 session.2
    ⟨prevClosePrice, prevPosition⟩ x).run hcomplete
  rw [← opsOf_eq_map_delay hfits hfits'] at hrun
  have hx' : .initContract x prevClosePrice prevPosition ∈ only x calls := by
    simpa [only, Call.instrument] using hx
  have htimes : ∀ ops, (s.run ops).plan.timestamps =
      (ContractEngine.effectiveAlphas prevPosition
        (ops.filterMap ContractEngine.Op.alpha?)).flatMap
          (ContractEngine.sliceTimes session.1 session.2) :=
    fun ops => (ContractEngine.timestamps_run ops s).trans (List.nil_append _)
  -- Every slice is due at the last release, in both runs.
  refine hrun.onComplete fun time htime => iff_of_true ?_ ?_
  · rw [htimes] at htime
    obtain ⟨alpha, halpha, htime⟩ := List.mem_flatMap.mp htime
    exact (hfits'.slice _ hx' _ rfl alpha halpha time htime).2
  · have hlater := List.mem_map_of_mem (f := (· + (offset (only x calls) - offset calls))) htime
    rw [← hrun.timestamps, htimes] at hlater
    obtain ⟨alpha, halpha, htime⟩ := List.mem_flatMap.mp hlater
    exact (hfits.slice _ hx _ rfl alpha halpha _ htime).2

end FitsInt

/-- The report takes the delay back. -/
theorem twapRows_of_later {c o : ℤ} {s t : ContractEngine OrderHeap} (h : Later c s t) :
    twapRows o t = twapRows (o + c) s := by
  rw [twapRows, twapRows, h.twapOrders, h.instrument, List.map_map]
  refine List.map_congr_left fun a _ => ?_
  simp only [Function.comp_apply, CompactOrderLog.timestamp_delay, TwapOrder.mk.injEq, true_and]
  exact ⟨by ring, rfl, rfl, rfl⟩

theorem pnlRow_of_later {c : ℤ} {s t : ContractEngine OrderHeap} (h : Later c s t) :
    pnlRow t = pnlRow s := by
  rw [pnlRow, pnlRow, h.instrument, h.getPosition, h.getPNL]

/-- **Instruments do not influence each other**: what is reported of an instrument is what a
trade engine reports that gets the calls of the instrument alone. -/
theorem instruments_isolated {session : ℤ × ℤ} {calls : List Call} (h : Day calls)
    (hfits : FitsInt session calls) {x : UInt64} (hx : x ∈ calls.map Call.instrument)
    (hfits' : FitsInt session (only x calls)) (path path' : String) :
    ∃ t u report t' u' report' row,
      (TradeEngine.new session).run calls = some t ∧ t.onComplete path = some (u, report) ∧
      (TradeEngine.new session).run (only x calls) = some t' ∧
      t'.onComplete path' = some (u', report') ∧
      (report.pnlAndPos.filter fun row => row.instrumentId = x) = [row] ∧
      report'.pnlAndPos = [row] ∧
      (report.twapOrders.filter fun row => row.instrumentId = x).Perm report'.twapOrders := by
  obtain ⟨prevClosePrice, prevPosition, hinit⟩ := h.exists_init hx
  have hinit' : .initContract x prevClosePrice prevPosition ∈ only x calls := by
    simpa [only, Call.instrument] using hinit
  have hx' : x ∈ (only x calls).map Call.instrument := List.mem_map_of_mem hinit'
  have hall : ∀ y ∈ (only x calls).map Call.instrument, y = x := fun y hy => by
    obtain ⟨call, hcall, rfl⟩ := List.mem_map.mp hy
    exact (mem_of_mem_only hcall).2
  obtain ⟨t, u, report, hrun, hreport, -, -, hrows⟩ := h.report session path
  obtain ⟨t', u', report', hrun', hreport', htwap', hpnl', hrows'⟩ :=
    (h.only x).report session path'
  obtain ⟨htwap, hpnl⟩ := hrows x _ hx (h.engine hinit session)
  obtain ⟨htwapOnly, hpnlOnly⟩ := hrows' x _ hx' ((h.only x).engine hinit' session)
  rw [List.filter_eq_self.mpr fun row hrow => by simpa using hall _ (htwap' row hrow)] at htwapOnly
  rw [List.filter_eq_self.mpr fun row hrow => by simpa using hall _ (hpnl' row hrow)] at hpnlOnly
  have hlater := later_onComplete hfits hfits' hinit
  rw [twapRows_of_later hlater, add_sub_cancel] at htwap
  rw [pnlRow_of_later hlater] at hpnl
  exact ⟨t, u, report, t', u', report', _, hrun, hreport, hrun', hreport', hpnl, hpnlOnly,
    htwap.trans htwapOnly.symm⟩

/-- The first alpha is of the other instrument, so the two runs have different offsets. -/
theorem instruments_isolated_of_two :
    let calls : List Call := [.initContract 1 10 0, .initContract 2 20 5,
      .insertAlpha 2 100000 8, .insertAlpha 1 100500 4, .insertOrderLog 2 100700 0 (-1) 5 (1 / 100),
      .insertOrderLog 1 101600 0 1 5 (1 / 100)]
    offset calls ≠ offset (only 1 calls) ∧ ∃ t u report t' u' report' row,
      (TradeEngine.new (3, 1)).run calls = some t ∧ t.onComplete "01" = some (u, report) ∧
      (TradeEngine.new (3, 1)).run (only 1 calls) = some t' ∧
      t'.onComplete "02" = some (u', report') ∧
      (report.pnlAndPos.filter fun row => row.instrumentId = 1) = [row] ∧
      report'.pnlAndPos = [row] ∧
      (report.twapOrders.filter fun row => row.instrumentId = 1).Perm report'.twapOrders := by
  intro calls
  have hday : Day calls := ⟨by decide, by decide, by simp [calls, Initialised], by decide,
    by decide, by decide, by decide⟩
  have hfits : FitsInt (3, 1) calls := ⟨by decide, by decide⟩
  have hfits' : FitsInt (3, 1) (only 1 calls) := ⟨by decide, by decide⟩
  exact ⟨by decide, instruments_isolated hday hfits (by decide) hfits' "01" "02"⟩

end MatchingEngine
