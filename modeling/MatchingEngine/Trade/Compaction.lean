import Mathlib
import MatchingEngine.Trade.Isolation

/-!
# The compaction of the timestamps

A trade engine subtracts the timestamp of the first alpha from all timestamps, and narrows the
difference to an `int`.  The report adds it back.  Nothing is lost by it on a day with an alpha
whose timestamps lie close together.  On a day without one the offset stays at the mark `-1` of
an offset that is not set, which the order logs take for the offset: a day whose timestamps
cross a multiple of `2 ^ 32` there is torn apart.

## Main definitions

* `intBlock` — the run of `2 ^ 32` numbers that a number is narrowed from.
* `stamps` — the timestamps of the calls, with what the engines get for them.
* `reaching j t calls` — the calls that act on the engine of index `j`.
* `Lossless session calls` — compaction loses nothing.
* `SameBlock` — when it loses nothing on a day without an alpha.
-/

namespace MatchingEngine

/-! ## Narrowing -/

/-- Narrowing takes a multiple of `2 ^ 32` off, this one. -/
def intBlock (x : ℤ) : ℤ := (x + 2147483648) / 4294967296

theorem toInt_eq (x : ℤ) : toInt x = x - 4294967296 * intBlock x := by
  unfold toInt Int.bmod intBlock
  norm_num
  split <;> omega

/-- **Narrowing keeps the order of two close numbers just if they are of one block.** -/
theorem compare_toInt_iff {x y : ℤ} (hxy : x - y < 2 ^ 31) (hyx : y - x < 2 ^ 31) :
    compare (toInt x) (toInt y) = compare x y ↔ intBlock x = intBlock y := by
  have hx := toInt_eq x
  have hy := toInt_eq y
  unfold intBlock at hx hy ⊢
  rcases lt_trichotomy x y with h | rfl | h
  · rw [compare_lt_iff_lt.mpr h, compare_lt_iff_lt]
    omega
  · simp
  · rw [compare_gt_iff_gt.mpr h, compare_gt_iff_gt]
    omega

/-! ## The timestamps of the calls -/

/-- A timestamp on its way into an engine: as the call has it, the offset taken off it, and what
is handed on. -/
structure Stamp where
  raw : ℤ
  offset : ℤ
  compact : ℤ
  deriving DecidableEq, Repr

/-- The timestamp of a call that comes with an offset. -/
def Call.stamp? (timestampOffset : ℤ) : Call → Option Stamp
  | .initContract .. => none
  | .insertAlpha _ timestamp targetVolume =>
    let offset := alphaOffset timestampOffset timestamp
    some ⟨timestamp, offset, (compactAlpha offset timestamp targetVolume).timestamp⟩
  | .insertOrderLog _ timestamp type direction volume priceOff =>
    some ⟨timestamp, timestampOffset,
      (compactOrderLog timestampOffset timestamp type direction volume priceOff).timestamp⟩

/-- The timestamps of a list of calls, each with the offset that it comes with. -/
def stamps : ℤ → List Call → List Stamp
  | _, [] => []
  | timestampOffset, call :: calls =>
    (call.stamp? timestampOffset).toList ++ stamps (call.offsetAfter timestampOffset) calls

/-- The timestamps of a list of calls, as the calls have them. -/
def timestamps (calls : List Call) : List ℤ := calls.filterMap Call.timestamp?

/-- The stamp of a timestamp from which the offset is taken off. -/
def Stamp.of (timestampOffset timestamp : ℤ) : Stamp :=
  ⟨timestamp, timestampOffset, toInt (timestamp - timestampOffset)⟩

theorem stamp?_eq (timestampOffset : ℤ) (call : Call) : call.stamp? timestampOffset =
    call.timestamp?.map (Stamp.of (call.offsetAfter timestampOffset)) := by
  cases call <;> rfl

/-- Alphas, then order logs. -/
structure Trading (calls : List Call) : Prop where
  begun : ∀ call ∈ calls, call.phase ≠ 0
  phases : calls.Pairwise fun a b => a.phase ≤ b.phase
  positive : ∀ timestamp ∈ timestamps calls, 0 < timestamp

theorem Trading.of_cons {call : Call} {calls : List Call} (h : Trading (call :: calls)) :
    Trading calls where
  begun c hc := h.begun c (List.mem_cons_of_mem _ hc)
  phases := h.phases.of_cons
  positive x hx := by
    obtain ⟨c, hc, hx⟩ := List.mem_filterMap.mp hx
    exact h.positive x (List.mem_filterMap.mpr ⟨c, List.mem_cons_of_mem _ hc, hx⟩)

/-- The first call comes with the offset that the day ends with. -/
theorem Trading.offsetAfter {call : Call} {calls : List Call} (h : Trading (call :: calls))
    (timestampOffset : ℤ) :
    call.offsetAfter timestampOffset =
      calls.foldl Call.offsetAfter (call.offsetAfter timestampOffset) :=
  (foldl_offsetAfter_cons timestampOffset (h.begun call List.mem_cons_self)
    (fun _ hb => List.rel_of_pairwise_cons h.phases hb)
    fun x hx => h.positive x (List.mem_filterMap.mpr ⟨call, List.mem_cons_self, hx⟩)).symm

/-- **One offset is taken off all timestamps.** -/
theorem Trading.stamps_eq {calls : List Call} (h : Trading calls) (timestampOffset : ℤ) :
    stamps timestampOffset calls =
      (timestamps calls).map (Stamp.of (calls.foldl Call.offsetAfter timestampOffset)) := by
  induction calls generalizing timestampOffset with
  | nil => rfl
  | cons call calls ih =>
    rw [stamps, ih h.of_cons, stamp?_eq, List.foldl_cons, ← h.offsetAfter, timestamps, timestamps]
    cases hx : call.timestamp? with
    | none => rw [List.filterMap_cons_none hx]; rfl
    | some x => rw [List.filterMap_cons_some hx]; rfl

/-! ## The calls that reach an engine -/

namespace TradeEngine

/-- A call acts on the engine at the index of its instrument, and on no other. -/
theorem serve_eq_some {t u : TradeEngine} {instrument : UInt64}
    {f : Option (ContractEngine OrderHeap) → Option (ContractEngine OrderHeap)}
    (h : t.serve instrument f = some u) :
    ∃ index e, t.getOrInsertInstrument instrument = some (index, u.toInstrumentTable) ∧
      f (t.engine? index) = some e ∧ u.session = t.session ∧
      u.timestampOffset = t.timestampOffset ∧
      ∀ j, u.engine? j = if j = index then some e else t.engine? j := by
  obtain ⟨⟨index, table⟩, hget, h⟩ := Option.bind_eq_some_iff.mp h
  simp only at h
  split at h
  · next hlt =>
    obtain ⟨e, he, rfl⟩ := Option.map_eq_some_iff.mp h
    refine ⟨index, e, hget, ?_, rfl, rfl, fun j => engine?_update t ⟨index, hlt⟩ e j⟩
    rw [engine?_of_lt t hlt]
    exact he
  · cases h

/-- The index that a call acts on. -/
def index? (t : TradeEngine) (call : Call) : Option ℕ :=
  (t.getOrInsertInstrument call.instrument).map Prod.fst

/-- The calls that act on the engine of index `j`. -/
def reaching (j : ℕ) : TradeEngine → List Call → List Call
  | _, [] => []
  | t, call :: calls =>
    (if t.index? call = some j then [call] else []) ++
      (t.apply call).elim [] fun t => reaching j t calls

theorem mem_of_mem_reaching {j : ℕ} {call : Call} {calls : List Call} {t : TradeEngine}
    (h : call ∈ reaching j t calls) : call ∈ calls := by
  induction calls generalizing t with
  | nil => cases h
  | cons first calls ih =>
    rcases List.mem_append.mp h with h | h
    · split at h
      · exact List.mem_singleton.mp h ▸ List.mem_cons_self
      · cases h
    · cases ht : t.apply first with
      | none => rw [ht] at h; cases h
      | some t' =>
        rw [ht] at h
        exact List.mem_cons_of_mem _ (ih h)

/-- **An alpha or an order log acts on one engine**, with the offset it comes with. -/
theorem apply_eq_some {t u : TradeEngine} {call : Call} (hphase : call.phase ≠ 0)
    (h : t.apply call = some u) :
    u.timestampOffset = call.offsetAfter t.timestampOffset ∧
      ∀ j, u.engine? j = if t.index? call = some j then
        (t.engine? j).map fun e => e.run (call.op? (call.offsetAfter t.timestampOffset)).toList
      else t.engine? j := by
  have hserved : ∀ {index : ℕ} {table : InstrumentTable} {e' : ContractEngine OrderHeap}
      {g : ContractEngine OrderHeap → ContractEngine OrderHeap},
      t.getOrInsertInstrument call.instrument = some (index, table) →
      (t.engine? index).map g = some e' →
      (∀ j, u.engine? j = if j = index then some e' else t.engine? j) →
      ∀ j, u.engine? j = if t.index? call = some j then (t.engine? j).map g else t.engine? j := by
    intro index table e' g hget hg hu j
    rw [hu, index?, hget, Option.map_some]
    by_cases hj : j = index
    · subst hj
      rw [if_pos rfl, if_pos rfl, hg]
    · rw [if_neg hj, if_neg fun heq => hj (Option.some.inj heq).symm]
  cases call with
  | initContract => exact absurd rfl hphase
  | insertAlpha instrument timestamp targetVolume =>
    obtain ⟨index, e, hget, hf, -, hoffset, hu⟩ := serve_eq_some h
    exact ⟨hoffset, hserved hget hf hu⟩
  | insertOrderLog instrument timestamp type direction volume priceOff =>
    obtain ⟨index, e, hget, hf, -, hoffset, hu⟩ := serve_eq_some h
    exact ⟨hoffset, hserved hget hf hu⟩

end TradeEngine

/-- **An engine gets the calls that reach it**, with the offset that the day ends with. -/
theorem Trading.engine?_run {calls : List Call} (h : Trading calls) {t u : TradeEngine}
    (hrun : t.run calls = some u) (j : ℕ) :
    u.timestampOffset = calls.foldl Call.offsetAfter t.timestampOffset ∧
      u.engine? j = (t.engine? j).map fun e => e.run ((t.reaching j calls).filterMap
        (Call.op? (calls.foldl Call.offsetAfter t.timestampOffset))) := by
  induction calls generalizing t with
  | nil =>
    obtain rfl := Option.some.inj hrun
    exact ⟨rfl, by simp [TradeEngine.reaching, ContractEngine.run_nil]⟩
  | cons call calls ih =>
    obtain ⟨t', happly, hrun⟩ := Option.bind_eq_some_iff.mp hrun
    obtain ⟨hoffset, hengine⟩ := TradeEngine.apply_eq_some (h.begun call List.mem_cons_self) happly
    obtain ⟨hlast, hfinal⟩ := ih h.of_cons hrun
    rw [hoffset] at hlast hfinal
    refine ⟨hlast, ?_⟩
    rw [hfinal, hengine, TradeEngine.reaching, happly, List.foldl_cons, ← h.offsetAfter]
    split
    · rw [Option.map_map, List.filterMap_append, Option.elim_some]
      congr 1
      funext e
      rw [ContractEngine.run_append]
      rfl
    · rfl

/-! ## The contracts -/

theorem InstrumentTable.lastContract_getOrInsertInstrument {t : InstrumentTable}
    {instrument : UInt64} {index : ℕ} {u : InstrumentTable}
    (h : t.getOrInsertInstrument instrument = some (index, u)) :
    u.lastContract = t.lastContract ∨
      index = t.lastContract ∧ u.lastContract = t.lastContract + 1 := by
  obtain ⟨p, -, h⟩ := Option.bind_eq_some_iff.mp h
  split at h
  · cases h
    exact .inl rfl
  · obtain ⟨v, hv, h⟩ := Option.map_eq_some_iff.mp h
    unfold setPair at hv
    split at hv
    · cases hv
      cases h
      exact .inr ⟨rfl, rfl⟩
    · cases hv

namespace TradeEngine

/-- Every index given out is that of an engine. -/
def Stocked (t : TradeEngine) : Prop := ∀ i < t.lastContract, ∃ e, t.engine? i = some e

theorem Stocked.serve {t u : TradeEngine} (ht : Stocked t) {instrument : UInt64}
    {f : Option (ContractEngine OrderHeap) → Option (ContractEngine OrderHeap)}
    (h : t.serve instrument f = some u) : Stocked u := by
  obtain ⟨index, e, hget, -, -, -, hu⟩ := serve_eq_some h
  intro i hi
  rw [hu]
  split
  · exact ⟨e, rfl⟩
  · next hne =>
    refine ht i ?_
    rcases InstrumentTable.lastContract_getOrInsertInstrument hget with hlast | ⟨rfl, hlast⟩
    · exact hlast ▸ hi
    · omega

theorem Stocked.apply {t u : TradeEngine} (ht : Stocked t) {call : Call}
    (h : t.apply call = some u) : Stocked u := by
  cases call with
  | initContract instrument prevClosePrice prevPosition =>
    unfold TradeEngine.apply TradeEngine.initContract at h
    exact ht.serve h
  | insertAlpha instrument timestamp targetVolume =>
    exact serve (t := { t with timestampOffset := alphaOffset t.timestampOffset timestamp }) ht h
  | insertOrderLog => exact ht.serve h

theorem Stocked.run {calls : List Call} {t u : TradeEngine} (ht : Stocked t)
    (h : t.run calls = some u) : Stocked u := by
  induction calls generalizing t with
  | nil => exact Option.some.inj h ▸ ht
  | cons call calls ih =>
    obtain ⟨t', happly, h⟩ := Option.bind_eq_some_iff.mp h
    exact ih (ht.apply happly) h

/-- The engines are as `initContract` makes them. -/
structure Fresh (session : ℤ × ℤ) (t : TradeEngine) : Prop where
  session_eq : t.session = session
  timestampOffset_eq : t.timestampOffset = -1
  engine : ∀ i e, t.engine? i = some e →
    e.plan.timestamps = [] ∧ e.sessionNum = session.1 ∧ e.sessionLength = session.2

theorem fresh_run {session : ℤ × ℤ} {inits : List Call} (hinits : ∀ call ∈ inits, call.phase = 0)
    {t u : TradeEngine} (ht : Fresh session t) (h : t.run inits = some u) : Fresh session u := by
  induction inits generalizing t with
  | nil => exact Option.some.inj h ▸ ht
  | cons call inits ih =>
    obtain ⟨t', happly, h⟩ := Option.bind_eq_some_iff.mp h
    refine ih (fun c hc => hinits c (List.mem_cons_of_mem _ hc)) ?_ h
    cases call with
    | initContract instrument prevClosePrice prevPosition =>
      unfold TradeEngine.apply initContract at happly
      obtain ⟨index, e, -, he, hsession, hoffset, hengine⟩ := serve_eq_some happly
      refine ⟨hsession.trans ht.session_eq, hoffset.trans ht.timestampOffset_eq,
        fun i e' he' => ?_⟩
      rw [hengine] at he'
      split at he'
      · obtain rfl := Option.some.inj (he.trans he')
        rw [ht.session_eq]
        exact ⟨rfl, rfl, rfl⟩
      · exact ht.engine i e' he'
    | insertAlpha | insertOrderLog => cases hinits _ List.mem_cons_self

theorem fresh_new (session : ℤ × ℤ) : Fresh session (new session) :=
  ⟨rfl, rfl, fun i e he => by
    unfold engine? at he
    split at he <;> cases he⟩

/-- After the last call, or after the contracts have been completed too. -/
def Finished (u v : TradeEngine) : Prop := v = u ∨ u.completeContracts = some v

theorem Finished.engine? {u v : TradeEngine} (h : Finished u v) (hu : Stocked u) :
    v.lastContract = u.lastContract ∧ v.timestampOffset = u.timestampOffset ∧
      ∃ ops : List ContractEngine.Op, ops.filterMap ContractEngine.Op.alpha? = [] ∧
        ∀ i < u.lastContract, v.engine? i = (u.engine? i).map fun e => e.run ops := by
  rcases h with rfl | h
  · exact ⟨rfl, rfl, [], rfl, fun i _ => by simp [ContractEngine.run_nil]⟩
  · obtain ⟨w, hw, hsame, hslot⟩ := completeContracts_spec u.lastContract hu
    obtain rfl : w = v := Option.some.inj (hw.symm.trans h)
    refine ⟨by rw [hsame], by rw [hsame], [.onComplete], rfl, fun i hi => ?_⟩
    rw [hslot, if_pos hi]
    rfl

end TradeEngine

/-! ## The rows of the slices -/

/-- The alpha of a call, with its own timestamp. -/
def Call.alpha? : Call → Option CompactAlpha
  | .insertAlpha _ timestamp targetVolume => some ⟨timestamp, targetVolume⟩
  | _ => none

/-- The slices of the alphas that reach the engine of index `j` and change its target: its
instrument, and the timestamp of the alpha plus `i * sessionLength * 1000` for slice `i`. -/
def slicesAt (session : ℤ × ℤ) (t : TradeEngine) (calls : List Call) (j : ℕ) : List (UInt64 × ℤ) :=
  (t.engine? j).elim [] fun e =>
    ((ContractEngine.effectiveAlphas e.targetVolume
        ((t.reaching j calls).filterMap Call.alpha?)).flatMap
      (ContractEngine.sliceTimes session.1 session.2)).map fun time => (e.instrument, time)

/-- The instrument and the time of a row. -/
def TwapOrder.slice (row : TwapOrder) : UInt64 × ℤ := (row.instrumentId, row.timestamp)

theorem map_slice_twapRows (timestampOffset : ℤ) (e : ContractEngine OrderHeap) :
    (twapRows timestampOffset e).map TwapOrder.slice =
      e.plan.timestamps.map fun time => (e.instrument, time + timestampOffset) := by
  rw [twapRows, ContractEngine.Plan.timestamps, List.map_map, List.map_map]
  rfl

/-- Where narrowing changes nothing, the engines get the alphas with the offset taken off. -/
theorem filterMap_alpha?_op? {timestampOffset : ℤ} {calls : List Call}
    (hexact : ∀ call ∈ calls, ∀ alpha ∈ call.alpha?,
      toInt (alpha.timestamp - timestampOffset) = alpha.timestamp - timestampOffset) :
    (calls.filterMap (Call.op? timestampOffset)).filterMap ContractEngine.Op.alpha? =
      (calls.filterMap Call.alpha?).map (ContractEngine.advance timestampOffset) := by
  rw [List.filterMap_filterMap, List.map_filterMap]
  refine List.filterMap_congr fun call hcall => ?_
  cases call with
  | initContract => rfl
  | insertOrderLog => rfl
  | insertAlpha instrument timestamp targetVolume =>
    have h := hexact _ hcall _ rfl
    simp only [Call.op?, compactAlpha, Call.alpha?, Option.bind_some, Option.map_some,
      ContractEngine.Op.alpha?, ContractEngine.advance, h]

/-- The rows of an engine that starts fresh and gets `calls`, then operations without an alpha. -/
theorem map_slice_twapRows_run {session : ℤ × ℤ} {timestampOffset : ℤ} {calls : List Call}
    {e : ContractEngine OrderHeap}
    (he : e.plan.timestamps = [] ∧ e.sessionNum = session.1 ∧ e.sessionLength = session.2)
    {ops : List ContractEngine.Op} (hops : ops.filterMap ContractEngine.Op.alpha? = [])
    (hexact : ∀ call ∈ calls, ∀ alpha ∈ call.alpha?,
      toInt (alpha.timestamp - timestampOffset) = alpha.timestamp - timestampOffset) :
    (twapRows timestampOffset ((e.run (calls.filterMap (Call.op? timestampOffset))).run ops)).map
        TwapOrder.slice =
      ((ContractEngine.effectiveAlphas e.targetVolume (calls.filterMap Call.alpha?)).flatMap
        (ContractEngine.sliceTimes session.1 session.2)).map fun time => (e.instrument, time) := by
  obtain ⟨htimes, hnum, hlength⟩ := he
  rw [map_slice_twapRows, ← ContractEngine.run_append, ContractEngine.instrument_run,
    ContractEngine.timestamps_run, htimes, hnum, hlength, List.filterMap_append, hops,
    List.append_nil, List.nil_append, filterMap_alpha?_op? hexact,
    ContractEngine.effectiveAlphas_advance, List.flatMap_map, List.map_flatMap,
    List.map_flatMap]
  -- The offset that each slice time lost comes back in the row.
  refine List.flatMap_congr fun alpha _ => ?_
  rw [ContractEngine.sliceTimes_advance, List.map_map]
  exact List.map_congr_left fun time _ => by simp

theorem exists_mapM_flatMap {α β γ : Type} {f : α → Option β} {l : List α}
    (h : ∀ a ∈ l, ∃ b, f a = some b) :
    ∃ r, l.mapM f = some r ∧ ∀ k : β → List γ, r.flatMap k = l.flatMap fun a => (f a).elim [] k := by
  induction l with
  | nil => exact ⟨[], rfl, fun _ => rfl⟩
  | cons a l ih =>
    obtain ⟨b, hb⟩ := h a List.mem_cons_self
    obtain ⟨r, hr, hflat⟩ := ih fun a' ha' => h a' (List.mem_cons_of_mem _ ha')
    refine ⟨b :: r, ?_, fun k => ?_⟩
    · rw [List.mapM_cons, hb, hr]
      rfl
    · rw [List.flatMap_cons, List.flatMap_cons, hb, hflat, Option.elim_some]

/-- **The report has the slices of the alphas**, if narrowing changes no alpha. -/
theorem Trading.report {calls : List Call} (h : Trading calls) {session : ℤ × ℤ}
    {t u v : TradeEngine} (hfresh : TradeEngine.Fresh session t) (hstocked : t.Stocked)
    (hrun : t.run calls = some u) (hfinished : u.Finished v)
    (hexact : ∀ call ∈ calls, ∀ alpha ∈ call.alpha?,
      toInt (alpha.timestamp - offset calls) = alpha.timestamp - offset calls) :
    v.timestampOffset = offset calls ∧ ∃ rows, v.getTWAPOrders = some rows ∧
      (rows.map TwapOrder.slice).Perm
        ((List.range u.lastContract).flatMap (slicesAt session t calls)) := by
  have hstock := hstocked.run hrun
  obtain ⟨hlast, hoffset, ops, hops, hcompleted⟩ := hfinished.engine? hstock
  have hday : u.timestampOffset = offset calls := by
    rw [(h.engine?_run hrun 0).1, hfresh.timestampOffset_eq, offset]
  rw [hday] at hoffset
  have hall : ∀ i ∈ List.range v.lastContract, ∃ e, v.engine? i = some e := fun i hi => by
    rw [hlast, List.mem_range] at hi
    obtain ⟨e, he⟩ := hstock i hi
    exact ⟨_, by rw [hcompleted i hi, he, Option.map_some]⟩
  obtain ⟨engines, hcontracts, hflat⟩ := exists_mapM_flatMap (γ := TwapOrder) hall
  obtain ⟨rows, hrows, hperm⟩ := TradeEngine.getTWAPOrders_perm hcontracts
  refine ⟨hoffset, rows, hrows, (hperm.map TwapOrder.slice).trans (.of_eq ?_)⟩
  rw [hflat, hlast, hoffset, List.map_flatMap]
  refine List.flatMap_congr fun i hi => ?_
  rw [List.mem_range] at hi
  have hengine := (h.engine?_run hrun i).2
  rw [hfresh.timestampOffset_eq, ← offset] at hengine
  rw [hcompleted i hi, hengine, slicesAt]
  cases he : t.engine? i with
  | none => rfl
  | some e =>
    exact map_slice_twapRows_run (hfresh.engine i e he) hops fun call hcall =>
      hexact call (TradeEngine.mem_of_mem_reaching hcall)

/-! ## When nothing is lost -/

/-- **Compaction loses nothing**, for calls that come after any `initContract` calls. -/
structure Lossless (session : ℤ × ℤ) (calls : List Call) : Prop where
  /-- A timestamp less the offset is a `long long`. -/
  fits : ∀ a ∈ stamps (-1) calls, -(2 ^ 63) ≤ a.raw - a.offset ∧ a.raw - a.offset < 2 ^ 63
  /-- What is handed on compares as the timestamps of the calls do. -/
  compare_eq : ∀ a ∈ stamps (-1) calls, ∀ b ∈ stamps (-1) calls,
    compare a.compact b.compact = compare a.raw b.raw
  /-- The report has the slices of the alphas of every contract, and no `int` was left for it. -/
  report : ∀ inits, (∀ call ∈ inits, call.phase = 0) → ∀ t u v,
    (TradeEngine.new session).run inits = some t → t.run calls = some u → u.Finished v →
      ∃ rows, v.getTWAPOrders = some rows ∧
        (rows.map TwapOrder.slice).Perm
          ((List.range u.lastContract).flatMap (slicesAt session t calls)) ∧
        ∀ row ∈ rows, -2147483648 ≤ row.timestamp - v.timestampOffset ∧
          row.timestamp - v.timestampOffset ≤ maxInt

/-- With the mark `-1` taken off, the timestamps are `long long`s of one block. -/
def SameBlock (l : List ℤ) : Prop :=
  (∀ x ∈ l, x + 1 < 2 ^ 63) ∧ ∀ x ∈ l, ∀ y ∈ l, intBlock (x + 1) = intBlock (y + 1)

instance (l : List ℤ) : Decidable (SameBlock l) := inferInstanceAs (Decidable (_ ∧ _))

theorem mem_timestamps_of_mem_alpha? {calls : List Call} {call : Call} {alpha : CompactAlpha}
    (hcall : call ∈ calls) (halpha : alpha ∈ call.alpha?) : alpha.timestamp ∈ timestamps calls := by
  refine List.mem_filterMap.mpr ⟨call, hcall, ?_⟩
  cases call with
  | insertAlpha => cases halpha; rfl
  | initContract | insertOrderLog => cases halpha

/-- A slice is that of an alpha of the calls. -/
theorem mem_slicesAt {session : ℤ × ℤ} {t : TradeEngine} {calls : List Call} {j : ℕ}
    {slice : UInt64 × ℤ} (h : slice ∈ slicesAt session t calls j) :
    ∃ call ∈ calls, ∃ alpha ∈ call.alpha?, ∃ i : ℕ, (i : ℤ) < session.1 ∧
      slice.2 = alpha.timestamp + i * session.2 * 1000 := by
  unfold slicesAt at h
  cases he : t.engine? j with
  | none => rw [he] at h; cases h
  | some e =>
    rw [he, Option.elim_some] at h
    obtain ⟨time, htime, rfl⟩ := List.mem_map.mp h
    obtain ⟨alpha, halpha, htime⟩ := List.mem_flatMap.mp htime
    obtain ⟨i, hi, rfl⟩ := List.mem_map.mp htime
    obtain ⟨call, hcall, halpha⟩ :=
      List.mem_filterMap.mp (ContractEngine.mem_of_mem_effectiveAlphas halpha)
    rw [List.mem_range] at hi
    exact ⟨call, TradeEngine.mem_of_mem_reaching hcall, alpha, halpha, i, by omega, rfl⟩

section lossless
variable {session : ℤ × ℤ} {calls : List Call} (h : Trading calls)

include h in
theorem Trading.mem_stamps {a : Stamp} : a ∈ stamps (-1) calls ↔
    ∃ x ∈ timestamps calls, a = Stamp.of (offset calls) x := by
  rw [h.stamps_eq, offset, List.mem_map]
  simp only [eq_comm]

include h in
/-- The order is kept just if all timestamps less the offset are of one block. -/
theorem Trading.compare_eq_iff
    (hwindow : ∀ x ∈ timestamps calls, ∀ y ∈ timestamps calls, x - y < 2 ^ 31) :
    (∀ a ∈ stamps (-1) calls, ∀ b ∈ stamps (-1) calls,
        compare a.compact b.compact = compare a.raw b.raw) ↔
      ∀ x ∈ timestamps calls, ∀ y ∈ timestamps calls,
        intBlock (x - offset calls) = intBlock (y - offset calls) := by
  have hpair : ∀ x ∈ timestamps calls, ∀ y ∈ timestamps calls,
      (compare (toInt (x - offset calls)) (toInt (y - offset calls)) = compare x y ↔
        intBlock (x - offset calls) = intBlock (y - offset calls)) := fun x hx y hy => by
    have hxy := hwindow x hx y hy
    have hyx := hwindow y hy x hx
    have hsame : compare (x - offset calls) (y - offset calls) = compare x y := by
      rcases lt_trichotomy x y with h | rfl | h
      · rw [compare_lt_iff_lt.mpr h, compare_lt_iff_lt]
        omega
      · simp
      · rw [compare_gt_iff_gt.mpr h, compare_gt_iff_gt]
        omega
    rw [← hsame]
    exact compare_toInt_iff (by omega) (by omega)
  constructor
  · intro hcompare x hx y hy
    exact (hpair x hx y hy).mp
      (hcompare _ (h.mem_stamps.mpr ⟨x, hx, rfl⟩) _ (h.mem_stamps.mpr ⟨y, hy, rfl⟩))
  · intro hblock a ha b hb
    obtain ⟨x, hx, rfl⟩ := h.mem_stamps.mp ha
    obtain ⟨y, hy, rfl⟩ := h.mem_stamps.mp hb
    exact (hpair x hx y hy).mpr (hblock x hx y hy)

end lossless

/-- The first alpha sets the offset. -/
theorem offset_mem {alphas logs : List Call} (hne : alphas ≠ [])
    (halphas : ∀ call ∈ alphas, call.phase = 1)
    (hpos : ∀ x ∈ timestamps (alphas ++ logs), 0 < x) :
    offset (alphas ++ logs) ∈ timestamps (alphas ++ logs) := by
  cases alphas with
  | nil => exact absurd rfl hne
  | cons call alphas =>
    cases call with
    | initContract | insertOrderLog => cases halphas _ List.mem_cons_self
    | insertAlpha instrument timestamp targetVolume =>
      have hmem : timestamp ∈ timestamps (.insertAlpha instrument timestamp targetVolume ::
          (alphas ++ logs)) := List.mem_cons_self
      have hset : Call.offsetAfter (-1) (.insertAlpha instrument timestamp targetVolume) =
          timestamp := by simp [Call.offsetAfter, alphaOffset]
      have hoffset : offset (.insertAlpha instrument timestamp targetVolume ::
          (alphas ++ logs)) = timestamp := by
        rw [offset, List.foldl_cons, hset]
        exact foldl_offsetAfter_of_ne (by have := hpos _ hmem; omega) _
      rw [List.cons_append, hoffset]
      exact hmem

/-- Without an alpha the offset is the mark that it is not set. -/
theorem offset_of_logs {logs : List Call} (hlogs : ∀ call ∈ logs, call.phase = 2) :
    offset logs = -1 :=
  foldl_offsetAfter_of_phase _ fun call hcall => by rw [hlogs call hcall]; decide

/-- Alphas, then order logs, with positive 64-bit timestamps that all lie in one window shorter
than `2 ^ 31` less the span of the session. -/
structure Window (session : ℤ × ℤ) (alphas logs : List Call) : Prop where
  sessionNum_pos : 0 < session.1
  sessionLength_nonneg : 0 ≤ session.2
  phase_alphas : ∀ call ∈ alphas, call.phase = 1
  phase_logs : ∀ call ∈ logs, call.phase = 2
  raw : ∀ x ∈ timestamps (alphas ++ logs), 0 < x ∧ x < 2 ^ 63
  short : ∀ x ∈ timestamps (alphas ++ logs), ∀ y ∈ timestamps (alphas ++ logs),
    x - y < 2 ^ 31 - (session.1 - 1) * session.2 * 1000

section Window
variable {session : ℤ × ℤ} {alphas logs : List Call} (h : Window session alphas logs)
include h

theorem Window.trading : Trading (alphas ++ logs) where
  begun call hcall := by
    rcases List.mem_append.mp hcall with hcall | hcall
    · exact (h.phase_alphas call hcall).trans_ne (by decide)
    · exact (h.phase_logs call hcall).trans_ne (by decide)
  phases := by
    refine List.pairwise_append.mpr ⟨List.pairwise_of_forall_mem_list fun a ha b hb => ?_,
      List.pairwise_of_forall_mem_list fun a ha b hb => ?_, fun a ha b hb => ?_⟩
    · rw [h.phase_alphas a ha, h.phase_alphas b hb]
    · rw [h.phase_logs a ha, h.phase_logs b hb]
    · rw [h.phase_alphas a ha, h.phase_logs b hb]
      decide
  positive x hx := (h.raw x hx).1

theorem Window.span_nonneg : 0 ≤ (session.1 - 1) * session.2 * 1000 := by
  have hnum : 0 ≤ session.1 - 1 := Int.sub_nonneg_of_le h.sessionNum_pos
  have hlength := h.sessionLength_nonneg
  positivity

theorem Window.short' : ∀ x ∈ timestamps (alphas ++ logs), ∀ y ∈ timestamps (alphas ++ logs),
    x - y < 2 ^ 31 := fun x hx y hy => by
  have := h.short x hx y hy
  have := h.span_nonneg
  omega

/-- The slices of an alpha that is close to the offset fit in an `int`. -/
theorem Window.slice_fits {c x : ℤ} (hc : c ∈ timestamps (alphas ++ logs))
    (hx : x ∈ timestamps (alphas ++ logs)) {i : ℕ} (hi : (i : ℤ) < session.1) :
    -2147483648 ≤ x + i * session.2 * 1000 - c ∧ x + i * session.2 * 1000 - c ≤ maxInt := by
  have hle : (i : ℤ) * session.2 ≤ (session.1 - 1) * session.2 :=
    mul_le_mul_of_nonneg_right (by omega) h.sessionLength_nonneg
  have hnonneg : 0 ≤ (i : ℤ) * session.2 :=
    mul_nonneg (Int.natCast_nonneg i) h.sessionLength_nonneg
  have hupper := h.short x hx c hc
  have hlower := h.short' c hc x hx
  unfold maxInt
  omega

/-- **Nothing is lost on a day with an alpha.** -/
theorem Window.lossless_of_alpha (hne : alphas ≠ []) : Lossless session (alphas ++ logs) := by
  have hmem := offset_mem hne h.phase_alphas fun x hx => (h.raw x hx).1
  have hblock : ∀ x ∈ timestamps (alphas ++ logs), intBlock (x - offset (alphas ++ logs)) = 0 :=
    fun x hx => by
      have := h.short' x hx _ hmem
      have := h.short' _ hmem x hx
      unfold intBlock
      omega
  refine ⟨fun a ha => ?_, (h.trading.compare_eq_iff h.short').mpr fun x hx y hy => ?_,
    fun inits hinits t u v ht hu hv => ?_⟩
  · obtain ⟨x, hx, rfl⟩ := h.trading.mem_stamps.mp ha
    have := h.short' x hx _ hmem
    have := h.short' _ hmem x hx
    simp only [Stamp.of]
    omega
  · rw [hblock x hx, hblock y hy]
  · obtain ⟨hoffset, rows, hrows, hperm⟩ := h.trading.report
      (TradeEngine.fresh_run hinits (TradeEngine.fresh_new session) ht)
      (TradeEngine.Stocked.run (fun _ hi => absurd hi (Nat.not_lt_zero _)) ht) hu hv
      fun call hcall alpha halpha => by
        rw [toInt_eq, hblock _ (mem_timestamps_of_mem_alpha? hcall halpha)]
        ring
    refine ⟨rows, hrows, hperm, fun row hrow => ?_⟩
    obtain ⟨j, -, hslice⟩ := List.mem_flatMap.mp (hperm.mem_iff.mp (List.mem_map_of_mem hrow))
    obtain ⟨call, hcall, alpha, halpha, i, hi, htime⟩ := mem_slicesAt hslice
    rw [hoffset, show row.timestamp = _ from htime]
    exact h.slice_fits hmem (mem_timestamps_of_mem_alpha? hcall halpha) hi

end Window

/-- **Nothing is lost on a day of order logs** just if their timestamps are of one block. -/
theorem Window.lossless_of_logs {session : ℤ × ℤ} {logs : List Call}
    (h : Window session [] logs) : Lossless session logs ↔ SameBlock (timestamps logs) := by
  have htrading : Trading logs := h.trading
  have hoffset := offset_of_logs h.phase_logs
  have hcompare := htrading.compare_eq_iff h.short'
  simp only [hoffset, sub_neg_eq_add] at hcompare
  have hfits : (∀ a ∈ stamps (-1) logs, -(2 ^ 63) ≤ a.raw - a.offset ∧ a.raw - a.offset < 2 ^ 63) ↔
      ∀ x ∈ timestamps logs, x + 1 < 2 ^ 63 := by
    constructor
    · intro hfits x hx
      have hraw := (hfits _ (htrading.mem_stamps.mpr ⟨x, hx, rfl⟩)).2
      simpa [Stamp.of, hoffset] using hraw
    · intro hfits a ha
      obtain ⟨x, hx, rfl⟩ := htrading.mem_stamps.mp ha
      have hpos := (h.raw x hx).1
      have := hfits x hx
      simp only [Stamp.of, hoffset]
      omega
  have hnone : ∀ call ∈ logs, call.alpha? = none := fun call hcall => by
    have hphase := h.phase_logs call hcall
    cases call with
    | insertAlpha => cases hphase
    | initContract | insertOrderLog => rfl
  constructor
  · intro hlossless
    exact ⟨hfits.mp hlossless.fits, hcompare.mp hlossless.compare_eq⟩
  · rintro ⟨hsmall, hblock⟩
    refine ⟨hfits.mpr hsmall, hcompare.mpr hblock, fun inits hinits t u v ht hu hv => ?_⟩
    obtain ⟨-, rows, hrows, hperm⟩ := htrading.report
      (TradeEngine.fresh_run hinits (TradeEngine.fresh_new session) ht)
      (TradeEngine.Stocked.run (fun _ hi => absurd hi (Nat.not_lt_zero _)) ht) hu hv
      fun call hcall alpha halpha => by
        rw [hnone call hcall] at halpha
        cases halpha
    refine ⟨rows, hrows, hperm, fun row hrow => ?_⟩
    obtain ⟨j, -, hslice⟩ := List.mem_flatMap.mp (hperm.mem_iff.mp (List.mem_map_of_mem hrow))
    obtain ⟨call, hcall, alpha, halpha, -⟩ := mem_slicesAt hslice
    rw [hnone call hcall] at halpha
    cases halpha

/-- **When compaction loses nothing**: on a day with an alpha, and on one without just if the
timestamps with the mark taken off are of one block. -/
theorem lossless_iff {session : ℤ × ℤ} {alphas logs : List Call}
    (h : Window session alphas logs) :
    Lossless session (alphas ++ logs) ↔ alphas ≠ [] ∨ SameBlock (timestamps logs) := by
  cases alphas with
  | nil =>
    rw [List.nil_append, h.lossless_of_logs]
    simp
  | cons call alphas =>
    exact iff_of_true (h.lossless_of_alpha (List.cons_ne_nil _ _)) (.inl (List.cons_ne_nil _ _))

/-- An order before the first alpha, and one after it. -/
theorem lossless_of_early_order :
    Lossless (3, 1) [.insertAlpha 1 100000 5, .insertOrderLog 1 99000 0 (-1) 5 (1 / 100),
      .insertOrderLog 1 101500 0 1 5 (1 / 100)] := by
  have h : Window (3, 1) [.insertAlpha 1 100000 5] [.insertOrderLog 1 99000 0 (-1) 5 (1 / 100),
      .insertOrderLog 1 101500 0 1 5 (1 / 100)] :=
    ⟨by decide, by decide, by decide, by decide, by decide, by decide⟩
  exact (lossless_iff h).mpr (.inl (by decide))

/-- Two orders of neighbouring timestamps, on a day without an alpha: the later one comes to its
engine with the smallest `int`. -/
theorem not_lossless_of_unset : ¬ ∀ (session : ℤ × ℤ) (alphas logs : List Call),
    Window session alphas logs → Lossless session (alphas ++ logs) := by
  intro h
  have hwindow : Window (3, 1) [] [.insertOrderLog 1 2147483646 0 (-1) 5 0,
      .insertOrderLog 1 2147483647 0 1 5 0] :=
    ⟨by decide, by decide, by decide, by decide, by decide, by decide⟩
  have hcompare := (h _ _ _ hwindow).compare_eq ⟨2147483646, -1, 2147483647⟩ (by decide)
    ⟨2147483647, -1, -2147483648⟩ (by decide)
  exact absurd hcompare (by decide)

end MatchingEngine
