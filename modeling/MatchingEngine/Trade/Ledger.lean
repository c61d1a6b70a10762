import Mathlib
import MatchingEngine.Trade.Isolation

/-!
# What each engine gets

A ledger keeps, for the engine at each index, the `initContract` that made it and the calls that it
got since then.  The state of a trade engine is a function of its ledger, whatever its arithmetic.

Where an instrument is not found where it is, it gets a new index, and the engine at the old one is
left behind.  But indices are never mixed up: an engine gets calls of its own instrument only.

## Main definitions

* `Keyed` — every index in the table is of one instrument.
* `serveAt`, `serveAt_map` — what a trade engine does with what is at its indices.
* `Entry`, `Ledger` — what an engine got, and what all of them got.
* `run_tradeEngine` — the state of a trade engine is that of its ledger.
* `Entry.Of` — the calls that an engine got are calls of its instrument, in their order.
* `engines_unmixed` — no engine gets a call of another instrument.
-/

namespace MatchingEngine

namespace InstrumentTable

/-! ## Indices -/

/-- An index is one that the home slot holds, or a new one. -/
theorem getOrInsertInstrument_cases {t : InstrumentTable} {instrument : UInt64}
    {r : ℕ × InstrumentTable} (h : t.getOrInsertInstrument instrument = some r) :
    (∃ i, t.contractPairs i = (instrument, r.1) ∧ r.2 = t) ∨
      r.1 = t.lastContract ∧ ∃ i, r.2 = t.register instrument i := by
  by_cases hhome : (t.contractPairs (homeSlot instrument)).1 = instrument
  · rw [getOrInsertInstrument_of_home hhome] at h
    obtain rfl := Option.some.inj h
    exact .inl ⟨homeSlot instrument, Prod.ext hhome rfl, rfl⟩
  · by_cases hlt : t.probe instrument (home instrument) < mod
    · rw [getOrInsertInstrument_of_lt hhome hlt] at h
      obtain rfl := Option.some.inj h
      exact .inr ⟨rfl, _, rfl⟩
    · rw [getOrInsertInstrument_of_ge hhome hlt] at h
      cases h

/-- Every index in the table is of one instrument, which owns what is at it. -/
structure Keyed (t : InstrumentTable) (owner : Fin maxContractNum → Option UInt64) : Prop where
  index_lt : ∀ i, (t.contractPairs i).1 ≠ 0 → (t.contractPairs i).2 < t.lastContract
  key : ∀ i j, (t.contractPairs i).1 ≠ 0 → (t.contractPairs j).1 ≠ 0 →
    (t.contractPairs i).2 = (t.contractPairs j).2 → (t.contractPairs i).1 = (t.contractPairs j).1
  owned : ∀ i, (t.contractPairs i).1 ≠ 0 → ∀ k : Fin maxContractNum,
    (t.contractPairs i).2 = k.val → ∀ x ∈ owner k, x = (t.contractPairs i).1
  unused : ∀ k : Fin maxContractNum, t.lastContract ≤ k.val → owner k = none

theorem keyed_new : Keyed new fun _ => none :=
  ⟨fun _ h => absurd rfl h, fun _ _ h => absurd rfl h, fun _ h => absurd rfl h, fun _ _ => rfl⟩

section
variable {t : InstrumentTable} {owner : Fin maxContractNum → Option UInt64} (h : Keyed t owner)
  {x : UInt64} {k : Fin maxContractNum}
include h

/-- The instrument of a slot owns what is at its index. -/
theorem Keyed.found {i : Fin mod} (hx : x ≠ 0) (hi : t.contractPairs i = (x, k.val)) :
    (∀ y ∈ owner k, y = x) ∧ Keyed t (Function.update owner k (some x)) := by
  have hne : (t.contractPairs i).1 ≠ 0 := by rwa [hi]
  have hlt := h.index_lt i hne
  rw [hi] at hlt
  refine ⟨fun y hy => ?_, h.index_lt, h.key, fun j hj l hl y hy => ?_, fun l hl => ?_⟩
  · rw [h.owned i hne k (by rw [hi]) y hy, hi]
  · by_cases heq : l = k
    · subst heq
      have hkey := h.key j i hj hne (by rw [hl, hi])
      rw [Function.update_self, Option.mem_some_iff] at hy
      rw [hkey, hi, hy]
    · rw [Function.update_of_ne heq] at hy
      exact h.owned j hj l hl y hy
  · have heq : l ≠ k := fun heq => by
      rw [heq] at hl
      exact hlt.not_ge hl
    rw [Function.update_of_ne heq]
    exact h.unused l hl

/-- A new index is of no other instrument. -/
theorem Keyed.register (hk : k.val = t.lastContract) (i : Fin mod) :
    owner k = none ∧ Keyed (t.register x i) (Function.update owner k (some x)) := by
  have hpair : ∀ j, (t.register x i).contractPairs j =
      if j = i then (x, t.lastContract) else t.contractPairs j := fun j => by
    by_cases hj : j = i
    · subst hj
      rw [if_pos rfl]
      exact Function.update_self ..
    · rw [if_neg hj]
      exact Function.update_of_ne hj ..
  have hlast : (t.register x i).lastContract = t.lastContract + 1 := rfl
  refine ⟨h.unused k hk.ge, fun j hj => ?_, fun j l hj hl heq => ?_, fun j hj l hl y hy => ?_,
    fun l hl => ?_⟩
  · rw [hpair] at hj ⊢
    rw [hlast]
    split at hj
    · next heq => rw [if_pos heq]; exact Nat.lt_succ_self _
    · next hne => rw [if_neg hne]; exact (h.index_lt j hj).trans (Nat.lt_succ_self _)
  · rw [hpair, hpair] at heq ⊢
    rw [hpair] at hj hl
    -- The new index is at one slot, and larger than the others.
    split at hj <;> split at hl
    · next h1 h2 => rw [if_pos h1, if_pos h2]
    · next h1 h2 =>
      rw [if_pos h1, if_neg h2] at heq
      exact absurd heq (h.index_lt l hl).ne'
    · next h1 h2 =>
      rw [if_neg h1, if_pos h2] at heq
      exact absurd heq (h.index_lt j hj).ne
    · next h1 h2 =>
      rw [if_neg h1, if_neg h2] at heq ⊢
      exact h.key j l hj hl heq
  · rw [hpair] at hj hl ⊢
    split at hj
    · next heq =>
      rw [if_pos heq] at hl ⊢
      obtain rfl : l = k := Fin.ext (hl.symm.trans hk.symm)
      rw [Function.update_self, Option.mem_some_iff] at hy
      exact hy.symm
    · next hne =>
      rw [if_neg hne] at hl ⊢
      have hlt := h.index_lt j hj
      have hother : l ≠ k := fun heq => by
        rw [hl, heq, hk] at hlt
        exact lt_irrefl _ hlt
      rw [Function.update_of_ne hother] at hy
      exact h.owned j hj l hl y hy
  · rw [hlast] at hl
    have hother : l ≠ k := fun heq => by
      rw [heq, hk] at hl
      exact Nat.not_succ_le_self _ hl
    rw [Function.update_of_ne hother]
    exact h.unused l ((Nat.le_succ _).trans hl)

/-- **An index that is looked up** is of the instrument, and of no other one afterwards. -/
theorem Keyed.getOrInsertInstrument {r : ℕ × InstrumentTable} (hx : x ≠ 0)
    (hr : t.getOrInsertInstrument x = some r) (hlt : r.1 < maxContractNum) :
    (∀ y ∈ owner ⟨r.1, hlt⟩, y = x) ∧ Keyed r.2 (Function.update owner ⟨r.1, hlt⟩ (some x)) := by
  rcases getOrInsertInstrument_cases hr with ⟨i, hi, htable⟩ | ⟨hlast, i, htable⟩
  · rw [htable]
    exact h.found hx hi
  · obtain ⟨hnone, hkeyed⟩ := h.register (x := x) (k := ⟨r.1, hlt⟩) hlast i
    rw [htable]
    exact ⟨fun y hy => absurd (hnone ▸ hy) (Option.not_mem_none y), hkeyed⟩

end

/-! ## What is at the indices -/

section serveAt
variable {E F S T : Type}

/-- Let `f` act on what is at the index of an instrument; `make` makes the state of the table and
of what is at the indices then. -/
def serveAt (t : InstrumentTable) (place : Fin maxContractNum → Option E)
    (make : InstrumentTable → (Fin maxContractNum → Option E) → T) (instrument : UInt64)
    (f : Option E → Option E) : Option T :=
  (t.getOrInsertInstrument instrument).bind fun r =>
    if h : r.1 < maxContractNum then
      (f (place ⟨r.1, h⟩)).map fun e => make r.2 (Function.update place ⟨r.1, h⟩ (some e))
    else none

/-- What is at the indices may be replaced by what it stands for. -/
theorem serveAt_map (t : InstrumentTable) (φ : E → F) (place : Fin maxContractNum → Option E)
    (make : InstrumentTable → (Fin maxContractNum → Option E) → S)
    (make' : InstrumentTable → (Fin maxContractNum → Option F) → T) (ψ : S → T)
    (hmake : ∀ table place, ψ (make table place) = make' table fun k => (place k).map φ)
    (instrument : UInt64) {f : Option F → Option F} {g : Option E → Option E}
    (hfg : ∀ e, f (e.map φ) = (g e).map φ) :
    t.serveAt (fun k => (place k).map φ) make' instrument f =
      (t.serveAt place make instrument g).map ψ := by
  rw [serveAt, serveAt]
  cases t.getOrInsertInstrument instrument with
  | none => rfl
  | some r =>
    simp only [Option.bind_some]
    split
    · next hlt =>
      rw [hfg]
      cases g (place ⟨r.1, hlt⟩) with
      | none => rfl
      | some e =>
        have hupdate : Function.update (fun k => (place k).map φ) ⟨r.1, hlt⟩ (some (φ e)) =
            fun k => (Function.update place ⟨r.1, hlt⟩ (some e) k).map φ :=
          (Function.comp_update (Option.map φ) place ⟨r.1, hlt⟩ (some e)).symm
        simp only [Option.map_some, hupdate, hmake]
    · rfl

end serveAt

end InstrumentTable

/-! ## Ledgers -/

/-- What an engine got: an `initContract`, and calls with the offsets that they came with. -/
structure Entry where
  instrument : UInt64
  info : CompactPrevTradeInfo
  served : List (ℤ × Call)

namespace Entry

/-- One more call. -/
def serve (a : Entry) (timestampOffset : ℤ) (call : Call) : Entry :=
  { a with served := a.served ++ [(timestampOffset, call)] }

/-- The operations that the calls were for the engine. -/
def ops (a : Entry) : List ContractEngine.Op := a.served.filterMap fun q => q.2.op? q.1

theorem ops_serve (a : Entry) {timestampOffset : ℤ} {call : Call} {op : ContractEngine.Op}
    (hop : call.op? timestampOffset = some op) :
    (a.serve timestampOffset call).ops = a.ops ++ [op] := by
  simp [ops, serve, hop]

/-- The engine. -/
def engine {A : Arithmetic} (session : ℤ × ℤ) (a : Entry) : ContractEngine OrderHeap A :=
  (ContractEngine.new session.1 session.2 a.info a.instrument).run a.ops

/-- The engine is that of the entry, whatever it gets. -/
theorem engine_serve {A : Arithmetic} (session : ℤ × ℤ) (a : Entry) {timestampOffset : ℤ}
    {call : Call} {op : ContractEngine.Op} (hop : call.op? timestampOffset = some op) :
    ((a.serve timestampOffset call).engine session : ContractEngine OrderHeap A) =
      (a.engine session).apply op := by
  rw [engine, ops_serve a hop, ContractEngine.run, List.foldl_append]
  rfl

end Entry

/-- A trade engine that writes down what its engines get. -/
structure Ledger extends InstrumentTable where
  timestampOffset : ℤ
  entries : Fin maxContractNum → Option Entry

namespace Ledger

def new : Ledger := ⟨InstrumentTable.new, -1, fun _ => none⟩

/-- Look the instrument up and let `f` act on the entry at its index. -/
def serve (t : Ledger) (instrument : UInt64) (f : Option Entry → Option Entry) : Option Ledger :=
  t.serveAt t.entries (fun table entries => ⟨table, t.timestampOffset, entries⟩) instrument f

def apply (t : Ledger) : Call → Option Ledger
  | .initContract instrument prevClosePrice prevPosition =>
    t.serve instrument fun _ => some ⟨instrument, ⟨prevClosePrice, prevPosition⟩, []⟩
  | .insertAlpha instrument timestamp targetVolume =>
    let t := { t with timestampOffset := alphaOffset t.timestampOffset timestamp }
    t.serve instrument fun a =>
      a.map fun a => a.serve t.timestampOffset (.insertAlpha instrument timestamp targetVolume)
  | .insertOrderLog instrument timestamp type direction volume priceOff =>
    t.serve instrument fun a => a.map fun a => a.serve t.timestampOffset
      (.insertOrderLog instrument timestamp type direction volume priceOff)

/-- The ledger after a list of calls. -/
def run (t : Ledger) : List Call → Option Ledger
  | [] => some t
  | call :: calls => (t.apply call).bind fun t => t.run calls

section tradeEngine
variable {A : Arithmetic} (session : ℤ × ℤ)

/-- The state of the trade engine with this ledger. -/
def tradeEngine (t : Ledger) : TradeEngine A where
  toInstrumentTable := t.toInstrumentTable
  session := session
  timestampOffset := t.timestampOffset
  contractEngines k := (t.entries k).map (Entry.engine session)

theorem serve_tradeEngine (t : Ledger) (instrument : UInt64)
    {f : Option (ContractEngine OrderHeap A) → Option (ContractEngine OrderHeap A)}
    {g : Option Entry → Option Entry}
    (hfg : ∀ a, f (a.map (Entry.engine session)) = (g a).map (Entry.engine session)) :
    (t.tradeEngine session).serve instrument f =
      (t.serve instrument g).map (tradeEngine session) :=
  t.serveAt_map (Entry.engine session) t.entries
    (fun table entries => Ledger.mk table t.timestampOffset entries)
    (fun table engines => TradeEngine.mk table session t.timestampOffset engines) (tradeEngine session)
    (fun _ _ => rfl) instrument hfg

theorem apply_tradeEngine (t : Ledger) (call : Call) :
    (t.tradeEngine session : TradeEngine A).apply call =
      (t.apply call).map (tradeEngine session) := by
  cases call with
  | initContract instrument prevClosePrice prevPosition =>
    exact serve_tradeEngine session t instrument
      (f := fun _ => some (.new session.1 session.2 ⟨prevClosePrice, prevPosition⟩ instrument))
      (g := fun _ => some ⟨instrument, ⟨prevClosePrice, prevPosition⟩, []⟩) fun _ => rfl
  | insertAlpha instrument timestamp targetVolume =>
    have hop : (Call.insertAlpha instrument timestamp targetVolume).op?
        (alphaOffset t.timestampOffset timestamp) = some (.insertAlpha
          (compactAlpha (alphaOffset t.timestampOffset timestamp) timestamp targetVolume)) := rfl
    refine serve_tradeEngine session
      { t with timestampOffset := alphaOffset t.timestampOffset timestamp } instrument fun a => ?_
    cases a with
    | none => rfl
    | some a => exact congrArg some (a.engine_serve session hop).symm
  | insertOrderLog instrument timestamp type direction volume priceOff =>
    have hop : (Call.insertOrderLog instrument timestamp type direction volume priceOff).op?
        t.timestampOffset = some (.insertOrderLog
          (compactOrderLog t.timestampOffset timestamp type direction volume priceOff)) := rfl
    refine serve_tradeEngine session t instrument fun a => ?_
    cases a with
    | none => rfl
    | some a => exact congrArg some (a.engine_serve session hop).symm

/-- **The state of a trade engine** is that of its ledger. -/
theorem run_tradeEngine (calls : List Call) (t : Ledger) :
    (t.tradeEngine session : TradeEngine A).run calls =
      (t.run calls).map (tradeEngine session) := by
  induction calls generalizing t with
  | nil => rfl
  | cons call calls ih =>
    simp only [TradeEngine.run, run, apply_tradeEngine]
    cases t.apply call with
    | none => rfl
    | some t => exact ih t

end tradeEngine

/-- What a served call does to the ledger. -/
theorem serve_eq_some {t t' : Ledger} {x : UInt64} {f : Option Entry → Option Entry}
    (ht : t.Keyed fun k => (t.entries k).map Entry.instrument) (hx : x ≠ 0)
    (hserve : t.serve x f = some t')
    (hf : ∀ a b, (∀ c ∈ a, c.instrument = x) → f a = some b → b.instrument = x) :
    ∃ k b, (∀ a ∈ t.entries k, a.instrument = x) ∧ f (t.entries k) = some b ∧
      t'.timestampOffset = t.timestampOffset ∧
      t'.entries = Function.update t.entries k (some b) ∧
      t'.Keyed fun k => (t'.entries k).map Entry.instrument := by
  obtain ⟨r, hr, hsome⟩ := Option.bind_eq_some_iff.mp hserve
  split at hsome
  · next hlt =>
    obtain ⟨b, hb, rfl⟩ := Option.map_eq_some_iff.mp hsome
    obtain ⟨howner, hkeyed⟩ := ht.getOrInsertInstrument hx hr hlt
    have hentry : ∀ a ∈ t.entries ⟨r.1, hlt⟩, a.instrument = x := fun a ha =>
      howner _ (Option.mem_map_of_mem Entry.instrument ha)
    refine ⟨⟨r.1, hlt⟩, b, hentry, hb, rfl, rfl, ?_⟩
    have hupdate : (fun k => (Function.update t.entries ⟨r.1, hlt⟩ (some b) k).map
        Entry.instrument) =
          Function.update (fun k => (t.entries k).map Entry.instrument) ⟨r.1, hlt⟩ (some x) := by
      rw [← hf _ b hentry hb]
      exact Function.comp_update (Option.map Entry.instrument) t.entries ⟨r.1, hlt⟩ (some b)
    simp only [hupdate]
    exact hkeyed
  · cases hsome

end Ledger

/-! ## What an engine gets -/

/-- An alpha among the calls has this time. -/
def AlphaTime (calls : List Call) (time : ℤ) : Prop :=
  ∃ call ∈ calls, call.phase = 1 ∧ call.timestamp? = some time

theorem AlphaTime.append {calls : List Call} {time : ℤ} (h : AlphaTime calls time)
    (calls' : List Call) : AlphaTime (calls ++ calls') time := by
  obtain ⟨call, hcall, h⟩ := h
  exact ⟨call, List.mem_append_left _ hcall, h⟩

/-- What an engine got is an `initContract` and later calls of its instrument, in their order.  They
came with the time of an alpha taken off, but order logs before the first alpha with `-1`. -/
structure Entry.Of (a : Entry) (calls : List Call) : Prop where
  sublist : (Call.initContract a.instrument a.info.prevClosePrice a.info.prevPosition ::
    a.served.map Prod.snd).Sublist calls
  instrument : ∀ q ∈ a.served, q.2.instrument = a.instrument
  offset : ∀ q ∈ a.served, AlphaTime calls q.1 ∨ q.1 = -1 ∧ q.2.phase ≠ 1

section
variable {a : Entry} {calls : List Call} (h : a.Of calls)
include h

theorem Entry.Of.append (calls' : List Call) : a.Of (calls ++ calls') :=
  ⟨h.sublist.trans (List.sublist_append_left _ _), h.instrument,
    fun q hq => (h.offset q hq).imp_left fun h => h.append calls'⟩

theorem Entry.Of.serve {timestampOffset : ℤ} {call : Call} (hcall : call.instrument = a.instrument)
    (hoffset : AlphaTime (calls ++ [call]) timestampOffset ∨ timestampOffset = -1 ∧ call.phase ≠ 1) :
    (a.serve timestampOffset call).Of (calls ++ [call]) := by
  have hserved : ∀ {q}, q ∈ (a.serve timestampOffset call).served →
      q ∈ a.served ∨ q = (timestampOffset, call) := fun hq =>
    (List.mem_append.mp hq).imp_right List.mem_singleton.mp
  refine ⟨?_, fun q hq => ?_, fun q hq => ?_⟩
  · rw [Entry.serve, List.map_append, ← List.cons_append]
    exact h.sublist.append (List.Sublist.refl _)
  · rcases hserved hq with hq | rfl
    · exact h.instrument q hq
    · exact hcall
  · rcases hserved hq with hq | rfl
    · exact (h.offset q hq).imp_left fun h => h.append _
    · exact hoffset

end

namespace Ledger

/-- The entries of a ledger are of the calls. -/
structure Of (t : Ledger) (calls : List Call) : Prop where
  keyed : t.Keyed fun k => (t.entries k).map Entry.instrument
  offset : AlphaTime calls t.timestampOffset ∨ t.timestampOffset = -1
  entries : ∀ k, ∀ a ∈ t.entries k, a.Of calls

theorem of_new : Of new [] :=
  ⟨InstrumentTable.keyed_new, .inr rfl, fun _ _ ha => absurd ha (Option.not_mem_none _)⟩

section
variable {t t' : Ledger} {calls : List Call} (h : t.Of calls)
include h

/-- A call that is handed on to the engine of its instrument. -/
theorem Of.handOn {timestampOffset : ℤ} {call : Call} (hne : call.instrument ≠ 0)
    (hoffset : AlphaTime (calls ++ [call]) timestampOffset ∨ timestampOffset = -1 ∧ call.phase ≠ 1)
    (hserve : Ledger.serve { t with timestampOffset := timestampOffset } call.instrument
      (fun a => a.map fun a => a.serve timestampOffset call) = some t') :
    t'.Of (calls ++ [call]) := by
  obtain ⟨k, b, hentry, hb, htime, hentries, hkeyed⟩ := serve_eq_some
    (t := { t with timestampOffset := timestampOffset }) h.keyed hne hserve fun a b ha hb => by
      obtain ⟨c, rfl, rfl⟩ := Option.map_eq_some_iff.mp hb
      exact ha c rfl
  refine ⟨hkeyed, by rw [htime]; exact hoffset.imp_right And.left, fun l a ha => ?_⟩
  rw [hentries] at ha
  by_cases hl : l = k
  · subst hl
    obtain ⟨c, hc, rfl⟩ := Option.map_eq_some_iff.mp hb
    rw [Function.update_self, Option.mem_some_iff] at ha
    subst ha
    exact (h.entries l c hc).serve (hentry c hc).symm hoffset
  · rw [Function.update_of_ne hl] at ha
    exact (h.entries l a ha).append _

theorem Of.apply {call : Call} (hne : call.instrument ≠ 0) (happly : t.apply call = some t') :
    t'.Of (calls ++ [call]) := by
  have hmono : AlphaTime (calls ++ [call]) t.timestampOffset ∨ t.timestampOffset = -1 :=
    h.offset.imp_left fun h => h.append _
  cases call with
  | initContract instrument prevClosePrice prevPosition =>
    obtain ⟨k, b, -, hb, htime, hentries, hkeyed⟩ := serve_eq_some (x := instrument)
      (f := fun _ => some ⟨instrument, ⟨prevClosePrice, prevPosition⟩, []⟩) h.keyed hne happly
      fun a b _ hb => by rw [← Option.some.inj hb]
    refine ⟨hkeyed, by rwa [htime], fun l a ha => ?_⟩
    rw [hentries] at ha
    by_cases hl : l = k
    · subst hl
      obtain rfl := Option.some.inj hb
      rw [Function.update_self, Option.mem_some_iff] at ha
      subst ha
      exact ⟨List.sublist_append_right _ _, fun _ hq => absurd hq List.not_mem_nil,
        fun _ hq => absurd hq List.not_mem_nil⟩
    · rw [Function.update_of_ne hl] at ha
      exact (h.entries l a ha).append _
  | insertAlpha instrument timestamp targetVolume =>
    have htime : AlphaTime (calls ++ [.insertAlpha instrument timestamp targetVolume])
        (alphaOffset t.timestampOffset timestamp) := by
      rw [alphaOffset]
      split
      · exact ⟨_, List.mem_append_right _ (List.mem_singleton_self _), rfl, rfl⟩
      · next hset => exact hmono.resolve_right hset
    exact h.handOn hne (.inl htime) happly
  | insertOrderLog instrument timestamp type direction volume priceOff =>
    exact h.handOn hne (hmono.imp_right fun h => ⟨h, fun hphase => by cases hphase⟩) happly

theorem Of.run {calls' : List Call} (hne : ∀ call ∈ calls', call.instrument ≠ 0)
    (hrun : t.run calls' = some t') : t'.Of (calls ++ calls') := by
  induction calls' generalizing t calls with
  | nil =>
    obtain rfl := Option.some.inj hrun
    rwa [List.append_nil]
  | cons call calls' ih =>
    obtain ⟨u, hu, hrun⟩ := Option.bind_eq_some_iff.mp hrun
    have hrest := ih (h.apply (hne call List.mem_cons_self) hu)
      (fun c hc => hne c (List.mem_cons_of_mem _ hc)) hrun
    rwa [List.append_assoc] at hrest

end

end Ledger

/-- **No engine gets a call of another instrument.**  However the table misplaces instruments, an
engine is in the state of one of its own that was made by an `initContract` for its instrument and
then got, in their order, some of the later calls of the instrument.  These came with the time of an
alpha taken off, but order logs before the first alpha with `-1`. -/
theorem engines_unmixed {session : ℤ × ℤ} {calls : List Call}
    (hne : ∀ call ∈ calls, call.instrument ≠ 0) {t : TradeEngine}
    (hrun : (TradeEngine.new session).run calls = some t) {k : Fin maxContractNum}
    {e : ContractEngine OrderHeap} (he : e ∈ t.contractEngines k) :
    ∃ (info : CompactPrevTradeInfo) (served : List (ℤ × Call)),
      (Call.initContract e.instrument info.prevClosePrice info.prevPosition ::
        served.map Prod.snd).Sublist calls ∧
      (∀ q ∈ served, q.2.instrument = e.instrument ∧
        (AlphaTime calls q.1 ∨ q.1 = -1 ∧ q.2.phase ≠ 1)) ∧
      e = (ContractEngine.new session.1 session.2 info e.instrument).run
        (served.filterMap fun q => q.2.op? q.1) := by
  have hledger : (TradeEngine.new session).run calls =
      (Ledger.new.run calls).map (Ledger.tradeEngine session) :=
    Ledger.run_tradeEngine session calls Ledger.new
  rw [hrun] at hledger
  obtain ⟨u, hu, rfl⟩ := Option.map_eq_some_iff.mp hledger.symm
  obtain ⟨a, ha, rfl⟩ := Option.map_eq_some_iff.mp he
  have hof : a.Of calls := (Ledger.of_new.run hne hu).entries k a ha
  have hinstrument : (a.engine session : ContractEngine OrderHeap).instrument = a.instrument :=
    ContractEngine.instrument_run _ _
  rw [hinstrument]
  exact ⟨a.info, a.served, hof.sublist, fun q hq => ⟨hof.instrument q hq, hof.offset q hq⟩, rfl⟩

/-- The second instrument is not found where it is, and gets a new index when it is initialised
again: the engine at its first one is left behind. -/
theorem engines_unmixed_of_collision :
    let calls : List Call := [.initContract 1 10 0, .initContract 20022 20 5,
      .initContract 20022 20 7, .insertAlpha 1 100000 4, .insertOrderLog 1 100700 0 1 5 (1 / 100)]
    ∃ t e, (TradeEngine.new (3, 1)).run calls = some t ∧ e ∈ t.contractEngines ⟨1, by decide⟩ ∧
      ∃ (info : CompactPrevTradeInfo) (served : List (ℤ × Call)),
        (Call.initContract e.instrument info.prevClosePrice info.prevPosition ::
          served.map Prod.snd).Sublist calls ∧
        (∀ q ∈ served, q.2.instrument = e.instrument ∧
          (AlphaTime calls q.1 ∨ q.1 = -1 ∧ q.2.phase ≠ 1)) ∧
        e = (ContractEngine.new 3 1 info e.instrument).run
          (served.filterMap fun q => q.2.op? q.1) := by
  intro calls
  have hsome : (((TradeEngine.new (3, 1)).run calls).bind fun t =>
      t.contractEngines ⟨1, by decide⟩).isSome := by decide +kernel
  obtain ⟨e, he⟩ := Option.isSome_iff_exists.mp hsome
  obtain ⟨t, hrun, he⟩ := Option.bind_eq_some_iff.mp he
  exact ⟨t, e, hrun, he, engines_unmixed (by decide) hrun he⟩

end MatchingEngine
