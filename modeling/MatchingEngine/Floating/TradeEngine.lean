import Mathlib
import MatchingEngine.Trade.Ledger
import MatchingEngine.Floating.Agreement

/-!
# The trade engine in floating point

The functions of `trade_engine.cpp` do nothing with prices, so the rows of a session are those of
the exact engine in the same order, with prices that are near and the nearest profits.

## Main definitions

* `storedCall`, `CallWithin` — the calls as they are read from the files, and how large they are.
* `DayWithin` — how large the calls of each instrument are together.
* `run_storedLedger` — the engines get the same calls, with the prices as they are stored.
* `NearTradeEngine`, `NearReport` — what is near what.
* `nearTradeEngine_run`, `NearTradeEngine.onComplete` — a day makes engines and rows that are near.
-/

namespace MatchingEngine.Floating

open ContractEngine

/-! ## The calls -/

/-- The call with the price as it is stored. -/
def storedCall : Call → Call
  | .initContract instrument prevClosePrice prevPosition =>
    .initContract instrument (double prevClosePrice) prevPosition
  | .insertOrderLog instrument timestamp type direction volume priceOff =>
    .insertOrderLog instrument timestamp type direction volume (double priceOff)
  | call => call

/-- How large what a call brings may be; the alphas come within `2 ^ 30` of `start`. -/
def CallWithin (S : Scale) (start : ℤ) : Call → Prop
  | .initContract _ prevClosePrice prevPosition =>
    OnGrid prevClosePrice ∧ 0 ≤ prevClosePrice ∧ 2 * prevClosePrice ≤ S.price ∧
      |prevPosition| ≤ 2 ^ 27
  | .insertAlpha _ timestamp targetVolume =>
    start ≤ timestamp ∧ timestamp ≤ start + 2 ^ 30 ∧ |targetVolume| ≤ 2 ^ 27
  | .insertOrderLog _ timestamp type direction volume priceOff =>
    OrderWithin S (compactOrderLog 0 timestamp type direction volume priceOff)

instance (S : Scale) (start : ℤ) (call : Call) : Decidable (CallWithin S start call) :=
  match call with
  | .initContract .. => inferInstanceAs (Decidable (_ ∧ _))
  | .insertAlpha .. => inferInstanceAs (Decidable (_ ∧ _))
  | .insertOrderLog .. => inferInstanceAs (Decidable (OrderWithin S _))

/-- How many `PriceLimit` orders the calls bring. -/
def limitCalls : List Call → ℕ
  | [] => 0
  | .insertOrderLog _ timestamp type direction volume priceOff :: calls =>
    limitOrders (compactOrderLog 0 timestamp type direction volume priceOff) + limitCalls calls
  | _ :: calls => limitCalls calls

/-- The target of an alpha. -/
def target? : Call → Option ℤ
  | .insertAlpha _ _ targetVolume => some targetVolume
  | _ => none

/-- How large the calls of a day may be, those of each instrument together: the orders that add to
the base price, and what the alphas move the target. -/
structure DayWithin (S : Scale) (n : ℕ) (start : ℤ) (calls : List Call) : Prop where
  ne_zero : ∀ call ∈ calls, call.instrument ≠ 0
  within : ∀ call ∈ calls, CallWithin S start call
  limits : ∀ call ∈ calls, limitCalls (only call.instrument calls) ≤ n
  own : ∀ call ∈ calls, ∀ prevPosition ∈ call.prevPosition?, |prevPosition| +
    2 * turnover prevPosition ((only call.instrument calls).filterMap target?) ≤ S.size

instance (S : Scale) (n : ℕ) (start : ℤ) (calls : List Call) :
    Decidable (DayWithin S n start calls) :=
  decidable_of_iff ((∀ call ∈ calls, call.instrument ≠ 0) ∧ (∀ call ∈ calls, CallWithin S start call) ∧
      (∀ call ∈ calls, limitCalls (only call.instrument calls) ≤ n) ∧
      ∀ call ∈ calls, ∀ prevPosition ∈ call.prevPosition?, |prevPosition| +
        2 * turnover prevPosition ((only call.instrument calls).filterMap target?) ≤ S.size)
    ⟨fun h => ⟨h.1, h.2.1, h.2.2.1, h.2.2.2⟩, fun h => ⟨h.ne_zero, h.within, h.limits, h.own⟩⟩

/-! ## What each engine gets -/

section counts
variable (served : List (ℤ × Call))

theorem limitCount_ops : limitCount (served.filterMap fun q => q.2.op? q.1) =
    limitCalls (served.map Prod.snd) := by
  induction served with
  | nil => rfl
  | cons q served ih =>
    obtain ⟨timestampOffset, call⟩ := q
    cases call with
    | initContract => exact ih
    | insertAlpha => exact ih
    | insertOrderLog => exact congrArg (_ + ·) ih

theorem targets_ops : targets (served.filterMap fun q => q.2.op? q.1) =
    (served.map Prod.snd).filterMap target? := by
  induction served with
  | nil => rfl
  | cons q served ih =>
    obtain ⟨timestampOffset, call⟩ := q
    cases call with
    | initContract => exact ih
    | insertAlpha _ _ targetVolume => exact congrArg (targetVolume :: ·) ih
    | insertOrderLog => exact ih

end counts

/-- Fewer calls bring fewer orders. -/
theorem limitCalls_sublist {calls calls' : List Call} (h : calls.Sublist calls') :
    limitCalls calls ≤ limitCalls calls' := by
  induction h with
  | slnil => exact le_rfl
  | cons call _ ih => cases call <;> simp only [limitCalls] <;> omega
  | cons_cons call _ ih => cases call <;> simp only [limitCalls] <;> omega

/-- What an engine got, with the prices as they are stored. -/
def storedEntry (a : Entry) : Entry :=
  ⟨a.instrument, storedInfo a.info, a.served.map fun q => (q.1, storedCall q.2)⟩

theorem op?_storedCall (timestampOffset : ℤ) (call : Call) :
    (storedCall call).op? timestampOffset = (call.op? timestampOffset).map storedOp := by
  cases call <;> rfl

theorem ops_storedEntry (a : Entry) : (storedEntry a).ops = a.ops.map storedOp := by
  simp only [Entry.ops, storedEntry, List.filterMap_map, List.map_filterMap, Function.comp_def,
    op?_storedCall]

theorem storedEntry_serve (a : Entry) (timestampOffset : ℤ) (call : Call) :
    storedEntry (a.serve timestampOffset call) =
      (storedEntry a).serve timestampOffset (storedCall call) := by
  simp [storedEntry, Entry.serve]

/-- The ledger with the prices as they are stored. -/
def storedLedger (t : Ledger) : Ledger := { t with entries k := (t.entries k).map storedEntry }

theorem serve_storedLedger (t : Ledger) (instrument : UInt64) {f g : Option Entry → Option Entry}
    (hfg : ∀ a, f (a.map storedEntry) = (g a).map storedEntry) :
    (storedLedger t).serve instrument f = (t.serve instrument g).map storedLedger :=
  t.serveAt_map storedEntry t.entries
    (fun table entries => Ledger.mk table t.timestampOffset entries)
    (fun table entries => Ledger.mk table t.timestampOffset entries) storedLedger
    (fun _ _ => rfl) instrument hfg

theorem apply_storedLedger (t : Ledger) (call : Call) :
    (storedLedger t).apply (storedCall call) = (t.apply call).map storedLedger := by
  cases call with
  | initContract instrument prevClosePrice prevPosition =>
    exact serve_storedLedger t instrument
      (f := fun _ => some ⟨instrument, ⟨double prevClosePrice, prevPosition⟩, []⟩)
      (g := fun _ => some ⟨instrument, ⟨prevClosePrice, prevPosition⟩, []⟩) fun _ => rfl
  | insertAlpha instrument timestamp targetVolume =>
    refine serve_storedLedger
      { t with timestampOffset := alphaOffset t.timestampOffset timestamp } instrument fun a => ?_
    cases a with
    | none => rfl
    | some a => exact congrArg some (storedEntry_serve a _ (.insertAlpha _ _ _)).symm
  | insertOrderLog instrument timestamp type direction volume priceOff =>
    refine serve_storedLedger t instrument fun a => ?_
    cases a with
    | none => rfl
    | some a => exact congrArg some (storedEntry_serve a _ (.insertOrderLog _ _ _ _ _ _)).symm

/-- **The engines get the same calls**, with the prices as they are stored. -/
theorem run_storedLedger (calls : List Call) (t : Ledger) :
    (storedLedger t).run (calls.map storedCall) = (t.run calls).map storedLedger := by
  induction calls generalizing t with
  | nil => rfl
  | cons call calls ih =>
    rw [List.map_cons, Ledger.run, Ledger.run, apply_storedLedger]
    cases t.apply call with
    | none => rfl
    | some t => exact ih t

/-! ## The engines -/

/-- What the engine plans is not too large. -/
structure OwnWithin (S : Scale) (s : ContractEngine OrderHeap) : Prop where
  sound : Sound s
  filled : Filled s
  size : |s.prevTradeInfo.prevPosition| + 2 * (s.plannedVolume .Sale + s.plannedVolume .Buy) ≤ S.size

section OwnWithin
variable {S : Scale} {s : ContractEngine OrderHeap} (h : OwnWithin S s)
include h

theorem OwnWithin.ownTotal_le :
    |s.prevTradeInfo.prevPosition| + ownTotal s.history ≤ S.size := by
  have htotal := Floating.ownTotal_le h.sound h.filled
  have hsize := h.size
  omega

theorem OwnWithin.onComplete : OwnWithin S s.onComplete := by
  obtain ⟨hsound, hfilled⟩ := filled_kept.settles.release maxInt ⟨h.sound, h.filled⟩
  have hplanned : ∀ d, s.onComplete.plannedVolume d = s.plannedVolume d :=
    plannedVolume_apply s (show Op.onComplete.alpha? = none from rfl)
  have hinfo : s.onComplete.prevTradeInfo = s.prevTradeInfo := prevTradeInfo_run [.onComplete] s
  refine ⟨hsound, hfilled, ?_⟩
  rw [hinfo, hplanned, hplanned]
  exact h.size

end OwnWithin

/-- The engines of all instruments are near. -/
structure NearTradeEngine (S : Scale) (n : ℕ) (t : TradeEngine)
    (t' : TradeEngine arithmetic) : Prop where
  table : t'.toInstrumentTable = t.toInstrumentTable
  session : t'.session = t.session
  timestampOffset : t'.timestampOffset = t.timestampOffset
  engines : ∀ i, Option.Rel (fun e e' => NearEngine S (S.error n) e e' ∧ OwnWithin S e)
    (t.contractEngines i) (t'.contractEngines i)

section entries
variable {S : Scale} {n : ℕ} {start : ℤ} {calls : List Call} (hday : DayWithin S n start calls)
  {a : Entry} (ha : a.Of calls)
include ha

theorem served_sublist_only :
    (a.served.map Prod.snd).Sublist (only a.instrument calls) := by
  have hfilter := ((List.sublist_cons_self _ _).trans ha.sublist).filter
    fun call => decide (call.instrument = a.instrument)
  rwa [List.filter_eq_self.mpr fun call hcall => by
    obtain ⟨q, hq, rfl⟩ := List.mem_map.mp hcall
    exact decide_eq_true (ha.instrument q hq)] at hfilter

include hday

/-- What an engine gets is not too large. -/
theorem opWithin_ops : ∀ op ∈ a.ops, OpWithin S op := by
  intro op hop
  obtain ⟨q, hq, hop⟩ := List.mem_filterMap.mp hop
  have hcall : q.2 ∈ calls :=
    ha.sublist.subset (List.mem_cons_of_mem _ (List.mem_map_of_mem hq))
  have hwithin := hday.within _ hcall
  have hoffset := ha.offset q hq
  obtain ⟨timestampOffset, call⟩ := q
  cases call with
  | initContract => cases hop
  | insertAlpha instrument timestamp targetVolume =>
    obtain rfl := Option.some.inj hop
    obtain ⟨hstart, hend, htarget⟩ := hwithin
    obtain ⟨first, hfirst, hphase, htime⟩ := hoffset.resolve_right fun h => h.2 rfl
    have hbetween : start ≤ timestampOffset ∧ timestampOffset ≤ start + 2 ^ 30 := by
      have hfirstWithin := hday.within _ hfirst
      cases first with
      | initContract => cases hphase
      | insertOrderLog => cases hphase
      | insertAlpha =>
        obtain rfl : _ = timestampOffset := Option.some.inj htime
        exact ⟨hfirstWithin.1, hfirstWithin.2.1⟩
    have hfits : |timestamp - timestampOffset| ≤ 2 ^ 30 := by
      rw [abs_le]
      omega
    refine ⟨htarget, ?_⟩
    rw [compactAlpha, toInt_of_abs_lt (hfits.trans_lt (by norm_num))]
    exact hfits
  | insertOrderLog instrument timestamp type direction volume priceOff =>
    obtain rfl := Option.some.inj hop
    exact ⟨hwithin.volume_pos, hwithin.volume_le, hwithin.onGrid, hwithin.bounded⟩

/-- **The engine of an entry** is near the exact one. -/
theorem nearEngine_engine {session : ℤ × ℤ} (hsession : SessionWithin session.1 session.2)
    (hδ : Fine S (S.error n)) :
    NearEngine S (S.error n) (a.engine session) ((storedEntry a).engine session) ∧
      OwnWithin S (a.engine session) := by
  have hinit : Call.initContract a.instrument a.info.prevClosePrice a.info.prevPosition ∈ calls :=
    ha.sublist.subset List.mem_cons_self
  obtain ⟨hgrid, h0, hle, hposition⟩ := hday.within _ hinit
  have hserved := served_sublist_only ha
  have hcount : limitCount a.ops ≤ n := by
    rw [Entry.ops, limitCount_ops]
    exact (limitCalls_sublist hserved).trans (hday.limits _ hinit)
  have hturnover : |a.info.prevPosition| + 2 * turnover a.info.prevPosition (targets a.ops) ≤
      S.size := by
    have hown : |a.info.prevPosition| + 2 * turnover a.info.prevPosition
        ((only a.instrument calls).filterMap target?) ≤ S.size := hday.own _ hinit _ rfl
    have hfewer := turnover_sublist (hserved.filterMap target?) a.info.prevPosition
    rw [Entry.ops, targets_ops]
    omega
  have hops := opWithin_ops hday ha
  refine ⟨?_, ?_⟩
  · have hnew : NearEngine S (S.error 0) (new session.1 session.2 a.info a.instrument)
        (new session.1 session.2 (storedInfo a.info) a.instrument) := by
      rw [Scale.error, Nat.cast_zero, mul_zero, zero_add, one_mul]
      exact nearEngine_new hgrid h0 hle hsession hposition a.instrument
    have hrun := hnew.run hops (by rw [Nat.zero_add]; exact hδ.mono hcount)
    rw [← ops_storedEntry] at hrun
    exact hrun.mono (S.error_le_error (by rwa [Nat.zero_add]))
  · obtain ⟨hsound, hfilled⟩ := filled_run (Q := OrderHeap) session.1 session.2
      a.info a.instrument fun o ho => (hops _ ho).volume_pos
    refine ⟨hsound, hfilled, ?_⟩
    have hinfo : (a.engine session).prevTradeInfo = a.info := prevTradeInfo_run _ _
    have hplanned := fun d => plannedVolume_run a.ops (s := (new session.1 session.2
      a.info a.instrument : ContractEngine OrderHeap)) hsession.sessionNum_pos d
    have hempty : ∀ d, (new session.1 session.2 a.info a.instrument :
        ContractEngine OrderHeap).plannedVolume d = 0 := fun _ => rfl
    rw [hinfo, Entry.engine, hplanned, hplanned, hempty, hempty, zero_add, zero_add,
      moved_add_moved]
    exact hturnover

end entries

/-- **A day of calls** makes engines that are near. -/
theorem nearTradeEngine_run {S : Scale} {n : ℕ} {start : ℤ} {calls : List Call}
    (hday : DayWithin S n start calls) {session : ℤ × ℤ}
    (hsession : SessionWithin session.1 session.2) (hδ : Fine S (S.error n)) :
    Option.Rel (NearTradeEngine S n) ((TradeEngine.new session).run calls)
      ((TradeEngine.new (A := arithmetic) session).run (calls.map storedCall)) := by
  have hexact : (TradeEngine.new session).run calls =
      (Ledger.new.run calls).map (Ledger.tradeEngine session) :=
    Ledger.run_tradeEngine session calls Ledger.new
  have hfloating : (TradeEngine.new (A := arithmetic) session).run (calls.map storedCall) =
      ((Ledger.new.run calls).map storedLedger).map (Ledger.tradeEngine session) := by
    rw [← run_storedLedger]
    exact Ledger.run_tradeEngine session _ Ledger.new
  rw [hexact, hfloating]
  cases hrun : Ledger.new.run calls with
  | none => exact .none
  | some t =>
    have hof := Ledger.of_new.run hday.ne_zero hrun
    refine .some ⟨rfl, rfl, rfl, fun i => ?_⟩
    have hentry : ∀ a ∈ t.entries i, a.Of calls := hof.entries i
    simp only [Ledger.tradeEngine, storedLedger]
    cases ha : t.entries i with
    | none => exact .none
    | some a => exact .some (nearEngine_engine hday (hentry a ha) hsession hδ)

namespace NearTradeEngine
variable {S : Scale} {n : ℕ} {t : TradeEngine} {t' : TradeEngine arithmetic}
  (h : NearTradeEngine S n t t')
include h

/-! ## The results -/

theorem completeContract (hδ : Fine S (S.error n)) (i : ℕ) :
    Option.Rel (NearTradeEngine S n) (t.completeContract i) (t'.completeContract i) := by
  simp only [TradeEngine.completeContract]
  split
  · next hi =>
    have hengine := h.engines ⟨i, hi⟩
    generalize t.contractEngines ⟨i, hi⟩ = e, t'.contractEngines ⟨i, hi⟩ = e' at hengine
    cases hengine with
    | none => exact .none
    | some he =>
      refine .some ⟨h.table, h.session, h.timestampOffset, fun j => ?_⟩
      by_cases hj : j = ⟨i, hi⟩
      · simp only [hj, Function.update_self]
        exact .some ⟨he.1.release hδ maxInt, he.2.onComplete⟩
      · simp only [Function.update_of_ne hj]
        exact h.engines j
  · exact .none

theorem completeContracts (hδ : Fine S (S.error n)) :
    Option.Rel (NearTradeEngine S n) t.completeContracts t'.completeContracts := by
  rw [TradeEngine.completeContracts, TradeEngine.completeContracts, h.table]
  generalize List.range t.lastContract = indices
  induction indices generalizing t t' with
  | nil => exact .some h
  | cons i indices ih =>
    have hcomplete := h.completeContract hδ i
    simp only [List.foldlM_cons, Option.bind_eq_bind]
    generalize t.completeContract i = u, t'.completeContract i = u' at hcomplete
    cases hcomplete with
    | none => exact .none
    | some hu => exact ih hu

theorem contracts :
    Option.Rel (List.Forall₂ fun e e' => NearEngine S (S.error n) e e' ∧ OwnWithin S e) t.contracts
      t'.contracts := by
  rw [TradeEngine.contracts, TradeEngine.contracts, h.table]
  refine Traverse.mapM_rel (fun i => ?_) _
  rw [TradeEngine.engine?, TradeEngine.engine?]
  split
  · next hi =>
    exact h.engines ⟨i, hi⟩
  · exact .none

end NearTradeEngine

/-- The same row, with a price near it. -/
structure NearTwapOrder (S : Scale) (δ : ℚ) (o o' : TwapOrder) : Prop where
  fields : o' = { o with price := o'.price }
  price : NearPrice S δ o.price o'.price

/-- The same row, with the nearest profit. -/
structure NearPnlAndPos (p p' : PnlAndPos) : Prop where
  fields : p' = { p with pnl := double p.pnl }
  bounded : |p.pnl| ≤ 2 ^ 42

/-- The same report, with prices that are near. -/
structure NearReport (S : Scale) (δ : ℚ) (r r' : Report) : Prop where
  fileName : r'.fileName = r.fileName
  twapOrders : List.Forall₂ (NearTwapOrder S δ) r.twapOrders r'.twapOrders
  pnlAndPos : List.Forall₂ NearPnlAndPos r.pnlAndPos r'.pnlAndPos

section rows
variable {S : Scale} {δ : ℚ} {s : ContractEngine OrderHeap} {s' : Engine}
  (h : NearEngine S δ s s')
include h

theorem NearEngine.contractTwapOrders (timestampOffset : ℤ) :
    List.Forall₂ (NearTwapOrder S δ) (MatchingEngine.contractTwapOrders timestampOffset s)
      (MatchingEngine.contractTwapOrders timestampOffset s') := by
  rw [MatchingEngine.contractTwapOrders, MatchingEngine.contractTwapOrders, List.forall₂_map_left_iff,
    List.forall₂_map_right_iff]
  refine h.twapOrders.imp fun o o' ho => ⟨?_, ho.price⟩
  rw [h.instrument, ho.timestamp, ho.directionAndType, ho.volume]

theorem NearEngine.contractPnlAndPos (hδ : Fine S δ)
    (hsize : |s.prevTradeInfo.prevPosition| + ownTotal s.history ≤ S.size) :
    NearPnlAndPos (MatchingEngine.contractPnlAndPos s) (MatchingEngine.contractPnlAndPos s') := by
  obtain ⟨hpnl, hbounded⟩ := h.getPNL hδ hsize
  have hamount := S.amount_le'
  refine ⟨?_, hbounded.trans (by norm_num at hamount ⊢; linarith)⟩
  rw [MatchingEngine.contractPnlAndPos, MatchingEngine.contractPnlAndPos, hpnl, h.instrument,
    ContractEngine.getPosition, h.volume hsize, ContractEngine.getPosition]

end rows

theorem lt_nearTwapOrder {S : Scale} {δ : ℚ} {a a' b b' : TwapOrder} (ha : NearTwapOrder S δ a a')
    (hb : NearTwapOrder S δ b b') : TwapOrder.lt a' b' = TwapOrder.lt a b := by
  rw [ha.fields, hb.fields, TwapOrder.lt, TwapOrder.lt]

theorem lt_nearPnlAndPos {a a' b b' : PnlAndPos} (ha : NearPnlAndPos a a')
    (hb : NearPnlAndPos b b') : PnlAndPos.lt a' b' = PnlAndPos.lt a b := by
  rw [ha.fields, hb.fields, PnlAndPos.lt, PnlAndPos.lt]

section results
variable {S : Scale} {n : ℕ} {t : TradeEngine} {t' : TradeEngine arithmetic}
  (h : NearTradeEngine S n t t') (hδ : Fine S (S.error n))
include h

theorem NearTradeEngine.getTWAPOrders :
    Option.Rel (List.Forall₂ (NearTwapOrder S (S.error n))) t.getTWAPOrders t'.getTWAPOrders := by
  have hcontracts := h.contracts
  rw [TradeEngine.getTWAPOrders, TradeEngine.getTWAPOrders, h.timestampOffset]
  generalize t.contracts = engines, t'.contracts = engines' at hcontracts
  cases hcontracts with
  | none => exact .none
  | some hengines =>
    refine .some ?_
    rw [List.forall₂_map_left_iff, List.forall₂_map_right_iff]
    have hrows := List.rel_flatMap hengines fun _ _ he => he.1.contractTwapOrders t.timestampOffset
    refine (Traverse.forall₂_insertionSort (fun a a' b b' ha hb => ?_) hrows).imp ?_
    · rw [lt_nearTwapOrder hb ha]
    · intro o o' ho
      refine ⟨?_, ho.price⟩
      conv_lhs => rw [ho.fields]

include hδ in
theorem NearTradeEngine.getPNLAndPos :
    Option.Rel (List.Forall₂ NearPnlAndPos) t.getPNLAndPos t'.getPNLAndPos := by
  have hcontracts := h.contracts
  rw [TradeEngine.getPNLAndPos, TradeEngine.getPNLAndPos]
  generalize t.contracts = engines, t'.contracts = engines' at hcontracts
  cases hcontracts with
  | none => exact .none
  | some hengines =>
    refine .some ?_
    rw [List.forall₂_map_left_iff, List.forall₂_map_right_iff]
    have hrows : List.Forall₂ NearPnlAndPos _ _ :=
      List.rel_map (fun _ _ he => he.1.contractPnlAndPos hδ he.2.ownTotal_le) hengines
    refine (Traverse.forall₂_insertionSort (fun a a' b b' ha hb => ?_) hrows).imp ?_
    · rw [lt_nearPnlAndPos hb ha]
    · intro p p' hp
      refine ⟨?_, hp.bounded⟩
      conv_lhs => rw [hp.fields]

include hδ in
/-- **What a session reports** are the rows of the exact engine, with prices that are near and
the nearest profits. -/
theorem NearTradeEngine.onComplete (path : String) :
    Option.Rel (NearReport S (S.error n)) ((t.onComplete path).map Prod.snd)
      ((t'.onComplete path).map Prod.snd) := by
  have hcomplete := h.completeContracts hδ
  rw [TradeEngine.onComplete, TradeEngine.onComplete]
  generalize t.completeContracts = u, t'.completeContracts = u' at hcomplete
  cases hcomplete with
  | none => exact .none
  | @some v v' hnear =>
    have htwap := hnear.getTWAPOrders
    have hpnl := hnear.getPNLAndPos hδ
    simp only [Option.bind_some, hnear.session]
    generalize v.getTWAPOrders = rows, v'.getTWAPOrders = rows' at htwap
    cases htwap with
    | none => exact .none
    | some htwap =>
      simp only [Option.bind_some]
      generalize v.getPNLAndPos = pnls, v'.getPNLAndPos = pnls' at hpnl
      cases hpnl with
      | none => exact .none
      | some hpnl => exact .some ⟨rfl, htwap, hpnl⟩

end results

end MatchingEngine.Floating
