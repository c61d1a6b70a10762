import Mathlib
import MatchingEngine.Entrance.Reports
import MatchingEngine.Trade.Isolation

/-!
# The baseline test

`baseline_test.cpp` reads the files of a day as a whole and gives every record to five trade
engines in turn, one for each session.  The engines share nothing, so each of them says what it
would say alone, and the rows of the test are those that the matching threads send.

## Main definitions

* `readAllData`, `tradeToday`, `writeAllData` — a day of the test.
* `tradeToday_eq` — the engines of the test report what the sessions report alone.
* `fair_reports_eq_tradeToday` — the matching threads send what the test says.
-/

namespace MatchingEngine
namespace BaselineTest

open Traverse

/-- What the engines of a day say, in the order of `SESSIONS`. -/
structure Results where
  pnlAndPositions : List (List PnlAndPos)
  twapOrders : List (List TwapOrder)
  deriving DecidableEq, Repr

/-- `readAllData`: the records of the three files, as the calls that are made with them. -/
def readAllData (day : DayFiles) : Option (List Call) := day.calls

/-- One pass of the loops over the records: every engine gets the record in its turn. -/
def tradeRecord (tradeEngines : List TradeEngine) (call : Call) : Option (List TradeEngine) :=
  tradeEngines.mapM fun tradeEngine => tradeEngine.apply call

/-- `tradeToday` -/
def tradeToday (date : String) (calls : List Call) : Option Results :=
  (calls.foldlM tradeRecord (sessions.map TradeEngine.new)).bind fun tradeEngines =>
    (tradeEngines.mapM fun tradeEngine : TradeEngine => (tradeEngine.onComplete date).map Prod.fst).bind
      fun tradeEngines =>
        (tradeEngines.mapM TradeEngine.getPNLAndPos).bind fun pnlAndPositions =>
          (tradeEngines.mapM TradeEngine.getTWAPOrders).map fun twapOrders =>
            ⟨pnlAndPositions, twapOrders⟩

/-! ## The engines in turn -/

theorem foldlM_apply (t : TradeEngine) (calls : List Call) :
    calls.foldlM TradeEngine.apply t = t.run calls := by
  induction calls generalizing t with
  | nil => rfl
  | cons call calls ih =>
    rw [List.foldlM_cons, TradeEngine.run]
    cases t.apply call with
    | none => rfl
    | some u => exact ih u

/-- A session alone: its engine after the day, and what it reports. -/
def tradeAlone (date : String) (calls : List Call) (session : ℤ × ℤ) :
    Option (TradeEngine × Report) :=
  ((TradeEngine.new session).run calls).bind fun t => t.onComplete date

theorem report_eq_tradeAlone {day : DayFiles} {calls : List Call} (hcalls : day.calls = some calls)
    (session : ℤ × ℤ) :
    day.report session = (tradeAlone (dateName day.path) calls session).map Prod.snd := by
  rw [DayFiles.report, hcalls, Option.bind_some, tradeAlone, Option.map_bind]
  rfl

/-- The engines of the test after `onComplete` are those of the sessions alone. -/
theorem tradeRecord_onComplete (date : String) (calls : List Call) :
    ((calls.foldlM tradeRecord (sessions.map TradeEngine.new)).bind fun tradeEngines =>
      tradeEngines.mapM fun tradeEngine : TradeEngine =>
        (tradeEngine.onComplete date).map Prod.fst) =
      (sessions.mapM (tradeAlone date calls)).map fun l => l.map Prod.fst := by
  have hruns : calls.foldlM tradeRecord (sessions.map TradeEngine.new) =
      (sessions.map TradeEngine.new).mapM fun t => t.run calls := by
    simp only [← foldlM_apply]
    exact foldlM_mapM TradeEngine.apply calls _
  rw [hruns, mapM_bind_mapM, List.mapM_map, ← mapM_map_eq]
  simp only [tradeAlone, Option.map_bind]
  rfl

/-- What the engines are asked for after `onComplete` is what they have reported. -/
theorem mapM_results (date : String) (calls : List Call) {β : Type} (f : TradeEngine → Option β)
    (g : Report → β) (hfg : ∀ (t : TradeEngine) (p : TradeEngine × Report),
      t.onComplete date = some p → f p.1 = some (g p.2)) :
    ((sessions.mapM (tradeAlone date calls)).bind fun l => (l.map Prod.fst).mapM f) =
      (sessions.mapM (tradeAlone date calls)).map fun l => l.map fun p => g p.2 := by
  simp only [List.mapM_map]
  rw [mapM_bind_mapM, ← mapM_map_eq]
  refine congrArg (fun h => sessions.mapM h) (funext fun session => ?_)
  cases hp : tradeAlone date calls session with
  | none => rfl
  | some p =>
    obtain ⟨t, -, ht⟩ := Option.bind_eq_some_iff.mp hp
    exact hfg t p ht

/-- What is sent are the results that the engine has then. -/
theorem results_of_onComplete {t : TradeEngine} {path : String} {p : TradeEngine × Report}
    (h : t.onComplete path = some p) :
    p.1.getPNLAndPos = some p.2.pnlAndPos ∧ p.1.getTWAPOrders = some p.2.twapOrders := by
  simp only [TradeEngine.onComplete, Option.bind_eq_some_iff, Option.map_eq_some_iff] at h
  obtain ⟨u, -, twapOrders, htwap, pnlAndPos, hpnl, rfl⟩ := h
  exact ⟨hpnl, htwap⟩

/-- **The engines of the test report what the sessions report alone**, whatever the files are. -/
theorem tradeToday_eq (day : DayFiles) :
    ((readAllData day).bind fun calls => tradeToday (dateName day.path) calls) =
      (sessions.mapM fun session => day.report session).map fun reports =>
        ⟨reports.map Report.pnlAndPos, reports.map Report.twapOrders⟩ := by
  rw [readAllData]
  cases hcalls : day.calls with
  | none =>
    have hnone : ∀ session, day.report session = none := fun session => by
      rw [DayFiles.report, hcalls, Option.bind_none]
    simp [hnone, sessions]
  | some calls =>
    have hpnl := mapM_results (dateName day.path) calls TradeEngine.getPNLAndPos
      Report.pnlAndPos fun _ _ h => (results_of_onComplete h).1
    have htwap := mapM_results (dateName day.path) calls TradeEngine.getTWAPOrders
      Report.twapOrders fun _ _ h => (results_of_onComplete h).2
    simp only [report_eq_tradeAlone hcalls, Option.bind_some, tradeToday]
    rw [← Option.bind_assoc, tradeRecord_onComplete, mapM_map_eq]
    cases hfinal : sessions.mapM (tradeAlone (dateName day.path) calls) with
    | none => rfl
    | some ps =>
      rw [hfinal, Option.bind_some, Option.map_some] at hpnl htwap
      simp [hpnl, htwap]

/-- The test of a day: its records, then the engines. -/
def baseLineTest (day : DayFiles) : Option Results :=
  (readAllData day).bind fun calls => tradeToday (dateName day.path) calls

/-- What the test says of a session, day by day, is what the session reports. -/
theorem mapM_baseLineTest {days : List DayFiles} {results : List Results}
    (h : days.mapM baseLineTest = some results) (id : Fin workerThreadNum) :
    ∃ reports, days.mapM (DayFiles.report (sessionOf id)) = some reports ∧
      reports.map (fun r => (some r.pnlAndPos, some r.twapOrders)) =
        results.map fun r => (r.pnlAndPositions[id.val]?, r.twapOrders[id.val]?) := by
  induction mapM_eq_some_iff.mp h with
  | nil => exact ⟨[], rfl, rfl⟩
  | @cons day result days results hday hrest ih =>
    obtain ⟨reports, hreports, hrows⟩ := ih (mapM_eq_some_iff.mpr hrest)
    obtain ⟨all, hall, rfl⟩ := Option.map_eq_some_iff.mp ((tradeToday_eq day).symm.trans hday)
    have hid : id.val < all.length := by
      rw [← (mapM_eq_some_iff.mp hall).length_eq]
      exact id.isLt
    have hreport : day.report (sessionOf id) = some all[id.val] :=
      (mapM_eq_some_iff.mp hall).get id.isLt hid
    refine ⟨all[id.val] :: reports, ?_, ?_⟩
    · rw [List.mapM_cons, hreport, hreports]
      rfl
    · simp [hrows, hid]

/-- The test of a day whose instruments are known and apart has a result. -/
theorem exists_baseLineTest {day : DayFiles} {calls : List Call} (hcalls : day.calls = some calls)
    (hday : Day calls) : ∃ results, baseLineTest day = some results := by
  have hreport : ∀ session, ∃ report, day.report session = some report := fun session => by
    obtain ⟨t, u, report, hrun, hend, -⟩ := hday.report session (dateName day.path)
    exact ⟨report, by rw [DayFiles.report, hcalls, Option.bind_some, hrun, Option.bind_some, hend]; rfl⟩
  choose report hreport using hreport
  have hall : (sessions.mapM fun session => day.report session) = some (sessions.map report) :=
    mapM_eq_some_map fun session _ => hreport session
  rw [baseLineTest, tradeToday_eq, hall]
  exact ⟨_, rfl⟩

/-- **The matching threads send what the test says**: under every fair schedule, once the days
are matched, each thread has sent, one report for each day, the rows that the test has for its
session. -/
theorem fair_reports_eq_tradeToday
    (memory : Fin bufferNum → List UInt8 × List UInt8 × List UInt8) {days : List DayFiles}
    (hdays : ∀ day ∈ days, day.Loadable) (horders : ∀ day ∈ days, day.orderLog ≠ [])
    {results : List Results} (hresults : days.mapM baseLineTest = some results)
    {schedule : ℕ → Thread} (hfair : Fairness.Fair schedule) :
    ∃ n, ∀ m, n ≤ m → ∀ id,
      let s := (Entrance.main memory (days.map DayFiles.reads)).run
        (Fairness.firstSteps schedule m)
      ∃ final, Matching.performAll (sessionOf id) .start (s.workers id).calls = some final ∧
        final.sent.map (fun r => (some r.pnlAndPos, some r.twapOrders)) =
          results.map fun r => (r.pnlAndPositions[id.val]?, r.twapOrders[id.val]?) := by
  obtain ⟨n, hdone⟩ :=
    Entrance.exists_complete memory (fun day hday => (hdays day hday).fits) horders hfair
  refine ⟨n, fun m hle id => ?_⟩
  obtain ⟨reports, hreports, hrows⟩ := mapM_baseLineTest hresults id
  have hsent := Matching.sent_performAll_framedFrom (sessionOf id) 0 days .start
  rw [hreports, Option.map_some, Option.map_eq_some_iff] at hsent
  obtain ⟨final, hfinal, hfinalSent⟩ := hsent
  refine ⟨final, ?_, ?_⟩
  · rw [(hdone m hle id).2]
    exact hfinal
  · rw [hfinalSent]
    exact hrows

/-- A day of two instruments, as the files have it. -/
def twoInstruments : DayFiles where
  path := "/mnt/final_data/20230829"
  prevTradeInfo := prevTradeInfoLayout.storeAll [(1, 10, 0), (2, 20, 5)]
  alpha := alphaLayout.storeAll [(2, 100000, 8), (1, 100500, 4)]
  orderLog := orderLogLayout.storeAll [(2, 100700, 0, -1, 5, 1 / 2), (1, 101600, 0, 1, 5, 1 / 4)]

/-- The threads in turn send what the test says of the day. -/
theorem fair_reports_of_twoInstruments :
    ∃ results, [twoInstruments].mapM baseLineTest = some results ∧ ∃ n, ∀ m, n ≤ m → ∀ id,
      let s := (Entrance.main (fun _ => ([], [], [])) ([twoInstruments].map DayFiles.reads)).run
        (Fairness.firstSteps Entrance.inTurns m)
      ∃ final, Matching.performAll (sessionOf id) .start (s.workers id).calls = some final ∧
        final.sent.map (fun r => (some r.pnlAndPos, some r.twapOrders)) =
          results.map fun r => (r.pnlAndPositions[id.val]?, r.twapOrders[id.val]?) := by
  have hcalls : twoInstruments.calls = some
      [.initContract 1 10 0, .initContract 2 20 5, .insertAlpha 2 100000 8, .insertAlpha 1 100500 4,
        .insertOrderLog 2 100700 0 (-1) 5 (1 / 2), .insertOrderLog 1 101600 0 1 5 (1 / 4)] := by
    decide +kernel
  obtain ⟨results, hresults⟩ := exists_baseLineTest hcalls
    ⟨by decide, by decide, by simp [Initialised], by decide, by decide, by decide, by decide⟩
  have hall : [twoInstruments].mapM baseLineTest = some [results] := by simp [hresults]
  exact ⟨[results], hall, fair_reports_eq_tradeToday (fun _ => ([], [], [])) (by decide +kernel)
    (by decide +kernel) hall Entrance.fair_inTurns⟩

end BaselineTest
end MatchingEngine
