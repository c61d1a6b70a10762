import Mathlib
import MatchingEngine.Lib.Traverse
import MatchingEngine.Records
import MatchingEngine.Entrance.Fair

/-!
# The reports of the matching threads

What the calls of a matching thread do: a trade engine is made for the session of the thread,
gets the fields of the records, and sends its results when the day is complete.  The calls of a
day say what a trade engine alone says that is given the records of the files, so under every fair
schedule each thread sends these reports, one for each day.

## Main definitions

* `sessionOf` — the session of a thread.
* `Matching`, `perform`, `performAll` — the engines of a thread and what it has sent.
* `DayFiles.report` — what a session should send of a day.
* `exists_sent` — what the threads send.
-/

namespace MatchingEngine

open Traverse

/-- `SESSIONS[id]` -/
def sessionOf (id : Fin workerThreadNum) : ℤ × ℤ := sessions.get id

/-- What a session should send of a day. -/
def DayFiles.report [A : Arithmetic] (session : ℤ × ℤ) (day : DayFiles) : Option Report :=
  day.calls.bind fun calls =>
    ((TradeEngine.new session).run calls).bind fun t =>
      (t.onComplete (dateName day.path)).map Prod.snd

/-- The engines of a matching thread, each with the path it was made with, and what has been
sent. -/
structure Matching where
  engines : ℕ → Option (String × TradeEngine)
  sent : List Report

namespace Matching

def start : Matching := ⟨fun _ => none, []⟩

/-- Replace an engine. -/
def setEngine (m : Matching) (n : ℕ) (e : Option (String × TradeEngine)) : Matching :=
  { m with engines := Function.update m.engines n e }

/-- What a call of a matching thread does; `none` is a call on the null pointer or on an engine
that is deleted. -/
def perform (session : ℤ × ℤ) (m : Matching) : EngineCall → Option Matching
  | .new n path => some (m.setEngine n (some (path, .new session)))
  | .call e .onComplete =>
    e.bind fun n => (m.engines n).bind fun (path, t) =>
      -- the engine is deleted after its results are sent
      (t.onComplete path).map fun (_, report) =>
        { m.setEngine n none with sent := m.sent ++ [report] }
  | .call e call =>
    e.bind fun n => (m.engines n).bind fun (path, t) =>
      call.call?.bind fun c => (t.apply c).map fun t => m.setEngine n (some (path, t))

def performAll (session : ℤ × ℤ) (m : Matching) (calls : List EngineCall) : Option Matching :=
  calls.foldlM (perform session) m

variable (session : ℤ × ℤ)

theorem performAll_append (m : Matching) (calls calls' : List EngineCall) :
    performAll session m (calls ++ calls') =
      (performAll session m calls).bind fun m => performAll session m calls' :=
  List.foldlM_append ..

theorem setEngine_setEngine (m : Matching) (n : ℕ) (e e' : Option (String × TradeEngine)) :
    (m.setEngine n e).setEngine n e' = m.setEngine n e' := by
  simp [setEngine]

@[simp] theorem engines_setEngine (m : Matching) (n : ℕ) (e : Option (String × TradeEngine)) :
    (m.setEngine n e).engines n = e := Function.update_self ..

/-- A call with the fields of a record. -/
theorem perform_of_engine {m : Matching} {n : ℕ} {path : String} {t : TradeEngine}
    (h : m.engines n = some (path, t)) {call : RecordCall} (hcall : call ≠ .onComplete) :
    perform session m (.call (some n) call) =
      call.call?.bind fun c => (t.apply c).map fun t => m.setEngine n (some (path, t)) := by
  cases call with
  | onComplete => exact absurd rfl hcall
  | initContract record => simp [perform, h]
  | insertAlpha record => simp [perform, h]
  | insertOrderLog record => simp [perform, h]

/-- **The records of an array**, one call after the other. -/
theorem performAll_recordCalls {call : List UInt8 → RecordCall}
    (hcall : ∀ r, call r ≠ .onComplete) (n : ℕ) (path : String) (rs : List (List UInt8))
    (m : Matching) (t : TradeEngine) :
    performAll session (m.setEngine n (some (path, t))) (recordCalls n call rs) =
      (rs.mapM fun r => (call r).call?).bind fun calls =>
        (t.run calls).map fun t => m.setEngine n (some (path, t)) := by
  induction rs generalizing t with
  | nil => rfl
  | cons r rs ih =>
    have hstep := perform_of_engine session (engines_setEngine m n (some (path, t))) (hcall r)
    rw [recordCalls, List.map_cons, ← recordCalls, performAll, List.foldlM_cons, hstep,
      List.mapM_cons]
    simp only [setEngine_setEngine]
    cases (call r).call? with
    | none => rfl
    | some c =>
      cases happly : t.apply c with
      | none => cases (rs.mapM fun r => (call r).call?) <;> simp [TradeEngine.run, happly]
      | some u =>
        have hrest := ih u
        rw [performAll] at hrest
        cases hload : rs.mapM fun r => (call r).call? <;>
          simp [TradeEngine.run, happly, hrest, hload]

/-- The records of the three files make the calls of the day. -/
theorem mapM_call? {α : Type} {layout : Layout α} {size : ℕ} (hsize : layout.size = size)
    (call : List UInt8 → RecordCall) (f : α → Call)
    (hcall : ∀ r, (call r).call? = (layout.load r).map f) (file : List UInt8) :
    ((records size file).mapM fun r => (call r).call?) = (layout.loadAll file).map (·.map f) := by
  have hpieces : records size file = Layout.pieces layout.size file := by rw [hsize]; rfl
  simp only [hcall]
  rw [hpieces, Layout.loadAll, mapM_map_eq]

end Matching

theorem TradeEngine.run_append (t : TradeEngine) (calls calls' : List Call) :
    t.run (calls ++ calls') = (t.run calls).bind fun t => t.run calls' := by
  induction calls generalizing t with
  | nil => rfl
  | cons call calls ih =>
    simp only [List.cons_append, TradeEngine.run, Option.bind_assoc, ih]

namespace Matching
variable (session : ℤ × ℤ)

/-- **The calls of a day send its report.** -/
theorem performAll_dayCalls (n : ℕ) (day : DayFiles) (m : Matching) :
    performAll session m (dayCalls n day) = (day.report session).map fun report =>
      { m.setEngine n none with sent := m.sent ++ [report] } := by
  have hprev := mapM_call? size_prevTradeInfoLayout .initContract prevTradeInfoCall
    (fun _ => rfl) day.prevTradeInfo
  have halpha := mapM_call? size_alphaLayout .insertAlpha alphaCall (fun _ => rfl) day.alpha
  have horder := mapM_call? size_orderLogLayout .insertOrderLog orderLogCall (fun _ => rfl)
    day.orderLog
  have hnew : performAll session m (dayCalls n day) =
      performAll session (m.setEngine n (some (dateName day.path, .new session)))
        (dayCalls n day).tail := rfl
  rw [hnew, dayCalls, List.tail_cons]
  simp only [performAll_append]
  have hcomplete : ∀ t, performAll session (m.setEngine n (some (dateName day.path, t)))
      [.call (some n) .onComplete] = (t.onComplete (dateName day.path)).map fun p =>
        { m.setEngine n none with sent := m.sent ++ [p.2] } := by
    intro t
    cases hend : t.onComplete (dateName day.path) <;> simp [performAll, perform, hend, setEngine]
  rw [DayFiles.report, DayFiles.calls]
  cases h₁ : prevTradeInfoLayout.loadAll day.prevTradeInfo <;>
    cases h₂ : alphaLayout.loadAll day.alpha <;>
    cases h₃ : orderLogLayout.loadAll day.orderLog <;>
    simp [performAll_recordCalls, hprev, halpha, horder, h₁, h₂, h₃, hcomplete,
      TradeEngine.run_append, Option.map_bind, Option.bind_map, Option.bind_assoc, Function.comp_def]

/-- **The calls of the days send their reports**, one after the other. -/
theorem sent_performAll_framedFrom (n : ℕ) (days : List DayFiles) (m : Matching) :
    (performAll session m (framedFrom n days)).map Matching.sent =
      (days.mapM (DayFiles.report session)).map fun reports => m.sent ++ reports := by
  induction days generalizing n m with
  | nil => simp [framedFrom, performAll]
  | cons day days ih =>
    rw [framedFrom, performAll_append, performAll_dayCalls, List.mapM_cons]
    cases day.report session with
    | none => rfl
    | some report =>
      rw [Option.map_some, Option.bind_some, ih]
      cases days.mapM (DayFiles.report session) <;> simp

end Matching

/-- **What the threads send under every fair schedule**: from some time on, each of them has sent
what its session should send of the days, one after the other, and nothing else. -/
theorem exists_sent (memory : Fin bufferNum → List UInt8 × List UInt8 × List UInt8)
    {days : List DayFiles} (hdays : ∀ day ∈ days, day.Loadable)
    (horders : ∀ day ∈ days, day.orderLog ≠ []) {schedule : ℕ → Thread}
    (hfair : Fairness.Fair schedule) :
    ∃ n, ∀ m, n ≤ m → ∀ id,
      let s := (Entrance.main memory (days.map DayFiles.reads)).run
        (Fairness.firstSteps schedule m)
      (Matching.performAll (sessionOf id) .start (s.workers id).calls).map Matching.sent =
        days.mapM (DayFiles.report (sessionOf id)) := by
  obtain ⟨n, hdone⟩ :=
    Entrance.exists_complete memory (fun day hday => (hdays day hday).fits) horders hfair
  refine ⟨n, fun m hle id => ?_⟩
  simp only [(hdone m hle id).2, framed, Matching.sent_performAll_framedFrom, Matching.start,
    List.nil_append, Option.map_id']

end MatchingEngine
