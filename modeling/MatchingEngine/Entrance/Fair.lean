import Mathlib
import MatchingEngine.Lib.Fairness
import MatchingEngine.Entrance.Framing

/-!
# Fair schedules of the loader and the matching threads

The threads test their buffers in loops without a lock, so all that can be asked of the
operating system is that no thread is left out for ever.  This is enough: a step of a thread
that is enabled leaves less to do, one of a thread that is not changes nothing.

## Main definitions

* `Enabled.measure_lt` — an enabled thread leaves less to do.
* `progresses` — the steps of the threads lead to the end.
* `fair_complete` — under every fair schedule the days are matched.
-/

namespace MatchingEngine
namespace Entrance

open Fairness

section steps
variable {s : Entrance} (h : Linked s ∧ Ring.Inv (ring s))
include h

/-- A matching thread that has caught up waits for its next buffer. -/
theorem CaughtUp.not_enabled {id : Fin workerThreadNum} (hid : s.CaughtUp id) :
    ¬ s.Enabled (.worker id) := by
  intro henabled
  have hdone : ¬ (ring s).done (s.workers id).bufferIndex id := not_not.mpr (henabled hid.pc)
  refine hdone ((h.2.done_iff id _).mpr fun k hk _ => ?_)
  change k < (s.workers id).processed.length
  rw [hid.processed]
  exact hk

/-- **A thread that is enabled leaves less to do.** -/
theorem Enabled.measure_lt {thread : Thread} (henabled : s.Enabled thread) :
    (s.step thread).measure < s.measure := by
  cases thread with
  | loader =>
    obtain ⟨access, accesses, hacc, hspin⟩ := henabled
    refine loader_step (hacc ▸ List.cons_ne_nil _ _) fun rest hrest => hspin ?_
    rw [hacc] at hrest
    exact (List.cons.inj hrest).1
  | worker id => exact exists_step_of_not_caughtUp h fun hid => hid.not_enabled h henabled

/-- At the end no thread changes anything. -/
theorem step_of_complete (hdone : ∀ id, s.Complete id) (thread : Thread) : s.step thread = s := by
  refine step_of_not_enabled fun henabled => ?_
  cases thread with
  | loader =>
    obtain ⟨access, accesses, hacc, -⟩ := henabled
    rw [(hdone 0).accesses] at hacc
    cases hacc
  | worker id => exact (hdone id).toCaughtUp.not_enabled h henabled

end steps

/-- The steps of the threads lead to the end. -/
theorem progresses :
    Progresses (fun s => Linked s ∧ Ring.Inv (ring s)) (fun s => ∀ id, s.Complete id) step
      measure where
  invariant _ thread h := inv_step h thread
  eq_or_lt s thread h := by
    by_cases henabled : s.Enabled thread
    · exact .inr (henabled.measure_lt h)
    · exact .inl (step_of_not_enabled henabled)
  done_step s thread h hdone := by
    rw [step_of_complete h hdone thread]
    exact hdone
  exists_step _ h := exists_step h

/-- The threads in turn. -/
def inTurns (n : ℕ) : Thread :=
  if h : n % (workerThreadNum + 1) < workerThreadNum then .worker ⟨_, h⟩ else .loader

theorem fair_inTurns : Fair inTurns := by
  intro thread n
  cases thread with
  | loader =>
    refine ⟨6 * n + 5, by omega, ?_⟩
    have hmod : (6 * n + 5) % (workerThreadNum + 1) = workerThreadNum := by
      simp only [workerThreadNum]
      omega
    simp [inTurns, hmod]
  | worker id =>
    refine ⟨6 * n + id, by omega, ?_⟩
    have hid : id.val < 5 := id.isLt
    have hmod : (6 * n + id) % (workerThreadNum + 1) = id := by
      simp only [workerThreadNum]
      omega
    simp [inTurns, hmod]

/-- Under a fair schedule the loader comes to its end, and every matching thread has made the
calls of the days. -/
theorem exists_complete (memory : Fin bufferNum → List UInt8 × List UInt8 × List UInt8)
    {days : List DayFiles} (hdays : ∀ day ∈ days, day.Fits)
    (horders : ∀ day ∈ days, day.orderLog ≠ []) {schedule : ℕ → Thread} (hfair : Fair schedule) :
    ∃ n, ∀ m, n ≤ m → ∀ id,
      let s := (main memory (days.map DayFiles.reads)).run (firstSteps schedule m)
      s.Complete id ∧ (s.workers id).calls = framed days := by
  obtain ⟨n, hdone⟩ := progresses.eventually
    (ring_inv memory (days.map DayFiles.reads) []) schedule hfair
  refine ⟨n, fun m hle id => ?_⟩
  have hcomplete : ((main memory (days.map DayFiles.reads)).run (firstSteps schedule m)).Complete id
    := hdone m hle id
  have hcalls := (tracks_run memory _ (firstSteps schedule m) id).calls_of_complete hcomplete
  rw [matchingCalls_announced_run, callsFrom_ioThread hdays horders] at hcalls
  exact ⟨hcomplete, hcalls⟩

/-- **Under every fair schedule the days are matched**: from some time on the loader is at its
end, every matching thread waits, and it has processed all that was published and made exactly
the calls of the days, one after the other. -/
theorem fair_complete (memory : Fin bufferNum → List UInt8 × List UInt8 × List UInt8)
    {days : List DayFiles} (hdays : ∀ day ∈ days, day.Loadable)
    (horders : ∀ day ∈ days, day.orderLog ≠ []) {schedule : ℕ → Thread} (hfair : Fair schedule) :
    ∃ n, ∀ m, n ≤ m →
      let s := (main memory (days.map DayFiles.reads)).run (firstSteps schedule m)
      s.accesses = [] ∧ ∀ id, (s.workers id).pc = .spin ∧
        (s.workers id).processed = s.published ∧ (s.workers id).calls = framed days := by
  obtain ⟨n, hdone⟩ :=
    exists_complete memory (fun day hday => (hdays day hday).fits) horders hfair
  refine ⟨n, fun m hle => ⟨(hdone m hle 0).1.accesses, fun id => ?_⟩⟩
  obtain ⟨hcomplete, hcalls⟩ := hdone m hle id
  exact ⟨hcomplete.pc, hcomplete.processed, hcalls⟩

/-- The threads in turn match the five days of the example. -/
theorem fair_complete_of_inTurns :
    ∃ n, ∀ m, n ≤ m →
      let s := (main (fun _ => ([], [], [])) (fiveDays.map DayFiles.reads)).run
        (firstSteps inTurns m)
      s.accesses = [] ∧ ∀ id, (s.workers id).pc = .spin ∧
        (s.workers id).processed = s.published ∧ (s.workers id).calls = framed fiveDays :=
  fair_complete (fun _ => ([], [], [])) loadable_fiveDays orderLog_ne_nil_fiveDays fair_inTurns

end Entrance
end MatchingEngine
