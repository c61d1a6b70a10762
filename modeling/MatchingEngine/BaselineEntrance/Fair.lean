import Mathlib
import MatchingEngine.Entrance.Fair
import MatchingEngine.BaselineEntrance.Drivers

/-!
# Fair schedules of the baseline driver

`main` spins for its buffers too, but while it loads a day no thread is there that could release
one.  So a fair schedule comes to its end just if no day is longer than the ring, and a day that
is longer is never matched, under whatever schedule.

## Main definitions

* `Inv.eq_or_lt` — a step changes nothing or leaves less to do.
* `fair_finished_iff` — when every fair schedule matches the days.
-/

namespace MatchingEngine
namespace BaselineEntrance

open Fairness

/-! ## One step -/

section step
variable {past : List DayFiles} {day : DayFiles} {rest : List DayFiles}
  {toCreate toJoin : List (Fin workerThreadNum)} {s : BaselineEntrance}
  (h : InDay past day rest toCreate toJoin s)
include h

/-- While `main` reads, it waits for a buffer or leaves less to do. -/
theorem InDay.read_eq_or_lt (haccesses : s.accesses ≠ []) :
    s.mainStep = s ∨ s.mainStep.measure < s.measure := by
  obtain ⟨access, accesses, hacc⟩ := List.exists_cons_of_ne_nil haccesses
  have hstep : s.mainStep = { s with toEntrance := s.toEntrance.loaderStep } := by
    simp only [BaselineEntrance.mainStep, hacc]
  rw [hstep]
  by_cases henabled : s.toEntrance.Enabled .loader
  · exact .inr (measure_lt_of_entrance rfl
      (henabled.measure_lt ⟨h.ofDay.linked, h.ofDay.inv⟩))
  · have hstay : s.toEntrance.loaderStep = s.toEntrance := Entrance.step_of_not_enabled henabled
    refine .inl ?_
    rw [hstay]

/-- A matching thread waits for a buffer or leaves less to do. -/
theorem InDay.worker_eq_or_lt (id : Fin workerThreadNum) :
    s.workerStep id = s ∨ (s.workerStep id).measure < s.measure := by
  have hinv : Entrance.Linked s.toEntrance ∧ Ring.Inv (Entrance.ring s.toEntrance) :=
    ⟨h.ofDay.linked, h.ofDay.inv⟩
  have htodo : (s.workerStep id).todo = s.todo := by rw [(h.workerStep id).todo, h.todo]
  have hlt : s.toEntrance.Enabled (.worker id) →
      (s.toEntrance.workerStep id).measure < s.toEntrance.measure :=
    fun henabled => henabled.measure_lt hinv
  have hok := h.status id
  cases hstatus : s.status id with
  | absent => exact .inl (by simp only [BaselineEntrance.workerStep, hstatus])
  | ended => exact .inl (by simp only [BaselineEntrance.workerStep, hstatus])
  | joined => exact .inl (by simp only [BaselineEntrance.workerStep, hstatus])
  | last =>
    rw [hstatus] at hok
    have henabled : s.toEntrance.Enabled (.worker id) := fun hspin => by
      rw [hok.1] at hspin
      cases hspin
    refine .inr (measure_lt_of_entrance htodo ?_)
    simpa only [BaselineEntrance.workerStep, hstatus] using hlt henabled
  | running =>
    by_cases henabled : s.toEntrance.Enabled (.worker id)
    · refine .inr (measure_lt_of_entrance htodo ?_)
      simpa only [BaselineEntrance.workerStep, hstatus] using hlt henabled
    · have hstay : s.toEntrance.workerStep id = s.toEntrance :=
        Entrance.step_of_not_enabled henabled
      have hspin : (s.workers id).pc = .spin := (Classical.not_imp.mp henabled).1
      refine .inl ?_
      simp only [BaselineEntrance.workerStep, hstatus, hstay, hspin, reduceCtorEq, false_and,
        if_false]

end step

/-- Between two days `main` ends or leaves less to do. -/
theorem Between.eq_or_lt {past rest : List DayFiles} {s : BaselineEntrance}
    (h : Between past rest s) : s.mainStep = s ∨ s.mainStep.measure < s.measure := by
  cases rest with
  | nil => exact .inl (by simp [BaselineEntrance.mainStep, h.accesses, h.todo, mainLoop])
  | cons day rest =>
    refine .inr (measure_lt_of_todo ?_)
    rw [h.load.todo, h.todo, mainLoop_cons, List.length_cons]
    exact Nat.lt_succ_self _

section runs
variable {days : List DayFiles} (hdays : ∀ day ∈ days, day.Fits)
include hdays

/-- A step of `main` changes nothing or leaves less to do. -/
theorem Inv.main_eq_or_lt {s : BaselineEntrance} (h : Inv days s) :
    s.mainStep = s ∨ s.mainStep.measure < s.measure := by
  cases h with
  | between past rest hsplit hpast hs => exact hs.eq_or_lt
  | inDay past day rest toCreate toJoin hsplit hpast hs =>
    have hmem : day ∈ days := hsplit ▸ List.mem_append_right past List.mem_cons_self
    by_cases haccesses : s.accesses = []
    · cases toCreate with
      | cons id toCreate =>
        refine .inr (measure_lt_of_todo ?_)
        rw [(hs.create haccesses).todo, hs.todo]
        exact Nat.lt_succ_self _
      | nil =>
        cases toJoin with
        | nil => exact (hs.between (hdays day hmem)).1.eq_or_lt
        | cons id toJoin =>
          by_cases hended : s.status id = .ended
          · refine .inr (measure_lt_of_todo ?_)
            simp only [BaselineEntrance.mainStep, haccesses, hs.todo, List.map_nil,
              List.nil_append, List.map_cons, List.cons_append, hended, if_true]
            exact Nat.lt_succ_self _
          · exact .inl (by simp [BaselineEntrance.mainStep, haccesses, hs.todo, hended])
    · exact hs.read_eq_or_lt haccesses

/-- **A step of a thread changes nothing or leaves less to do.** -/
theorem Inv.eq_or_lt {s : BaselineEntrance} (h : Inv days s) (thread : Thread) :
    s.step thread = s ∨ (s.step thread).measure < s.measure := by
  cases thread with
  | loader => exact h.main_eq_or_lt hdays
  | worker id =>
    cases h with
    | between past rest hsplit hpast hs => exact .inl (hs.workerStep id)
    | inDay past day rest toCreate toJoin hsplit hpast hs => exact hs.worker_eq_or_lt id

omit hdays in
/-- What is done stays done. -/
theorem Finished.step {s : BaselineEntrance} (h : s.Finished) (thread : Thread) :
    (s.step thread).Finished := by
  cases thread with
  | loader =>
    have hstep : s.step .loader = s := by
      simp only [BaselineEntrance.step, BaselineEntrance.mainStep, h.accesses, h.todo]
    rw [hstep]
    exact h
  | worker id =>
    have haccesses := (Entrance.accesses_workerStep s.toEntrance id).trans h.accesses
    constructor
    · simp only [BaselineEntrance.step, BaselineEntrance.workerStep]
      split
      · exact haccesses
      · exact haccesses
      · exact h.accesses
    · simp only [BaselineEntrance.step, BaselineEntrance.workerStep]
      split <;> exact h.todo

/-- **When a fair schedule matches the days**: from some time on `main` is at its end and the
threads have made the calls of every day, just if no `order_log` is longer than seven of the
eight buffers. -/
theorem fair_finished_iff (horders : ∀ day ∈ days, day.orderLog ≠ [])
    (memory : Fin bufferNum → List UInt8 × List UInt8 × List UInt8) {schedule : ℕ → Thread}
    (hfair : Fair schedule) :
    (∃ n, ∀ m, n ≤ m →
      let s := (main memory (days.map DayFiles.reads)).run (firstSteps schedule m)
      s.Finished ∧ ∀ id, s.log id = days.map (dayCalls 0)) ↔
    ∀ day ∈ days, day.orderLog.length ≤ (bufferNum - 1) * readBufferSize := by
  have hinv := inv_run hdays horders memory
  have hiff : (∀ day ∈ days, day.reads.orderReads.length < bufferNum) ↔
      ∀ day ∈ days, day.orderLog.length ≤ (bufferNum - 1) * readBufferSize :=
    forall₂_congr fun day hday => length_orderReads_lt_iff (hdays day hday)
  rw [← hiff]
  constructor
  · intro ⟨n, hn⟩
    exact ((hinv _).of_finished hdays (hn n le_rfl).1).1
  · intro hshort
    have hprogresses : Progresses (Inv days) Finished step measure :=
      ⟨fun _ thread h => Inv.step hdays horders h thread, fun _ thread h => h.eq_or_lt hdays thread,
        fun _ thread _ hdone => hdone.step thread, fun _ h => h.exists_step hdays hshort⟩
    obtain ⟨n, hn⟩ := hprogresses.eventually (hinv []) schedule hfair
    refine ⟨n, fun m hle => ?_⟩
    have hfinished : ((main memory (days.map DayFiles.reads)).run (firstSteps schedule m)).Finished
      := hn m hle
    exact ⟨hfinished, ((hinv _).of_finished hdays hfinished).2⟩

end runs

/-- The threads in turn match the two days of the example. -/
theorem fair_finished_of_inTurns :
    ∃ n, ∀ m, n ≤ m →
      let s := (main (fun _ => ([], [], [])) (twoDays.map DayFiles.reads)).run
        (firstSteps Entrance.inTurns m)
      s.Finished ∧ ∀ id, s.log id = twoDays.map (dayCalls 0) :=
  (fair_finished_iff fits_twoDays orderLog_ne_nil_twoDays _ Entrance.fair_inTurns).mpr
    length_orderLog_twoDays

end BaselineEntrance
end MatchingEngine
