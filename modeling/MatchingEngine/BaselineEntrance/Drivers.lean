import Mathlib
import MatchingEngine.BaselineEntrance.Days

/-!
# The two drivers agree

As long as the files of a day are loaded no matching thread runs, and so no buffer is
released.  A day of which `order_log` is read in at most seven pieces fits into the ring with
its last buffer; then the threads are made, they process the day, and all buffers are free
for the next one.  With more pieces `main` comes back to the first buffer of the day and
waits there for ever.

## Main definitions

* `InDay`, `Between` — the states of the baseline driver.
* `Inv`, `inv_run` — every state it reaches is one of these.
* `Finished`, `Waits` — `main` is at its end, or waits for a buffer.
* `Agrees`, `agrees_iff` — when the baseline driver does what `entrance` does.
-/

namespace MatchingEngine
namespace BaselineEntrance

/-! ## The states of the driver -/

/-- `main` is at the start of a day, or at its end. -/
structure Between (past rest : List DayFiles) (s : BaselineEntrance) : Prop where
  accesses : s.accesses = []
  todo : s.todo = mainLoop (rest.map DayFiles.reads)
  mask : ∀ i, (s.buffers i).finishBit = allWorkerBit
  status : ∀ id, s.status id = .absent ∨ s.status id = .joined
  log : ∀ id, s.log id = past.map (dayCalls 0)

/-- `main` is in the day `day`, with the threads `toCreate` still to create and `toJoin` still
to join. -/
structure InDay (past : List DayFiles) (day : DayFiles) (rest : List DayFiles)
    (toCreate toJoin : List (Fin workerThreadNum)) (s : BaselineEntrance) : Prop where
  ofDay : s.toEntrance.OfDay day
  status : ∀ id, (s.status id).Ok s.toEntrance id
  loading : s.accesses ≠ [] → ∀ id, s.status id = .absent
  published_le : s.published.length ≤ bufferNum
  todo : s.todo = toCreate.map .create ++ toJoin.map .join ++ mainLoop (rest.map DayFiles.reads)
  nodup_toCreate : toCreate.Nodup
  nodup_toJoin : toJoin.Nodup
  absent_iff : ∀ id, s.status id = .absent ↔ id ∈ toCreate
  joined_iff : ∀ id, s.status id = .joined ↔ id ∉ toJoin
  log : ∀ id, s.log id = past.map (dayCalls 0) ++ if id ∈ toJoin then [] else [dayCalls 0 day]

/-- The days before `main` fitted into the ring. -/
inductive Inv (days : List DayFiles) (s : BaselineEntrance) : Prop
  | between (past rest : List DayFiles) (hdays : days = past ++ rest)
    (hpast : ∀ day ∈ past, day.reads.orderReads.length < bufferNum) (h : Between past rest s)
  | inDay (past : List DayFiles) (day : DayFiles) (rest : List DayFiles)
    (toCreate toJoin : List (Fin workerThreadNum)) (hdays : days = past ++ day :: rest)
    (hpast : ∀ day ∈ past, day.reads.orderReads.length < bufferNum)
    (h : InDay past day rest toCreate toJoin s)

theorem mem_threadIds (id : Fin workerThreadNum) : id ∈ threadIds := List.mem_finRange id

theorem mainLoop_cons (day : DayFiles) (rest : List DayFiles) :
    mainLoop ((day :: rest).map DayFiles.reads) =
      .load day.reads :: (threadIds.map .create ++ threadIds.map .join ++
        mainLoop (rest.map DayFiles.reads)) := rfl

/-! ## The steps of a day -/

section between
variable {past rest : List DayFiles} {s : BaselineEntrance}

/-- No matching thread runs. -/
theorem Between.workerStep (h : Between past rest s) (id : Fin workerThreadNum) :
    s.workerStep id = s := by
  rcases h.status id with hid | hid <;> simp only [BaselineEntrance.workerStep, hid]

/-- The next day begins in free buffers. -/
theorem Between.load {day : DayFiles} (h : Between past (day :: rest) s) :
    InDay past day rest threadIds threadIds s.mainStep := by
  have htodo := h.todo
  rw [mainLoop_cons] at htodo
  set t : BaselineEntrance := { s.load day.reads with
    todo := threadIds.map .create ++ threadIds.map .join ++ mainLoop (rest.map DayFiles.reads) }
    with ht
  have hstep : s.mainStep = t := by
    simp only [mainStep, h.accesses, htodo, ht]
  have hfresh : t.toEntrance.Fresh :=
    ⟨h.mask, rfl, rfl, fun _ => rfl, alternates_directIoLoad day.reads⟩
  rw [hstep]
  refine ⟨hfresh.ofDay rfl, fun _ => rfl, fun _ _ => rfl, Nat.zero_le _, rfl,
    List.nodup_finRange _, List.nodup_finRange _, fun id => ?_, fun id => ?_, fun id => ?_⟩
  · exact iff_of_true rfl (mem_threadIds id)
  · exact iff_of_false (by simp [ht, BaselineEntrance.load]) (not_not.mpr (mem_threadIds id))
  · rw [if_pos (mem_threadIds id), List.append_nil]
    exact h.log id

end between

section inDay
variable {past : List DayFiles} {day : DayFiles} {rest : List DayFiles}
  {toCreate toJoin : List (Fin workerThreadNum)} {s : BaselineEntrance}

/-- While the files are loaded, the buffers that are published stay so. -/
theorem InDay.loaderStep (h : InDay past day rest toCreate toJoin s) (haccesses : s.accesses ≠ []) :
    InDay past day rest toCreate toJoin s.mainStep := by
  have habsent := h.loading haccesses
  obtain ⟨access, accesses, hacc⟩ := List.exists_cons_of_ne_nil haccesses
  have hstep : s.mainStep = { s with toEntrance := s.toEntrance.loaderStep } := by
    simp only [mainStep, hacc]
  have hday : s.toEntrance.loaderStep.OfDay day := h.ofDay.step .loader
  have hworkers := (Entrance.published_loaderStep s.toEntrance).1
  have hnew : ∀ id, s.workers id = .new := fun id => by
    have hok := h.status id
    rw [habsent id] at hok
    exact hok
  rw [hstep]
  refine ⟨hday, fun id => ?_, fun _ => habsent, ?_, h.todo, h.nodup_toCreate, h.nodup_toJoin,
    h.absent_iff, h.joined_iff, h.log⟩
  · simp only [habsent id]
    exact (congrFun hworkers id).trans (hnew id)
  · -- No thread has processed a buffer, so one lap at most has been published.
    have hlap := hday.inv.lap 0
    have hplace : (Entrance.ring s.toEntrance.loaderStep).place 0 = 0 := by
      change (s.toEntrance.loaderStep.workers 0).processed.length = 0
      rw [hworkers, hnew 0]
      rfl
    rw [hplace, Nat.zero_add] at hlap
    exact hlap

/-- A step of a thread that runs. -/
theorem InDay.step_thread (h : InDay past day rest toCreate toJoin s) {id : Fin workerThreadNum}
    {status : Status} (hold : s.status id = .running ∨ s.status id = .last)
    (hnew : status = .running ∨ status = .last ∨ status = .ended)
    (hok : status.Ok (s.toEntrance.workerStep id) id) :
    InDay past day rest toCreate toJoin { s with
      toEntrance := s.toEntrance.workerStep id
      status := Function.update s.status id status } := by
  have hpresent : s.status id ≠ .absent ∧ s.status id ≠ .joined := by
    rcases hold with hold | hold <;> rw [hold] <;> decide
  have hstatus : status ≠ .absent ∧ status ≠ .joined := by
    rcases hnew with rfl | rfl | rfl <;> decide
  have hpublished := Entrance.published_workerStep s.toEntrance id
  refine ⟨h.ofDay.step (.worker id), ?_, fun hacc => ?_, ?_, h.todo, h.nodup_toCreate,
    h.nodup_toJoin, ?_, ?_, h.log⟩
  · refine (Function.forall_update_iff s.status
      fun v status => status.Ok (s.toEntrance.workerStep id) v).mpr ⟨hok, fun v hv => ?_⟩
    exact (h.status v).of_eq (Entrance.workers_workerStep_of_ne _ hv)
      (Entrance.contents_workerStep _ id)
  · rw [Entrance.accesses_workerStep] at hacc
    exact absurd (h.loading hacc id) hpresent.1
  · simp only [hpublished]
    exact h.published_le
  · refine (Function.forall_update_iff s.status
      fun v status => status = .absent ↔ v ∈ toCreate).mpr ⟨?_, fun v _ => h.absent_iff v⟩
    rw [← h.absent_iff]
    exact iff_of_false hstatus.1 hpresent.1
  · refine (Function.forall_update_iff s.status
      fun v status => status = .joined ↔ v ∉ toJoin).mpr ⟨?_, fun v _ => h.joined_iff v⟩
    rw [← h.joined_iff]
    exact iff_of_false hstatus.2 hpresent.2

theorem InDay.workerStep (h : InDay past day rest toCreate toJoin s) (id : Fin workerThreadNum) :
    InDay past day rest toCreate toJoin (s.workerStep id) := by
  have hok := h.status id
  cases hstatus : s.status id with
  | absent => simpa only [BaselineEntrance.workerStep, hstatus] using h
  | ended => simpa only [BaselineEntrance.workerStep, hstatus] using h
  | joined => simpa only [BaselineEntrance.workerStep, hstatus] using h
  | last =>
    rw [hstatus] at hok
    simp only [BaselineEntrance.workerStep, hstatus]
    exact h.step_thread (.inr hstatus) (.inr (.inr rfl)) hok.last_step
  | running =>
    rw [hstatus] at hok
    have hnext := hok.running_step
    simp only [BaselineEntrance.workerStep, hstatus]
    by_cases hend : (s.workers id).pc = .tail ∧
        (s.buffers (s.workers id).bufferIndex).flag = .FileEnd
    · rw [if_pos hend] at hnext
      rw [if_pos hend]
      exact h.step_thread (.inl hstatus) (.inr (.inl rfl)) hnext
    · rw [if_neg hend] at hnext
      rw [if_neg hend]
      have hinDay := h.step_thread (.inl hstatus) (.inl rfl) hnext
      rwa [← hstatus, Function.update_eq_self] at hinDay

/-- After the load `main` creates the next thread. -/
theorem InDay.create {id : Fin workerThreadNum}
    (h : InDay past day rest (id :: toCreate) toJoin s) (haccesses : s.accesses = []) :
    InDay past day rest toCreate toJoin s.mainStep := by
  have htodo := h.todo
  rw [List.map_cons, List.cons_append, List.cons_append] at htodo
  have hstep : s.mainStep = { s with
      status := Function.update s.status id .running
      todo := toCreate.map .create ++ toJoin.map .join ++ mainLoop (rest.map DayFiles.reads) } := by
    simp only [mainStep, haccesses, htodo]
  obtain ⟨hnotMem, hnodup⟩ := List.nodup_cons.mp h.nodup_toCreate
  have habsent : s.status id = .absent := (h.absent_iff id).mpr List.mem_cons_self
  rw [hstep]
  refine ⟨h.ofDay, ?_, fun hacc => absurd haccesses hacc, h.published_le, rfl, hnodup,
    h.nodup_toJoin, ?_, ?_, h.log⟩
  · refine (Function.forall_update_iff s.status
      fun v status => status.Ok s.toEntrance v).mpr ⟨?_, fun v _ => h.status v⟩
    have hnew := h.status id
    rw [habsent] at hnew
    change s.workers id = .new at hnew
    refine ⟨?_, ?_⟩
    · rw [Entrance.released, hnew]
      exact fun _ hc => absurd hc List.not_mem_nil
    · rw [hnew]
      exact fun hpc => absurd hpc (by decide)
  · refine (Function.forall_update_iff s.status
      fun v status => status = .absent ↔ v ∈ toCreate).mpr ⟨?_, fun v hv => ?_⟩
    · exact iff_of_false (by decide) hnotMem
    · rw [h.absent_iff, List.mem_cons]
      exact or_iff_right hv
  · refine (Function.forall_update_iff s.status
      fun v status => status = .joined ↔ v ∉ toJoin).mpr ⟨?_, fun v _ => h.joined_iff v⟩
    rw [← h.joined_iff, habsent]
    decide

variable (hday : day.Fits) (horders : day.orderLog ≠ [])
include hday horders

/-- Then it waits for the next thread to come to its end. -/
theorem InDay.join {id : Fin workerThreadNum} (h : InDay past day rest [] (id :: toJoin) s)
    (haccesses : s.accesses = []) (hended : s.status id = .ended) :
    InDay past day rest [] toJoin s.mainStep := by
  have htodo := h.todo
  rw [List.map_nil, List.nil_append, List.map_cons, List.cons_append] at htodo
  have hstep : s.mainStep = { s with
      status := Function.update s.status id .joined
      log := Function.update s.log id (s.log id ++ [(s.workers id).calls])
      todo := toJoin.map .join ++ mainLoop (rest.map DayFiles.reads) } := by
    simp only [mainStep, haccesses, htodo, hended, if_true]
  obtain ⟨hnotMem, hnodup⟩ := List.nodup_cons.mp h.nodup_toJoin
  have hok := h.status id
  rw [hended] at hok
  have hdone := h.ofDay.complete_of_fileEnd hday hok.1 haccesses hok.2
  have hcalls := h.ofDay.calls_of_complete hday horders hdone
  rw [hstep]
  refine ⟨h.ofDay, ?_, fun hacc => absurd haccesses hacc, h.published_le, rfl,
    List.nodup_nil, hnodup, ?_, ?_, ?_⟩
  · exact (Function.forall_update_iff s.status
      fun v status => status.Ok s.toEntrance v).mpr ⟨hok, fun v _ => h.status v⟩
  · refine (Function.forall_update_iff s.status
      fun v status => status = .absent ↔ v ∈ []).mpr ⟨?_, fun v _ => h.absent_iff v⟩
    exact iff_of_false (by decide) List.not_mem_nil
  · refine (Function.forall_update_iff s.status
      fun v status => status = .joined ↔ v ∉ toJoin).mpr ⟨iff_of_true rfl hnotMem, fun v hv => ?_⟩
    rw [h.joined_iff, List.mem_cons]
    exact not_congr (or_iff_right hv)
  · refine (Function.forall_update_iff s.log fun v log => log =
      past.map (dayCalls 0) ++ if v ∈ toJoin then [] else [dayCalls 0 day]).mpr
        ⟨?_, fun v hv => ?_⟩
    · have hlog := h.log id
      rw [if_pos List.mem_cons_self, List.append_nil] at hlog
      rw [hlog, hcalls, if_neg hnotMem]
    · rw [h.log v]
      simp only [List.mem_cons, hv, false_or]

omit horders in
/-- When all threads have been joined the day is over, and it fitted into the ring. -/
theorem InDay.between (h : InDay past day rest [] [] s) :
    Between (past ++ [day]) rest s ∧ day.reads.orderReads.length < bufferNum := by
  have hjoined : ∀ id, s.status id = .joined := fun id => (h.joined_iff id).mpr List.not_mem_nil
  have haccesses : s.accesses = [] := by
    by_contra hne
    have habsent := h.loading hne 0
    rw [hjoined 0] at habsent
    cases habsent
  have hdone : ∀ id, s.toEntrance.CaughtUp id := fun id => by
    have hok := h.status id
    rw [hjoined id] at hok
    exact (h.ofDay.complete_of_fileEnd hday hok.1 haccesses hok.2).toCaughtUp
  have hlength := (h.ofDay.endsDay hday).2
  rw [Entrance.announced, haccesses, segments, List.append_nil, List.length_map] at hlength
  refine ⟨⟨haccesses, h.todo, Entrance.mask_of_caughtUp ⟨h.ofDay.linked, h.ofDay.inv⟩ hdone,
    fun id => .inr (hjoined id), fun id => ?_⟩, ?_⟩
  · rw [h.log id, if_neg List.not_mem_nil, List.map_append]
    rfl
  · have := h.published_le
    omega

end inDay

/-! ## Every interleaving -/

theorem run_append (s : BaselineEntrance) (schedule schedule' : List Thread) :
    s.run (schedule ++ schedule') = (s.run schedule).run schedule' := List.foldl_append

theorem eq_append_of_eq_append_cons {α : Type*} {l past rest : List α} {a : α}
    (h : l = past ++ a :: rest) : l = past ++ [a] ++ rest := by
  rw [h, List.append_assoc]
  rfl

section runs
variable {days : List DayFiles} (hdays : ∀ day ∈ days, day.Fits)
  (horders : ∀ day ∈ days, day.orderLog ≠ [])
include hdays horders

theorem Inv.mainStep {s : BaselineEntrance} (h : Inv days s) : Inv days s.mainStep := by
  -- Between two days the next one is loaded.
  have hbetween : ∀ (s : BaselineEntrance) (past rest : List DayFiles), days = past ++ rest →
      (∀ day ∈ past, day.reads.orderReads.length < bufferNum) → Between past rest s →
      Inv days s.mainStep := by
    intro s past rest hsplit hpast hs
    cases rest with
    | nil =>
      have hstep : s.mainStep = s := by
        simp only [BaselineEntrance.mainStep, hs.accesses, hs.todo, mainLoop, List.map_nil,
          List.flatMap_nil]
      rw [hstep]
      exact .between past [] hsplit hpast hs
    | cons day rest => exact .inDay past day rest threadIds threadIds hsplit hpast hs.load
  cases h with
  | between past rest hsplit hpast hs => exact hbetween s past rest hsplit hpast hs
  | inDay past day rest toCreate toJoin hsplit hpast hs =>
    have hmem : day ∈ days := hsplit ▸ List.mem_append_right past List.mem_cons_self
    by_cases haccesses : s.accesses = []
    · cases toCreate with
      | cons id toCreate =>
        exact .inDay past day rest toCreate toJoin hsplit hpast (hs.create haccesses)
      | nil =>
        cases toJoin with
        | cons id toJoin =>
          by_cases hended : s.status id = .ended
          · exact .inDay past day rest [] toJoin hsplit hpast
              (hs.join (hdays day hmem) (horders day hmem) haccesses hended)
          · have hstep : s.mainStep = s := by
              simp only [BaselineEntrance.mainStep, haccesses, hs.todo, List.map_nil,
                List.nil_append, List.map_cons, List.cons_append, hended, if_false]
            rw [hstep]
            exact .inDay past day rest [] (id :: toJoin) hsplit hpast hs
        | nil =>
          obtain ⟨hnext, hshort⟩ := hs.between (hdays day hmem)
          refine hbetween s _ rest (eq_append_of_eq_append_cons hsplit) ?_ hnext
          exact List.forall_mem_append.mpr ⟨hpast, List.forall_mem_singleton.mpr hshort⟩
    · exact .inDay past day rest toCreate toJoin hsplit hpast (hs.loaderStep haccesses)

/-- **Every step of a thread keeps the invariant.** -/
theorem Inv.step {s : BaselineEntrance} (h : Inv days s) (thread : Thread) :
    Inv days (s.step thread) := by
  cases thread with
  | loader => exact Inv.mainStep hdays horders h
  | worker id =>
    cases h with
    | between past rest hsplit hpast hs =>
      have hstep : s.step (.worker id) = s := hs.workerStep id
      rw [hstep]
      exact .between past rest hsplit hpast hs
    | inDay past day rest toCreate toJoin hsplit hpast hs =>
      exact .inDay past day rest toCreate toJoin hsplit hpast (hs.workerStep id)

/-- **Every state that the driver reaches** is at the start or inside of a day. -/
theorem inv_run (memory : Fin bufferNum → List UInt8 × List UInt8 × List UInt8)
    (schedule : List Thread) :
    Inv days ((main memory (days.map DayFiles.reads)).run schedule) := by
  induction schedule using List.reverseRecOn with
  | nil =>
    exact .between [] days rfl (fun _ h => absurd h List.not_mem_nil)
      ⟨rfl, rfl, fun _ => rfl, fun _ => .inl rfl, fun _ => rfl⟩
  | append_singleton schedule thread ih =>
    rw [run_append]
    exact Inv.step hdays horders ih thread

/-- `main` is at its end. -/
structure Finished (s : BaselineEntrance) : Prop where
  accesses : s.accesses = []
  todo : s.todo = []

omit horders in
/-- At the end all days have been matched, and all of them fitted into the ring. -/
theorem Inv.of_finished {s : BaselineEntrance} (h : Inv days s) (hfinished : s.Finished) :
    (∀ day ∈ days, day.reads.orderReads.length < bufferNum) ∧
      ∀ id, s.log id = days.map (dayCalls 0) := by
  have hrest : ∀ rest : List DayFiles, mainLoop (rest.map DayFiles.reads) = [] → rest = [] := by
    intro rest hnil
    cases rest with
    | nil => rfl
    | cons day rest => cases hnil
  cases h with
  | between past rest hsplit hpast hs =>
    obtain rfl := hrest rest (hs.todo.symm.trans hfinished.todo)
    obtain rfl : days = past := hsplit.trans (List.append_nil past)
    exact ⟨hpast, hs.log⟩
  | inDay past day rest toCreate toJoin hsplit hpast hs =>
    have htodo := hs.todo.symm.trans hfinished.todo
    obtain ⟨hthreads, hnil⟩ := List.append_eq_nil_iff.mp htodo
    obtain ⟨hcreate, hjoin⟩ := List.append_eq_nil_iff.mp hthreads
    obtain rfl := List.map_eq_nil_iff.mp hcreate
    obtain rfl := List.map_eq_nil_iff.mp hjoin
    obtain rfl := hrest rest hnil
    have hmem : day ∈ days := hsplit ▸ List.mem_append_right past List.mem_cons_self
    obtain ⟨hend, hshort⟩ := hs.between (hdays day hmem)
    subst hsplit
    exact ⟨List.forall_mem_append.mpr ⟨hpast, List.forall_mem_singleton.mpr hshort⟩, hend.log⟩

end runs

/-! ## Waiting -/

/-- `main` waits for a buffer that is not free. -/
def Waits (s : BaselineEntrance) : Prop :=
  ∃ accesses, s.accesses = .spin :: accesses ∧
    (s.buffers s.bufferIndex).finishBit ≠ allWorkerBit

/-- A buffer that the loader writes will be published. -/
theorem segments_ne_nil {accesses : List Access} (h : Alternates true accesses) (i : Fin bufferNum)
    (buffers : Fin bufferNum → Segment) : segments accesses i buffers ≠ [] := by
  generalize hb : true = b at h
  induction h generalizing buffers with
  | done => cases hb
  | spin _ => cases hb
  | write w _ ih => exact ih _ hb
  | publish _ => exact List.cons_ne_nil _ _

section waits
variable {past : List DayFiles} {day : DayFiles} {rest : List DayFiles}
  {toCreate toJoin : List (Fin workerThreadNum)} {s : BaselineEntrance}
  (h : InDay past day rest toCreate toJoin s) (hday : day.Fits)
include h hday

/-- A day that fits into the ring comes to no buffer twice. -/
theorem InDay.mask_eq (hshort : day.reads.orderReads.length < bufferNum)
    {accesses : List Access} (hacc : s.accesses = .spin :: accesses) :
    (s.buffers s.bufferIndex).finishBit = allWorkerBit := by
  have hlinked := h.ofDay.linked
  have hlength := (h.ofDay.endsDay hday).2
  obtain ⟨b, halt⟩ := hlinked.accesses
  rw [hacc] at halt
  cases halt with
  | spin halt =>
    have hpos := List.length_pos_of_ne_nil
      (segments_ne_nil halt s.bufferIndex s.toEntrance.contents)
    rw [Entrance.announced, hacc, segments, List.length_append, List.length_map] at hlength
    refine (eq_allWorkerBit_iff _ (hlinked.mask _)).mpr fun id => ?_
    refine (h.ofDay.inv.done_iff id _).mpr fun k hk hslot => ?_
    change k < s.published.length at hk
    rw [hlinked.loader] at hslot
    exact absurd hslot (Ring.slot_ne hk (by omega))

/-- A thread that `main` waits for can take a step. -/
theorem InDay.step_lt {id : Fin workerThreadNum} (haccesses : s.accesses = [])
    (habsent : s.status id ≠ .absent) (hjoined : s.status id ≠ .joined)
    (hended : s.status id ≠ .ended) :
    (s.toEntrance.workerStep id).measure < s.toEntrance.measure := by
  refine Entrance.exists_step_of_not_caughtUp ⟨h.ofDay.linked, h.ofDay.inv⟩ fun hdone => ?_
  have hok := h.status id
  cases hstatus : s.status id with
  | absent => exact habsent hstatus
  | joined => exact hjoined hstatus
  | ended => exact hended hstatus
  | last =>
    rw [hstatus] at hok
    have hpc := hok.1.symm.trans hdone.pc
    cases hpc
  | running =>
    rw [hstatus] at hok
    obtain ⟨c, hc, hflag⟩ := h.ofDay.fileEnd_of_caughtUp hday hdone haccesses
    exact hok.1 c hc hflag

end waits

/-- What is left to do: for `main`, then for the threads of the day. -/
def measure (s : BaselineEntrance) : ℕ ×ₗ ℕ ×ₗ ℕ ×ₗ ℕ :=
  toLex (s.todo.length, s.toEntrance.measure)

theorem measure_lt_of_todo {s t : BaselineEntrance} (h : t.todo.length < s.todo.length) :
    t.measure < s.measure := Prod.Lex.toLex_lt_toLex.mpr (.inl h)

theorem measure_lt_of_entrance {s t : BaselineEntrance} (htodo : t.todo = s.todo)
    (h : t.toEntrance.measure < s.toEntrance.measure) : t.measure < s.measure :=
  Prod.Lex.toLex_lt_toLex.mpr (.inr ⟨congrArg List.length htodo, h⟩)

/-- Between two days `main` ends or loads the next one. -/
theorem Between.exists_step {past rest : List DayFiles} {s : BaselineEntrance}
    (h : Between past rest s) : s.Finished ∨ ∃ thread, (s.step thread).measure < s.measure := by
  cases rest with
  | nil => exact .inl ⟨h.accesses, h.todo⟩
  | cons day rest =>
    refine .inr ⟨.loader, measure_lt_of_todo ?_⟩
    change s.mainStep.todo.length < _
    rw [h.load.todo, h.todo, mainLoop_cons, List.length_cons]
    exact Nat.lt_succ_self _

section inDay
variable {past : List DayFiles} {day : DayFiles} {rest : List DayFiles}
  {toCreate toJoin : List (Fin workerThreadNum)} {s : BaselineEntrance}
  (h : InDay past day rest toCreate toJoin s) (hday : day.Fits)
include h hday

/-- Reading a day that fits into the ring goes on. -/
theorem InDay.read_lt (hshort : day.reads.orderReads.length < bufferNum)
    (haccesses : s.accesses ≠ []) : (s.step .loader).measure < s.measure := by
  obtain ⟨access, accesses, hacc⟩ := List.exists_cons_of_ne_nil haccesses
  have hstep : s.step .loader = { s with toEntrance := s.toEntrance.loaderStep } := by
    simp only [BaselineEntrance.step, BaselineEntrance.mainStep, hacc]
  refine measure_lt_of_entrance (by rw [hstep]) ?_
  rw [hstep]
  exact Entrance.loader_step haccesses fun _ hspin => h.mask_eq hday hshort hspin

/-- A thread that `main` waits for goes on. -/
theorem InDay.worker_lt {id : Fin workerThreadNum} (haccesses : s.accesses = [])
    (habsent : s.status id ≠ .absent) (hjoined : s.status id ≠ .joined)
    (hended : s.status id ≠ .ended) : (s.step (.worker id)).measure < s.measure := by
  have hlt := h.step_lt hday haccesses habsent hjoined hended
  refine measure_lt_of_entrance ?_ ?_
  · change (s.workerStep id).todo = _
    rw [(h.workerStep id).todo, h.todo]
  · change (s.workerStep id).toEntrance.measure < _
    cases hstatus : s.status id with
    | absent => exact absurd hstatus habsent
    | joined => exact absurd hstatus hjoined
    | ended => exact absurd hstatus hended
    | running => simpa only [BaselineEntrance.workerStep, hstatus] using hlt
    | last => simpa only [BaselineEntrance.workerStep, hstatus] using hlt

/-- A day that `main` has read goes on: a thread is created, runs or is joined. -/
theorem InDay.exists_step (haccesses : s.accesses = []) :
    s.Finished ∨ ∃ thread, (s.step thread).measure < s.measure := by
  cases toCreate with
  | cons id toCreate =>
    refine .inr ⟨.loader, measure_lt_of_todo ?_⟩
    change s.mainStep.todo.length < _
    rw [(h.create haccesses).todo, h.todo]
    exact Nat.lt_succ_self _
  | nil =>
    cases toJoin with
    | nil => exact (h.between hday).1.exists_step
    | cons id toJoin =>
      have habsent : s.status id ≠ .absent := fun hid =>
        absurd ((h.absent_iff id).mp hid) List.not_mem_nil
      have hjoined : s.status id ≠ .joined := fun hid =>
        (h.joined_iff id).mp hid List.mem_cons_self
      by_cases hended : s.status id = .ended
      · refine .inr ⟨.loader, measure_lt_of_todo ?_⟩
        change s.mainStep.todo.length < _
        simp only [BaselineEntrance.mainStep, haccesses, h.todo, List.map_nil,
          List.nil_append, List.map_cons, List.cons_append, hended, if_true]
        exact Nat.lt_succ_self _
      · exact .inr ⟨.worker id, h.worker_lt hday haccesses habsent hjoined hended⟩

end inDay

section progress
variable {days : List DayFiles} (hdays : ∀ day ∈ days, day.Fits)
  (hshort : ∀ day ∈ days, day.reads.orderReads.length < bufferNum)
include hdays hshort

theorem Inv.not_waits {s : BaselineEntrance} (h : Inv days s) : ¬ s.Waits := by
  rintro ⟨accesses, hacc, hmask⟩
  cases h with
  | between past rest hsplit hpast hs =>
    rw [hs.accesses] at hacc
    cases hacc
  | inDay past day rest toCreate toJoin hsplit hpast hs =>
    have hmem : day ∈ days := hsplit ▸ List.mem_append_right past List.mem_cons_self
    exact hmask (hs.mask_eq (hdays day hmem) (hshort day hmem) hacc)

/-- **Some thread can take a step** that leaves less to do, unless `main` is at its end. -/
theorem Inv.exists_step {s : BaselineEntrance} (h : Inv days s) :
    s.Finished ∨ ∃ thread, (s.step thread).measure < s.measure := by
  cases h with
  | between past rest hsplit hpast hs => exact hs.exists_step
  | inDay past day rest toCreate toJoin hsplit hpast hs =>
    have hmem : day ∈ days := hsplit ▸ List.mem_append_right past List.mem_cons_self
    by_cases haccesses : s.accesses = []
    · exact hs.exists_step (hdays day hmem) haccesses
    · exact .inr ⟨.loader, hs.read_lt (hdays day hmem) (hshort day hmem) haccesses⟩

/-- **From every state that it reaches the driver can come to its end.** -/
theorem Inv.exists_run_finished (horders : ∀ day ∈ days, day.orderLog ≠ [])
    {s : BaselineEntrance} (h : Inv days s) : ∃ schedule, (s.run schedule).Finished := by
  induction hm : s.measure using WellFoundedLT.induction generalizing s with
  | _ m ih =>
    rcases h.exists_step hdays hshort with hfinished | ⟨thread, hlt⟩
    · exact ⟨[], hfinished⟩
    · obtain ⟨schedule, hfinished⟩ := ih _ (hm ▸ hlt) (h.step hdays horders thread) rfl
      exact ⟨thread :: schedule, hfinished⟩

end progress

/-! ## The calls of the two drivers -/

/-- The same call, after `n` engines have been made. -/
def onEngine (n : ℕ) : EngineCall → EngineCall
  | .new engine path => .new (engine + n) path
  | .call engine call => .call (engine.map (· + n)) call

/-- The calls of one day after the other by one thread, with an engine for each. -/
def inTurn : ℕ → List (List EngineCall) → List EngineCall
  | _, [] => []
  | n, calls :: days => calls.map (onEngine n) ++ inTurn (n + 1) days

theorem onEngine_dayCalls (n : ℕ) (day : DayFiles) :
    (dayCalls 0 day).map (onEngine n) = dayCalls n day := by
  simp [dayCalls, recordCalls, onEngine, Function.comp_def]

theorem inTurn_dayCalls (n : ℕ) (days : List DayFiles) :
    inTurn n (days.map (dayCalls 0)) = framedFrom n days := by
  induction days generalizing n with
  | nil => rfl
  | cons day days ih => rw [List.map_cons, inTurn, onEngine_dayCalls, ih, framedFrom]

/-- The baseline driver comes to its end and never waits for a buffer, which no thread could
release while it loads; and its threads make the calls for each day that those of `entrance`
make. -/
structure Agrees (memory memory' : Fin bufferNum → List UInt8 × List UInt8 × List UInt8)
    (days : List DayFiles) : Prop where
  not_waits : ∀ schedule, ¬ ((main memory (days.map DayFiles.reads)).run schedule).Waits
  finishes : ∀ schedule, ∃ schedule',
    ((main memory (days.map DayFiles.reads)).run (schedule ++ schedule')).Finished
  calls_eq : ∀ schedule entranceSchedule,
    let s := (main memory (days.map DayFiles.reads)).run schedule
    let t := (Entrance.main memory' (days.map DayFiles.reads)).run entranceSchedule
    s.Finished → (∀ id, t.Complete id) → ∀ id, (t.workers id).calls = inTurn 0 (s.log id)

theorem length_orderReads_lt_iff {day : DayFiles} (hday : day.Fits) :
    day.reads.orderReads.length < bufferNum ↔
      day.orderLog.length ≤ (bufferNum - 1) * readBufferSize :=
  Nat.lt_succ_iff.trans (length_readFile_le_iff hday.orderLog_lt (by decide) (bufferNum - 1))

/-- **When the two drivers agree**: no `order_log` may be longer than seven of the eight buffers. -/
theorem agrees_iff (memory memory' : Fin bufferNum → List UInt8 × List UInt8 × List UInt8)
    {days : List DayFiles} (hdays : ∀ day ∈ days, day.Fits)
    (horders : ∀ day ∈ days, day.orderLog ≠ []) :
    Agrees memory memory' days ↔
      ∀ day ∈ days, day.orderLog.length ≤ (bufferNum - 1) * readBufferSize := by
  have hinv := inv_run hdays horders memory
  have hiff : (∀ day ∈ days, day.reads.orderReads.length < bufferNum) ↔
      ∀ day ∈ days, day.orderLog.length ≤ (bufferNum - 1) * readBufferSize :=
    forall₂_congr fun day hday => length_orderReads_lt_iff (hdays day hday)
  rw [← hiff]
  constructor
  · intro h
    obtain ⟨schedule, hfinished⟩ := h.finishes []
    exact ((hinv schedule).of_finished hdays hfinished).1
  · intro hshort
    refine ⟨fun schedule => (hinv schedule).not_waits hdays hshort, fun schedule => ?_, ?_⟩
    · obtain ⟨schedule', hfinished⟩ :=
        (hinv schedule).exists_run_finished hdays hshort horders
      exact ⟨schedule', by rwa [run_append]⟩
    · intro schedule entranceSchedule s t hfinished hcomplete id
      have hlog := ((hinv schedule).of_finished hdays hfinished).2 id
      have hcalls := (Entrance.tracks_run memory' _ entranceSchedule id).calls_of_complete
        (hcomplete id)
      rw [Entrance.matchingCalls_announced_run, callsFrom_ioThread hdays horders] at hcalls
      rw [hlog, inTurn_dayCalls]
      exact hcalls

/-- A day whose `order_log` is one record longer than a buffer, so that it is read in two
pieces, and a day that is read in one. -/
def twoDays : List DayFiles :=
  [Entrance.dayOf "20230829" 1 0 10485761, Entrance.dayOf "20230830" 2 1 3]

theorem forall_mem_twoDays {p : DayFiles → Prop} : (∀ day ∈ twoDays, p day) ↔
    p (Entrance.dayOf "20230829" 1 0 10485761) ∧ p (Entrance.dayOf "20230830" 2 1 3) := by
  rw [twoDays, List.forall_mem_cons, List.forall_mem_singleton]

theorem length_orderLog_dayOf (date : String) (prevs alphas orders : ℕ) :
    (Entrance.dayOf date prevs alphas orders).orderLog.length = orderLogSize * orders :=
  List.length_replicate

theorem fits_twoDays : ∀ day ∈ twoDays, day.Fits := by
  refine forall_mem_twoDays.mpr
    ⟨⟨by decide, by decide, ?_⟩, by decide, by decide, ?_⟩ <;> rw [length_orderLog_dayOf] <;> decide

theorem orderLog_ne_nil_twoDays : ∀ day ∈ twoDays, day.orderLog ≠ [] := by
  refine forall_mem_twoDays.mpr ⟨List.ne_nil_of_length_pos ?_, List.ne_nil_of_length_pos ?_⟩ <;>
    rw [length_orderLog_dayOf] <;> decide

theorem length_orderLog_twoDays :
    ∀ day ∈ twoDays, day.orderLog.length ≤ (bufferNum - 1) * readBufferSize := by
  refine forall_mem_twoDays.mpr ⟨?_, ?_⟩ <;> rw [length_orderLog_dayOf] <;> decide

theorem agrees_of_twoDays :
    Agrees (fun _ => ([], [], [])) (fun _ => ([], [], [])) twoDays :=
  (agrees_iff _ _ fits_twoDays orderLog_ne_nil_twoDays).mpr length_orderLog_twoDays

/-- With 73400321 records `order_log` is read in eight pieces. -/
theorem not_agrees_of_eight_pieces :
    ¬ ∀ (memory memory' : Fin bufferNum → List UInt8 × List UInt8 × List UInt8)
        (days : List DayFiles), (∀ day ∈ days, day.Fits) →
      (∀ day ∈ days, orderLogSize ≤ day.orderLog.length) → Agrees memory memory' days := by
  intro h
  set day : DayFiles := ⟨"/mnt/final_data/20230829", [], [], List.replicate (36 * 73400321) 7⟩
  have hlength : day.orderLog.length = 36 * 73400321 := List.length_replicate
  have hday : day.Fits := ⟨Nat.zero_le _, Nat.zero_le _, by rw [hlength]; norm_num⟩
  have hdays : ∀ d ∈ [day], d.Fits := List.forall_mem_singleton.mpr hday
  have horders : ∀ d ∈ [day], d.orderLog ≠ [] :=
    List.forall_mem_singleton.mpr (List.ne_nil_of_length_pos (by rw [hlength]; norm_num))
  obtain ⟨schedule, hfinished⟩ := (h (fun _ => ([], [], [])) (fun _ => ([], [], [])) [day] hdays
    (List.forall_mem_singleton.mpr (by rw [hlength]; decide))).finishes []
  have hshort := ((inv_run hdays horders _ schedule).of_finished hdays hfinished).1 day
    List.mem_cons_self
  rw [length_orderReads_lt_iff hday, hlength] at hshort
  revert hshort
  decide

end BaselineEntrance
end MatchingEngine
