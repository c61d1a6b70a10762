import Mathlib
import MatchingEngine.BaselineEntrance
import MatchingEngine.Entrance.OrderLog

/-!
# A day of the baseline driver

The threads of a day are in a state that the threads of `entrance` could be in, if they were
given this day only and the loader were at its end before a matching thread begins.  So what
is known of those threads holds here too.  A matching thread ends with the last buffer of the
day, and then it has processed all.

## Main definitions

* `EndsDay` — only the last of the contents has the flag `FILE_END`.
* `Entrance.OfDay` — the threads work on a day as those of `entrance` do.
* `Status.Ok` — what the status of a thread says of it.
* `Status.Ok.running_step`, `Status.Ok.last_step` — its own steps.
-/

namespace MatchingEngine

/-! ## The last buffer of a day -/

/-- Only the last of the contents for a day has the flag `FILE_END`. -/
def EndsDay (cs : List Segment) : Prop :=
  ∃ init last, cs = init ++ [last] ∧ last.flag = .FileEnd ∧ ∀ c ∈ init, c.flag ≠ .FileEnd

theorem endsDay_loadOrders (reads : List (List UInt8)) {i : Fin bufferNum}
    {buffers : Fin bufferNum → Segment} (hflag : (buffers i).flag ≠ .FileEnd) :
    EndsDay (segments (loadOrders reads ++ [.write (.flag .FileEnd), .publish]) i buffers) ∧
      (segments (loadOrders reads ++ [.write (.flag .FileEnd), .publish]) i buffers).length =
        reads.length + 1 := by
  induction reads generalizing i buffers with
  | nil =>
    simp only [loadOrders, List.nil_append, segments, Function.update_self]
    exact ⟨⟨[], _, rfl, rfl, fun _ h => absurd h List.not_mem_nil⟩, rfl⟩
  | cons bytes reads ih =>
    obtain ⟨buffers', hflag', -, hsegments⟩ := segments_loadOrders bytes reads
      [.write (.flag .FileEnd), .publish] i buffers
    have hne : (buffers' (incr i)).flag ≠ .FileEnd := by
      rw [hflag']
      decide
    obtain ⟨⟨init, last, heq, hlast, hinit⟩, hlength⟩ := ih hne
    rw [hsegments, List.length_cons, hlength]
    refine ⟨⟨_ :: init, last, by rw [heq]; rfl, hlast, ?_⟩, rfl⟩
    intro c hc
    rcases List.mem_cons.mp hc with rfl | hc
    · exact hflag
    · exact hinit c hc

theorem endsDay_directIoLoad {day : DayFiles} (hday : day.Fits) (i : Fin bufferNum)
    (buffers : Fin bufferNum → Segment) :
    EndsDay (segments (directIoLoad day.reads) i buffers) ∧
      (segments (directIoLoad day.reads) i buffers).length = day.reads.orderReads.length + 1 := by
  have hsegments := segments_directIoLoad hday [] i buffers
  rw [List.append_nil] at hsegments
  rw [hsegments]
  refine endsDay_loadOrders _ ?_
  rw [Function.update_self, Segment.head]
  simp

/-- What has been processed is all, if the last buffer of the day is among it. -/
theorem EndsDay.eq_of_isPrefix {cs cs' : List Segment} (h : EndsDay cs) (hle : cs' <+: cs)
    {c : Segment} (hc : c ∈ cs') (hflag : c.flag = .FileEnd) : cs' = cs := by
  obtain ⟨init, last, rfl, -, hinit⟩ := h
  rcases List.prefix_concat_iff.mp hle with heq | hinitial
  · exact heq
  · exact absurd hflag (hinit c (hinitial.subset hc))

/-- All of it has the last buffer of the day. -/
theorem EndsDay.exists_mem {cs : List Segment} (h : EndsDay cs) :
    ∃ c ∈ cs, c.flag = .FileEnd := by
  obtain ⟨init, last, rfl, hlast, -⟩ := h
  exact ⟨last, by simp, hlast⟩

/-! ## The threads of a day -/

namespace Entrance

/-- The threads work on the day as those of `entrance` do. -/
structure OfDay (day : DayFiles) (s : Entrance) : Prop where
  linked : Linked s
  inv : Ring.Inv (ring s)
  tracks : ∀ id, Tracks s id
  announced : ∃ buffers, s.announced = segments (directIoLoad day.reads) 0 buffers

variable {day : DayFiles} {s : Entrance}

theorem Fresh.ofDay (h : s.Fresh) (haccesses : s.accesses = directIoLoad day.reads) :
    s.OfDay day := by
  refine ⟨h.linked, h.initial.inv, h.tracks, s.contents, ?_⟩
  rw [announced, h.published, haccesses, h.bufferIndex]
  rfl

theorem OfDay.step (h : s.OfDay day) (thread : Thread) : (s.step thread).OfDay day := by
  obtain ⟨hlinked, hinv⟩ := inv_step ⟨h.linked, h.inv⟩ thread
  obtain ⟨buffers, hannounced⟩ := h.announced
  refine ⟨hlinked, hinv, fun id => (h.tracks id).step ⟨h.linked, h.inv⟩ thread, buffers, ?_⟩
  rw [← hannounced]
  exact announced_run s [thread]

/-- The buffers of a day are no more than the reads of `order_log` and one. -/
theorem OfDay.endsDay (h : s.OfDay day) (hday : day.Fits) :
    EndsDay s.announced ∧ s.announced.length = day.reads.orderReads.length + 1 := by
  obtain ⟨buffers, hannounced⟩ := h.announced
  rw [hannounced]
  exact endsDay_directIoLoad hday 0 buffers

theorem OfDay.released_le (h : s.OfDay day) (id : Fin workerThreadNum) :
    s.released id <+: s.announced :=
  ((h.inv.inOrder id).map Prod.snd).trans (List.prefix_append _ _)

/-- A thread that has processed the last buffer of the day has processed all. -/
theorem OfDay.complete_of_fileEnd (h : s.OfDay day) (hday : day.Fits) {id : Fin workerThreadNum}
    (hpc : (s.workers id).pc = .spin) (haccesses : s.accesses = [])
    (hend : ∃ c ∈ s.released id, c.flag = .FileEnd) : s.Complete id := by
  obtain ⟨c, hc, hflag⟩ := hend
  have heq := (h.endsDay hday).1.eq_of_isPrefix (h.released_le id) hc hflag
  rw [Entrance.announced, haccesses, segments, List.append_nil] at heq
  have hlength := congrArg List.length heq
  rw [released, List.length_map, List.length_map] at hlength
  exact ⟨⟨hpc, (h.inv.inOrder id).eq_of_length hlength⟩, haccesses⟩

/-- A thread that has processed all has processed the last buffer of the day. -/
theorem OfDay.fileEnd_of_caughtUp (h : s.OfDay day) (hday : day.Fits) {id : Fin workerThreadNum}
    (hdone : s.CaughtUp id) (haccesses : s.accesses = []) :
    ∃ c ∈ s.released id, c.flag = .FileEnd := by
  have hexists := (h.endsDay hday).1.exists_mem
  rwa [Entrance.announced, haccesses, segments, List.append_nil, ← hdone.processed] at hexists

/-- The calls of a thread that has processed all are those for the day. -/
theorem OfDay.calls_of_complete (h : s.OfDay day) (hday : day.Fits) (horders : day.orderLog ≠ [])
    {id : Fin workerThreadNum} (hdone : s.Complete id) : (s.workers id).calls = dayCalls 0 day := by
  obtain ⟨buffers, hannounced⟩ := h.announced
  obtain ⟨i', buffers', hcalls⟩ := callsFrom_directIoLoad hday 0 [] 0 buffers horders
  rw [List.append_nil, segments, callsFrom, List.append_nil] at hcalls
  rw [(h.tracks id).calls_of_complete hdone, hannounced]
  exact hcalls

theorem workerStep_release {id : Fin workerThreadNum} (h : (s.workers id).pc = .release) :
    ((s.workerStep id).workers id).pc = .spin ∧
      ((s.workerStep id).workers id).processed = (s.workers id).processed ++
        [((s.workers id).bufferIndex, (s.buffers (s.workers id).bufferIndex).toSegment)] := by
  simp [workerStep, h, setWorker]

theorem accesses_workerStep (s : Entrance) (id : Fin workerThreadNum) :
    (s.workerStep id).accesses = s.accesses := by
  simp only [workerStep]
  split
  · split <;> rfl
  · rfl
  · rfl

theorem contents_workerStep (s : Entrance) (id : Fin workerThreadNum) :
    (s.workerStep id).contents = s.contents := by
  simp only [workerStep]
  split
  · split <;> rfl
  · exact contents_setBuffer_finishBit s _ _
  · rfl

end Entrance

/-- What the status of a thread says of it. -/
def Status.Ok (s : Entrance) (id : Fin workerThreadNum) : Status → Prop
  | .absent => s.workers id = .new
  | .running => (∀ c ∈ s.released id, c.flag ≠ .FileEnd) ∧
      ((s.workers id).pc = .release → (s.contents (s.workers id).bufferIndex).flag ≠ .FileEnd)
  | .last => (s.workers id).pc = .release ∧
      (s.contents (s.workers id).bufferIndex).flag = .FileEnd
  | .ended => (s.workers id).pc = .spin ∧ ∃ c ∈ s.released id, c.flag = .FileEnd
  | .joined => (s.workers id).pc = .spin ∧ ∃ c ∈ s.released id, c.flag = .FileEnd

/-- Steps that touch neither the thread nor the contents keep it. -/
theorem Status.Ok.of_eq {s t : Entrance} {id : Fin workerThreadNum} {status : Status}
    (h : status.Ok s id) (hworker : t.workers id = s.workers id)
    (hcontents : t.contents = s.contents) : status.Ok t id := by
  have hreleased : t.released id = s.released id := by
    rw [Entrance.released, Entrance.released, hworker]
  cases status <;> simp only [Ok, hworker, hcontents, hreleased] at h ⊢ <;> exact h

/-- A thread comes to its release from the test of `FILE_END`. -/
theorem pc_eq_tail_of_release {w : Worker} {c : Segment} (hrelease : w.pc ≠ .release)
    (h : (w.step c).pc = .release) : w.pc = .tail := by
  obtain ⟨pc, bufferIndex, engine, made, calls, processed⟩ := w
  cases pc with
  | spin => cases h
  | head => by_cases hc : c.flag = .FileHead <;> simp [Worker.step, hc] at h
  | prev i => by_cases hc : i < c.prevCount <;> simp [Worker.step, Worker.callAt, hc] at h
  | alpha i => by_cases hc : i < c.alphaCount <;> simp [Worker.step, Worker.callAt, hc] at h
  | order i => by_cases hc : i < c.orderCount <;> simp [Worker.step, Worker.callAt, hc] at h
  | tail => rfl
  | release => exact absurd rfl hrelease

theorem pc_eq_release_of_tail {w : Worker} (c : Segment) (h : w.pc = .tail) :
    (w.step c).pc = .release := by
  by_cases hc : c.flag = .FileEnd <;> simp [Worker.step, Worker.callAt, h, hc]

section status
variable {s : Entrance} {id : Fin workerThreadNum}

/-- A thread that waits for its bit, or finds it clear, has no last buffer. -/
theorem Status.Ok.spin_step (h : Status.running.Ok s id) (hspin : (s.workers id).pc = .spin) :
    Status.running.Ok (s.workerStep id) id := by
  obtain ⟨hreleased, hflag⟩ := h
  by_cases hbit : (s.buffers (s.workers id).bufferIndex).finishBit &&& workerBit id = 0
  · have hstep : s.workerStep id = s.setWorker id { s.workers id with pc := .head } := by
      simp only [Entrance.workerStep, hspin, hbit, ne_eq, not_true_eq_false, if_false]
    rw [hstep]
    refine ⟨?_, fun hpc => ?_⟩
    · rw [Entrance.released, Entrance.workers_setWorker_self]
      exact hreleased
    · rw [Entrance.workers_setWorker_self] at hpc
      cases hpc
  · have hstep : s.workerStep id = s := by
      simp only [Entrance.workerStep, hspin, ne_eq, hbit, not_false_eq_true, if_true]
    rw [hstep]
    exact ⟨hreleased, hflag⟩

/-- The buffer that a running thread releases is not the last of the day. -/
theorem Status.Ok.release_step (h : Status.running.Ok s id)
    (hrelease : (s.workers id).pc = .release) : Status.running.Ok (s.workerStep id) id := by
  obtain ⟨hreleased, hflag⟩ := h
  obtain ⟨hpc, hprocessed⟩ := Entrance.workerStep_release hrelease
  refine ⟨fun c hc => ?_, fun hpc' => ?_⟩
  · rw [Entrance.released, hprocessed, List.map_append] at hc
    rcases List.mem_append.mp hc with hc | hc
    · exact hreleased c hc
    · rw [List.mem_singleton.mp hc]
      exact hflag hrelease
  · rw [hpc] at hpc'
    cases hpc'

/-- Inside a buffer nothing is released, and the test of `FILE_END` tells whether the buffer is
the last of the day. -/
theorem Status.Ok.inside_step (h : Status.running.Ok s id) (hspin : (s.workers id).pc ≠ .spin)
    (hrelease : (s.workers id).pc ≠ .release) :
    (if (s.workers id).pc = .tail ∧ (s.buffers (s.workers id).bufferIndex).flag = .FileEnd then
      Status.last else .running).Ok (s.workerStep id) id := by
  have hcontents := Entrance.contents_workerStep s id
  rw [Entrance.workerStep_inside hspin hrelease] at hcontents ⊢
  set c := (s.buffers (s.workers id).bufferIndex).toSegment with hc
  obtain ⟨hindex, hprocessed⟩ := Entrance.step_processed (s.workers id) c
  have hreleased : ∀ d ∈ (s.setWorker id ((s.workers id).step c)).released id,
      d.flag ≠ .FileEnd := by
    rw [Entrance.released, Entrance.workers_setWorker_self, hprocessed]
    exact h.1
  by_cases htail : (s.workers id).pc = .tail
  · by_cases hend : (s.buffers (s.workers id).bufferIndex).flag = .FileEnd
    · rw [if_pos ⟨htail, hend⟩]
      refine ⟨?_, ?_⟩
      · rw [Entrance.workers_setWorker_self, pc_eq_release_of_tail c htail]
      · rw [Entrance.workers_setWorker_self, hindex, hcontents]
        exact hend
    · rw [if_neg (fun h => hend h.2)]
      refine ⟨hreleased, fun _ => ?_⟩
      rw [Entrance.workers_setWorker_self, hindex, hcontents]
      exact hend
  · rw [if_neg (fun h => htail h.1)]
    refine ⟨hreleased, fun hpc => ?_⟩
    rw [Entrance.workers_setWorker_self] at hpc
    exact absurd (pc_eq_tail_of_release hrelease hpc) htail

/-- The status of a running thread after a step of it. -/
theorem Status.Ok.running_step (h : Status.running.Ok s id) :
    (if (s.workers id).pc = .tail ∧ (s.buffers (s.workers id).bufferIndex).flag = .FileEnd then
      Status.last else .running).Ok (s.workerStep id) id := by
  by_cases hspin : (s.workers id).pc = .spin
  · rw [if_neg (by simp [hspin])]
    exact h.spin_step hspin
  · by_cases hrelease : (s.workers id).pc = .release
    · rw [if_neg (by simp [hrelease])]
      exact h.release_step hrelease
    · exact h.inside_step hspin hrelease

/-- The last step of a thread releases the last buffer of the day. -/
theorem Status.Ok.last_step (h : Status.last.Ok s id) :
    Status.ended.Ok (s.workerStep id) id := by
  obtain ⟨hrelease, hflag⟩ := h
  obtain ⟨hpc, hprocessed⟩ := Entrance.workerStep_release hrelease
  refine ⟨hpc, (s.buffers (s.workers id).bufferIndex).toSegment, ?_, hflag⟩
  rw [Entrance.released, hprocessed]
  simp

end status

end MatchingEngine
