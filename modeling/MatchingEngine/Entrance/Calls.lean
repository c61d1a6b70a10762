import Mathlib
import MatchingEngine.Entrance.HandOff

/-!
# The calls of a matching thread

A matching thread makes the calls that belong to the contents it processes, one after the
other.  As it only reads buffers that the loader has published and not touched since, these
are the contents as they were published, whatever the interleaving.

## Main definitions

* `Segment.calls`, `Segment.after` — the calls for one buffer, and the engine after it.
* `matchingCalls`, `matchingEngine` — the calls for a list of buffers, and the engine after.
* `Tracks` — a matching thread makes the calls for what it processes.
* `tracks_run` — it does so in every interleaving.
-/

namespace MatchingEngine

/-! ## The calls for one buffer -/

/-- The calls of a loop over the records of an array from place `i` on. -/
def loopCalls (e : Option ℕ) (call : List UInt8 → RecordCall) (size : ℕ) (data : List UInt8)
    (count i : ℕ) : List EngineCall :=
  (List.range' i (count - i)).map fun j => .call e (call (record size data j))

theorem loopCalls_of_lt (e : Option ℕ) (call : List UInt8 → RecordCall) (size : ℕ)
    (data : List UInt8) {count i : ℕ} (hi : i < count) :
    loopCalls e call size data count i =
      .call e (call (record size data i)) :: loopCalls e call size data count (i + 1) := by
  have hcount : count - i = count - (i + 1) + 1 := by omega
  rw [loopCalls, hcount, List.range'_succ, List.map_cons]
  rfl

theorem loopCalls_of_le (e : Option ℕ) (call : List UInt8 → RecordCall) (size : ℕ)
    (data : List UInt8) {count i : ℕ} (hi : count ≤ i) :
    loopCalls e call size data count i = [] := by
  rw [loopCalls, Nat.sub_eq_zero_of_le hi]
  rfl

namespace Segment
variable (c : Segment) (e : Option ℕ)

def tailCalls : List EngineCall := if c.flag = .FileEnd then [.call e .onComplete] else []

def orderCalls (i : ℕ) : List EngineCall :=
  loopCalls e .insertOrderLog orderLogSize c.orderData c.orderCount i ++ c.tailCalls e

def alphaCalls (i : ℕ) : List EngineCall :=
  loopCalls e .insertAlpha alphaSize c.alphaData c.alphaCount i ++ c.orderCalls e 0

def prevCalls (i : ℕ) : List EngineCall :=
  loopCalls e .initContract prevTradeInfoSize c.prevInfoData c.prevCount i ++ c.alphaCalls e 0

/-- The calls for the buffer, by a thread that works on `e` and has made `made` engines. -/
def calls (made : ℕ) : List EngineCall :=
  if c.flag = .FileHead then .new made c.path :: c.prevCalls (some made) 0 else c.orderCalls e 0

/-- The engine after the test of `FILE_END`. -/
def leave : Option ℕ := if c.flag = .FileEnd then none else e

/-- The engine after the buffer, and the number of engines made. -/
def after (made : ℕ) : Option ℕ × ℕ :=
  if c.flag = .FileHead then (c.leave (some made), made + 1) else (c.leave e, made)

section flags
variable {c}

theorem calls_of_fileHead (hflag : c.flag = .FileHead) (made : ℕ) :
    c.calls e made = .new made c.path ::
        (loopCalls (some made) .initContract prevTradeInfoSize c.prevInfoData c.prevCount 0 ++
          (loopCalls (some made) .insertAlpha alphaSize c.alphaData c.alphaCount 0 ++
            loopCalls (some made) .insertOrderLog orderLogSize c.orderData c.orderCount 0)) ∧
      c.after e made = (some made, made + 1) := by
  simp [calls, prevCalls, alphaCalls, orderCalls, tailCalls, after, leave, hflag]

theorem calls_of_inProcess (hflag : c.flag = .InProcess) (made : ℕ) :
    c.calls e made = loopCalls e .insertOrderLog orderLogSize c.orderData c.orderCount 0 ∧
      c.after e made = (e, made) := by
  simp [calls, orderCalls, tailCalls, after, leave, hflag]

theorem calls_of_fileEnd (hflag : c.flag = .FileEnd) (made : ℕ) :
    c.calls e made = loopCalls e .insertOrderLog orderLogSize c.orderData c.orderCount 0 ++
        [.call e .onComplete] ∧
      c.after e made = (none, made) := by
  simp [calls, orderCalls, tailCalls, after, leave, hflag]

end flags

end Segment

namespace Worker

/-- The calls for the buffer `c` that are still to come. -/
def remaining (w : Worker) (c : Segment) : List EngineCall :=
  match w.pc with
  | .spin => []
  | .head => c.calls w.engine w.made
  | .prev i => c.prevCalls w.engine i
  | .alpha i => c.alphaCalls w.engine i
  | .order i => c.orderCalls w.engine i
  | .tail => c.tailCalls w.engine
  | .release => []

/-- The engine that the thread will have after the buffer `c`, and the number made. -/
def settled (w : Worker) (c : Segment) : Option ℕ × ℕ :=
  match w.pc with
  | .spin => (w.engine, w.made)
  | .head => c.after w.engine w.made
  | .release => (w.engine, w.made)
  | _ => (c.leave w.engine, w.made)

/-- A step inside a buffer makes the next of the calls that are to come. -/
theorem step_remaining (w : Worker) (c : Segment) :
    (w.step c).calls ++ (w.step c).remaining c = w.calls ++ w.remaining c ∧
      (w.step c).settled c = w.settled c := by
  obtain ⟨pc, bufferIndex, engine, made, calls, processed⟩ := w
  cases pc with
  | spin => exact ⟨rfl, rfl⟩
  | head =>
    by_cases h : c.flag = .FileHead <;>
      simp [step, remaining, settled, Segment.calls, Segment.after, h]
  | prev i =>
    by_cases h : i < c.prevCount
    · simp [step, remaining, settled, callAt, Segment.prevCalls, loopCalls_of_lt, h]
    · simp [step, remaining, settled, Segment.prevCalls, loopCalls_of_le, not_lt.mp h, h]
  | alpha i =>
    by_cases h : i < c.alphaCount
    · simp [step, remaining, settled, callAt, Segment.alphaCalls, loopCalls_of_lt, h]
    · simp [step, remaining, settled, Segment.alphaCalls, loopCalls_of_le, not_lt.mp h, h]
  | order i =>
    by_cases h : i < c.orderCount
    · simp [step, remaining, settled, callAt, Segment.orderCalls, loopCalls_of_lt, h]
    · simp [step, remaining, settled, Segment.orderCalls, loopCalls_of_le, not_lt.mp h, h]
  | tail =>
    by_cases h : c.flag = .FileEnd <;>
      simp [step, remaining, settled, callAt, Segment.tailCalls, Segment.leave, h]
  | release => exact ⟨rfl, rfl⟩

end Worker

/-! ## The calls for a list of buffers -/

/-- The engine after the buffers `cs`, and the number of engines made. -/
def matchingEngine (cs : List Segment) : Option ℕ × ℕ :=
  cs.foldl (fun p c => c.after p.1 p.2) (none, 0)

/-- The calls for the buffers `cs`, from the engine `p.1` on, after `p.2` were made. -/
def callsFrom (p : Option ℕ × ℕ) : List Segment → List EngineCall
  | [] => []
  | c :: cs => c.calls p.1 p.2 ++ callsFrom (c.after p.1 p.2) cs

/-- The calls of a matching thread for the buffers `cs`. -/
def matchingCalls (cs : List Segment) : List EngineCall := callsFrom (none, 0) cs

theorem callsFrom_append (p : Option ℕ × ℕ) (cs cs' : List Segment) :
    callsFrom p (cs ++ cs') =
      callsFrom p cs ++ callsFrom (cs.foldl (fun p c => c.after p.1 p.2) p) cs' := by
  induction cs generalizing p with
  | nil => rfl
  | cons c cs ih => rw [List.cons_append, callsFrom, ih, callsFrom, List.append_assoc]; rfl

theorem matchingCalls_concat (cs : List Segment) (c : Segment) :
    matchingCalls (cs ++ [c]) =
      matchingCalls cs ++ c.calls (matchingEngine cs).1 (matchingEngine cs).2 := by
  rw [matchingCalls, callsFrom_append, callsFrom, callsFrom, List.append_nil]
  rfl

theorem matchingEngine_concat (cs : List Segment) (c : Segment) :
    matchingEngine (cs ++ [c]) = c.after (matchingEngine cs).1 (matchingEngine cs).2 := by
  rw [matchingEngine, List.foldl_append]
  rfl

theorem matchingCalls_mono {cs cs' : List Segment} (h : cs <+: cs') :
    matchingCalls cs <+: matchingCalls cs' := by
  obtain ⟨rest, rfl⟩ := h
  rw [matchingCalls, matchingCalls, callsFrom_append]
  exact List.prefix_append _ _

/-! ## The matching threads in the interleavings -/

namespace Entrance

/-- What a matching thread has released. -/
def released (s : Entrance) (id : Fin workerThreadNum) : List Segment :=
  (s.workers id).processed.map Prod.snd

/-- The calls of a matching thread are those for what it has released and, while it processes
a buffer, the first of those for the content the buffer was published with. -/
structure Tracks (s : Entrance) (id : Fin workerThreadNum) : Prop where
  waiting : (s.workers id).pc = .spin → (s.workers id).calls = matchingCalls (s.released id) ∧
    ((s.workers id).engine, (s.workers id).made) = matchingEngine (s.released id)
  processing : (s.workers id).pc ≠ .spin → ∃ i c,
    s.published[(s.workers id).processed.length]? = some (i, c) ∧
    (s.workers id).calls ++ (s.workers id).remaining c = matchingCalls (s.released id ++ [c]) ∧
    (s.workers id).settled c = matchingEngine (s.released id ++ [c])

/-- Steps that do not touch a matching thread keep what it has done. -/
theorem Tracks.of_eq {s t : Entrance} {id : Fin workerThreadNum} (h : Tracks s id)
    (hworker : t.workers id = s.workers id) (hpublished : s.published <+: t.published) :
    Tracks t id := by
  have hreleased : t.released id = s.released id := by rw [released, released, hworker]
  refine ⟨fun hpc => ?_, fun hpc => ?_⟩ <;> rw [hworker] at hpc
  · rw [hworker, hreleased]
    exact h.waiting hpc
  · obtain ⟨i, c, hc, hrest⟩ := h.processing hpc
    obtain ⟨rest, hrest'⟩ := hpublished
    refine ⟨i, c, ?_, ?_⟩
    · rw [hworker, ← hrest', List.getElem?_append_left (List.getElem?_eq_some_iff.mp hc).1]
      exact hc
    · rw [hworker, hreleased]
      exact hrest

theorem published_loaderStep (s : Entrance) :
    s.loaderStep.workers = s.workers ∧ s.published <+: s.loaderStep.published := by
  simp only [loaderStep]
  split
  · exact ⟨rfl, List.prefix_rfl⟩
  · split <;> exact ⟨rfl, List.prefix_rfl⟩
  · exact ⟨rfl, List.prefix_rfl⟩
  · exact ⟨rfl, List.prefix_append _ _⟩

theorem published_workerStep (s : Entrance) (id : Fin workerThreadNum) :
    (s.workerStep id).published = s.published := by
  simp only [workerStep]
  split
  · split <;> rfl
  · rfl
  · rfl

theorem workers_workerStep_of_ne (s : Entrance) {id v : Fin workerThreadNum} (hv : v ≠ id) :
    (s.workerStep id).workers v = s.workers v := by
  simp only [workerStep]
  split
  · split
    · rfl
    · exact Function.update_of_ne hv ..
  · exact Function.update_of_ne hv ..
  · exact Function.update_of_ne hv ..

theorem workers_setWorker_self (s : Entrance) (id : Fin workerThreadNum) (w : Worker) :
    (s.setWorker id w).workers id = w := Function.update_self ..

section step
variable {s : Entrance} {id : Fin workerThreadNum} (h : Tracks s id)
  (hinv : Linked s ∧ Ring.Inv (ring s))
include h hinv

/-- The thread finds its buffer published and begins with its calls. -/
theorem Tracks.start (hspin : (s.workers id).pc = .spin)
    (hbit : (s.buffers (s.workers id).bufferIndex).finishBit &&& workerBit id = 0) :
    Tracks (s.workerStep id) id := by
  obtain ⟨hcalls, hengine⟩ := h.waiting hspin
  set w : Worker := { s.workers id with pc := .head } with hw
  have hstep : s.workerStep id = s.setWorker id w := by
    simp only [Entrance.workerStep, hspin, hbit, ne_eq, not_true_eq_false, if_false, hw]
  have hworker : (s.setWorker id w).workers id = w := workers_setWorker_self s id w
  have hpending := (hinv.2.step (hinv.1.start hspin hbit).1).pending id
  rw [hstep] at hpending ⊢
  obtain ⟨⟨i, c⟩, hc⟩ : ∃ entry, s.published[w.processed.length]? = some entry := by
    have hreading : (s.setWorker id w).Processing id := by
      rw [Processing, hworker]
      simp [hw]
    have hlt := hpending hreading
    change ((s.setWorker id w).workers id).processed.length < s.published.length at hlt
    rw [hworker] at hlt
    exact ⟨_, List.getElem?_eq_getElem hlt⟩
  have hreleased : (s.setWorker id w).released id = s.released id := by
    rw [released, hworker]
    rfl
  refine ⟨fun hpc => ?_, fun _ => ⟨i, c, ?_, ?_, ?_⟩⟩
  · rw [hworker] at hpc
    cases hpc
  · rw [hworker]
    exact hc
  · rw [hworker, hreleased, matchingCalls_concat, ← hcalls, ← hengine]
    rfl
  · rw [hworker, hreleased, matchingEngine_concat, ← hengine]
    rfl

/-- A thread inside a buffer reads the content that the buffer was published with. -/
theorem Tracks.reading (hspin : (s.workers id).pc ≠ .spin) :
    let c := (s.buffers (s.workers id).bufferIndex).toSegment
    s.published[(s.workers id).processed.length]? = some ((s.workers id).bufferIndex, c) ∧
      (s.workers id).calls ++ (s.workers id).remaining c = matchingCalls (s.released id ++ [c]) ∧
      (s.workers id).settled c = matchingEngine (s.released id ++ [c]) := by
  have hstable : s.published[(s.workers id).processed.length]? =
      some ((s.workers id).bufferIndex, (s.buffers (s.workers id).bufferIndex).toSegment) := by
    rw [hinv.1.worker]
    exact hinv.2.stable hspin
  obtain ⟨i, c, hc, hrest⟩ := h.processing hspin
  obtain ⟨rfl, rfl⟩ := Prod.mk.inj (Option.some.inj (hc.symm.trans hstable))
  exact ⟨hstable, hrest⟩

theorem Tracks.inside (hspin : (s.workers id).pc ≠ .spin) (hrelease : (s.workers id).pc ≠ .release) :
    Tracks (s.workerStep id) id := by
  obtain ⟨hc, hcalls, hsettled⟩ := h.reading hinv hspin
  rw [workerStep_inside hspin hrelease]
  set c := (s.buffers (s.workers id).bufferIndex).toSegment
  set w := (s.workers id).step c
  have hworker : (s.setWorker id w).workers id = w := workers_setWorker_self s id w
  obtain ⟨hrem, hset⟩ := (s.workers id).step_remaining c
  obtain ⟨-, hprocessed⟩ := step_processed (s.workers id) c
  have hreleased : (s.setWorker id w).released id = s.released id := by
    rw [released, hworker, hprocessed]
    rfl
  refine ⟨fun hpc => ?_, fun _ => ⟨(s.workers id).bufferIndex, c, ?_, ?_, ?_⟩⟩
  · rw [hworker] at hpc
    exact absurd hpc (step_pc_ne_spin c hspin)
  · rw [hworker, hprocessed]
    exact hc
  · rw [hworker, hrem, hreleased, hcalls]
  · rw [hworker, hset, hreleased, hsettled]

/-- At the release all calls for the buffer have been made. -/
theorem Tracks.release (hrelease : (s.workers id).pc = .release) : Tracks (s.workerStep id) id := by
  obtain ⟨-, hcalls, hsettled⟩ := h.reading hinv (by simp [hrelease])
  set i := (s.workers id).bufferIndex
  set w : Worker := { s.workers id with
    pc := .spin
    bufferIndex := incr i
    processed := (s.workers id).processed ++ [(i, (s.buffers i).toSegment)] } with hw
  have hworker : (s.workerStep id).workers id = w := by
    simp only [Entrance.workerStep, hrelease]
    exact workers_setWorker_self ..
  have hreleased : (s.workerStep id).released id =
      s.released id ++ [(s.buffers i).toSegment] := by
    simp [released, hworker, hw]
  refine ⟨fun _ => ?_, fun hpc => ?_⟩
  · rw [hworker, hreleased, ← hcalls, ← hsettled]
    simp [Worker.remaining, Worker.settled, hrelease, hw]
  · rw [hworker] at hpc
    exact absurd rfl hpc

/-- A step of the matching thread itself. -/
theorem Tracks.workerStep : Tracks (s.workerStep id) id := by
  by_cases hspin : (s.workers id).pc = .spin
  · by_cases hbit : (s.buffers (s.workers id).bufferIndex).finishBit &&& workerBit id = 0
    · exact h.start hinv hspin hbit
    · have hstep : s.workerStep id = s := by
        simp only [Entrance.workerStep, hspin, ne_eq, hbit, not_false_eq_true, if_true]
      rw [hstep]
      exact h
  · by_cases hrelease : (s.workers id).pc = .release
    · exact h.release hinv hrelease
    · exact h.inside hinv hspin hrelease

/-- **A matching thread makes the calls for what it processes**, in every step of a thread. -/
theorem Tracks.step (thread : Thread) : Tracks (s.step thread) id := by
  cases thread with
  | loader =>
    obtain ⟨hworkers, hpublished⟩ := published_loaderStep s
    exact h.of_eq (congrFun hworkers id) hpublished
  | worker v =>
    by_cases hv : id = v
    · subst hv
      exact h.workerStep hinv
    · exact h.of_eq (workers_workerStep_of_ne _ hv) (published_workerStep _ v ▸ List.prefix_rfl)

end step

theorem Fresh.tracks {s : Entrance} (h : s.Fresh) (id : Fin workerThreadNum) : Tracks s id := by
  refine ⟨fun _ => ?_, fun hpc => ?_⟩
  · rw [released, h.workers id]
    exact ⟨rfl, rfl⟩
  · rw [h.workers id] at hpc
    exact absurd rfl hpc

/-- A matching thread makes the calls for what it processes, in every interleaving. -/
theorem tracks_run (memory : Fin bufferNum → List UInt8 × List UInt8 × List UInt8)
    (days : List DayReads) (schedule : List Thread) (id : Fin workerThreadNum) :
    Tracks ((main memory days).run schedule) id := by
  induction schedule using List.reverseRecOn with
  | nil => exact (fresh_main memory days).tracks id
  | append_singleton schedule thread ih =>
    rw [run_concat]
    exact ih.step (ring_inv memory days schedule) thread

end Entrance
end MatchingEngine
