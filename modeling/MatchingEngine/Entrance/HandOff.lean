import Mathlib
import MatchingEngine.Lib.Ring
import MatchingEngine.Entrance

/-!
# The buffers are handed off safely

The buffers with their `finish_bit`s are a `Ring`: the bit of a matching thread in the mask
is its bit at the slot.  Every step of a thread is a step of the ring or none, so the
invariant of the ring holds after every list of steps.

## Main definitions

* `Writing`, `Processing` — a thread is between its access to a `finish_bit` and the next.
* `ring` — the state of the ring.
* `Linked` — what the ring does not see: the masks have no other bits, the threads stand at
  their slots, and the loader waits before it writes.
* `step_ring` — a step of a thread is a step of the ring or none.
* `handOff_safe` — the hand-off in every interleaving.
-/

namespace MatchingEngine

/-! ## Masks and indices -/

theorem eq_allWorkerBit_iff : ∀ b : UInt8, b ≤ allWorkerBit →
    (b = allWorkerBit ↔ ∀ id, b &&& workerBit id ≠ 0) := by decide +kernel

theorem or_workerBit_le : ∀ (id : Fin workerThreadNum) (b : UInt8), b ≤ allWorkerBit →
    b ||| workerBit id ≤ allWorkerBit := by decide +kernel

theorem or_workerBit_and_iff : ∀ (id id' : Fin workerThreadNum) (b : UInt8),
    (b ||| workerBit id) &&& workerBit id' ≠ 0 ↔ b &&& workerBit id' ≠ 0 ∨ id' = id := by
  decide +kernel

theorem zero_and_workerBit (id : Fin workerThreadNum) : (0 : UInt8) &&& workerBit id = 0 :=
  UInt8.zero_and

/-- Setting the bit of a matching thread in a mask sets it for that thread only. -/
theorem or_workerBit_eq_update (id : Fin workerThreadNum) (b : UInt8) :
    (fun v => (b ||| workerBit id) &&& workerBit v ≠ 0) =
      Function.update (fun v => b &&& workerBit v ≠ 0) id True := by
  funext v
  have hor := or_workerBit_and_iff id v b
  by_cases hv : v = id
  · rw [hv, Function.update_self]
    exact eq_true ((or_workerBit_and_iff id id b).mpr (.inr rfl))
  · rw [Function.update_of_ne hv]
    exact propext (hor.trans (or_iff_left hv))

/-- `INCR` goes to the next slot. -/
theorem incr_slot (k : ℕ) : incr (Ring.slot bufferNum k) = Ring.slot bufferNum (k + 1) := by
  rw [Ring.slot, Ring.slot, incr, Fin.ext_iff, Fin.val_ofNat, Fin.val_ofNat, Fin.val_ofNat]
  have hmask : bufferNum - 1 = 2 ^ 3 - 1 := rfl
  have hnum : bufferNum = 2 ^ 3 := rfl
  rw [hmask, Nat.and_two_pow_sub_one_eq_mod, hnum, Nat.mod_mod, Nat.mod_add_mod]

/-- An update that keeps what `f` reads is not seen through `f`. -/
theorem apply_update_eq {ι α β : Type*} [DecidableEq ι] (f : α → β) (g : ι → α) {i : ι} {a : α}
    (h : f a = f (g i)) (j : ι) : f (Function.update g i a j) = f (g j) := by
  rw [Function.apply_update (fun _ => f), h, Function.update_eq_self]

/-! ## The ring of the buffers -/

/-- The accesses of the loader, from outside of a buffer or from inside: it waits, writes and
publishes by turns. -/
inductive Alternates : Bool → List Access → Prop
  | done : Alternates false []
  | spin {accesses : List Access} (h : Alternates true accesses) :
    Alternates false (.spin :: accesses)
  | write {accesses : List Access} (w : Write) (h : Alternates true accesses) :
    Alternates true (.write w :: accesses)
  | publish {accesses : List Access} (h : Alternates false accesses) :
    Alternates true (.publish :: accesses)

theorem Alternates.append {b : Bool} {accesses rest : List Access} (h : Alternates b accesses)
    (hrest : Alternates false rest) : Alternates b (accesses ++ rest) := by
  induction h with
  | done => exact hrest
  | spin _ ih => exact .spin ih
  | write w _ ih => exact .write w ih
  | publish _ ih => exact .publish ih

theorem Alternates.writes {rest : List Access} (hrest : Alternates true rest) {α : Type*}
    (f : α → Write) (l : List α) : Alternates true (l.map (fun x => .write (f x)) ++ rest) := by
  induction l with
  | nil => exact hrest
  | cons x l ih => exact .write (f x) ih

theorem alternates_loadOrders (reads : List (List UInt8)) {rest : List Access}
    (hrest : Alternates true rest) : Alternates true (loadOrders reads ++ rest) := by
  induction reads with
  | nil => exact hrest
  | cons bytes reads ih => exact .write _ (.write _ (.publish (.spin (.write _ (.write _ ih)))))

theorem alternates_directIoLoad (day : DayReads) : Alternates false (directIoLoad day) := by
  have hend : Alternates true (loadOrders day.orderReads ++ [.write (.flag .FileEnd), .publish]) :=
    alternates_loadOrders _ (.write _ (.publish .done))
  have halpha := Alternates.writes
    (.write (.alphaCount (offsetAfter day.alphaReads / alphaSize)) hend) .alphaData day.alphaReads
  have hprev := Alternates.writes
    (.write (.prevCount (offsetAfter day.prevReads / prevTradeInfoSize)) halpha)
    .prevInfoData day.prevReads
  simp only [directIoLoad, List.append_assoc, List.cons_append, List.nil_append] at hprev ⊢
  exact .spin (.write _ (.write _ hprev))

theorem alternates_ioThread (days : List DayReads) : Alternates false (ioThread days) := by
  induction days with
  | nil => exact .done
  | cons day days ih => exact (alternates_directIoLoad day).append ih

namespace Entrance

/-- The loader has found its buffer free and has not published it yet. -/
def Writing (s : Entrance) : Prop := ∃ access rest, s.accesses = access :: rest ∧ access ≠ .spin

/-- The matching thread has found its buffer published and has not released it yet. -/
def Processing (s : Entrance) (id : Fin workerThreadNum) : Prop := (s.workers id).pc ≠ .spin

/-- The buffers as a ring. -/
def ring (s : Entrance) :
    Ring.State (Fin workerThreadNum) (Fin bufferNum × Segment) bufferNum where
  content i := (i, (s.buffers i).toSegment)
  done i id := (s.buffers i).finishBit &&& workerBit id ≠ 0
  published := s.published
  processed id := (s.workers id).processed
  filling := s.Writing
  reading := s.Processing

/-- What the threads keep beside the ring. -/
structure Linked (s : Entrance) : Prop where
  mask : ∀ i, (s.buffers i).finishBit ≤ allWorkerBit
  loader : s.bufferIndex = Ring.slot bufferNum s.published.length
  worker : ∀ id, (s.workers id).bufferIndex =
    Ring.slot bufferNum (s.workers id).processed.length
  accesses : ∃ b, Alternates b s.accesses

theorem Writing.of_alternates {s : Entrance} (h : Alternates true s.accesses) : s.Writing := by
  generalize hacc : s.accesses = accesses at h
  cases h with
  | write w => exact ⟨_, _, hacc, by simp⟩
  | publish => exact ⟨_, _, hacc, by simp⟩

theorem not_writing_of_alternates {s : Entrance} (h : Alternates false s.accesses) :
    ¬ s.Writing := by
  rintro ⟨access, rest, hacc, hne⟩
  rw [hacc] at h
  cases h
  exact hne rfl

/-! ## The steps of the loader -/

section loader
variable {s : Entrance} (h : Linked s)
include h

theorem Linked.spin {accesses : List Access} (hacc : s.accesses = .spin :: accesses)
    (hbit : (s.buffers s.bufferIndex).finishBit = allWorkerBit) :
    Ring.Step (ring s) (ring { s with accesses := accesses }) ∧
      Linked { s with accesses := accesses } := by
  obtain ⟨b, halt⟩ := h.accesses
  rw [hacc] at halt
  cases halt with
  | spin hrest =>
    have hring : ring { s with accesses := accesses } = (ring s).acquire := by
      have hwriting : Writing { s with accesses := accesses } := Writing.of_alternates hrest
      simp only [ring, Ring.State.acquire, Ring.State.mk.injEq, true_and]
      exact ⟨eq_true hwriting, rfl⟩
    rw [hring]
    refine ⟨.acquire ?_ fun id => ?_, h.mask, h.loader, h.worker, true, hrest⟩
    · rintro ⟨access, rest, hacc', hne⟩
      rw [hacc, List.cons.injEq] at hacc'
      exact hne hacc'.1.symm
    · change (s.buffers (Ring.slot bufferNum s.published.length)).finishBit &&& workerBit id ≠ 0
      rw [← h.loader]
      exact (eq_allWorkerBit_iff _ (h.mask _)).mp hbit id

theorem Linked.write {accesses : List Access} {w : Write}
    (hacc : s.accesses = .write w :: accesses) :
    Ring.Step (ring s) (ring s.loaderStep) ∧ Linked s.loaderStep := by
  obtain ⟨b, halt⟩ := h.accesses
  rw [hacc] at halt
  cases halt with
  | write _ hrest =>
    set i := s.bufferIndex
    set b : OrderBuffer := { s.buffers i with toSegment := (s.buffers i).toSegment.write w } with hb
    set t : Entrance := { s.setBuffer i b with accesses := accesses } with ht
    have hstep : s.loaderStep = t := by simp only [loaderStep, hacc, ht, hb, i]
    have hwriting : s.Writing := ⟨_, _, hacc, by simp⟩
    have hbit : ∀ j, (t.buffers j).finishBit = (s.buffers j).finishBit :=
      apply_update_eq (·.finishBit) s.buffers (a := b) rfl
    have hring : ring t = (ring s).fill (i, (s.buffers i).toSegment.write w) := by
      have hcontent : (ring t).content = Function.update (ring s).content i
          (i, (s.buffers i).toSegment.write w) :=
        funext fun j => Function.apply_update (fun j b => (j, b.toSegment)) s.buffers i b j
      have hfilling : t.Writing := Writing.of_alternates hrest
      ext1
      · rw [hcontent, Ring.State.fill]
        exact congrArg (fun k => Function.update (ring s).content k _) h.loader
      · funext j id
        simp only [ring, Ring.State.fill, hbit]
      · rfl
      · rfl
      · exact propext (iff_of_true hfilling hwriting)
      · rfl
    rw [hstep, hring]
    refine ⟨.fill hwriting _, fun j => ?_, h.loader, h.worker, true, hrest⟩
    rw [hbit]
    exact h.mask j

theorem Linked.publish {accesses : List Access} (hacc : s.accesses = .publish :: accesses) :
    Ring.Step (ring s) (ring s.loaderStep) ∧ Linked s.loaderStep := by
  obtain ⟨b, halt⟩ := h.accesses
  rw [hacc] at halt
  cases halt with
  | publish hrest =>
    set i := s.bufferIndex with hi
    set b : OrderBuffer := { s.buffers i with finishBit := 0 } with hb
    set t : Entrance := { s.setBuffer i b with
      accesses := accesses
      bufferIndex := incr i
      published := s.published ++ [(i, (s.buffers i).toSegment)] } with ht
    have hstep : s.loaderStep = t := by simp only [loaderStep, hacc, ht, hb, i]
    have hwriting : s.Writing := ⟨_, _, hacc, by simp⟩
    have hring : ring t = (ring s).publish := by
      have hslot : Ring.slot bufferNum (ring s).count = i := h.loader.symm
      rw [Ring.State.publish, hslot]
      have hcleared : (fun id => b.finishBit &&& workerBit id ≠ 0) = fun _ => False :=
        funext fun id => eq_false (not_not.mpr (zero_and_workerBit id))
      ext1
      · exact funext fun j =>
          congrArg (Prod.mk j) (apply_update_eq (·.toSegment) s.buffers (a := b) rfl j)
      · rw [← hcleared]
        exact funext fun j => Function.apply_update
          (fun _ (b : OrderBuffer) id => b.finishBit &&& workerBit id ≠ 0) s.buffers i b j
      · rfl
      · rfl
      · exact propext (iff_of_false (not_writing_of_alternates hrest) not_false)
      · rfl
    rw [hstep, hring]
    refine ⟨.publish hwriting, ?_, ?_, h.worker, false, hrest⟩
    · have hzero : (0 : UInt8) ≤ allWorkerBit := by decide
      exact (Function.forall_update_iff s.buffers fun _ b => b.finishBit ≤ allWorkerBit).mpr
        ⟨hzero, fun j _ => h.mask j⟩
    · simp only [ht]
      rw [hi, h.loader, incr_slot, List.length_append, List.length_singleton]

/-- A step of the loader. -/
theorem Linked.loaderStep :
    (ring s.loaderStep = ring s ∨ Ring.Step (ring s) (ring s.loaderStep)) ∧
      Linked s.loaderStep := by
  cases hacc : s.accesses with
  | nil =>
    have hstep : s.loaderStep = s := by simp only [Entrance.loaderStep, hacc]
    rw [hstep]
    exact ⟨.inl rfl, h⟩
  | cons access accesses =>
    cases access with
    | spin =>
      by_cases hbit : (s.buffers s.bufferIndex).finishBit = allWorkerBit
      · have hstep : s.loaderStep = { s with accesses := accesses } := by
          simp only [Entrance.loaderStep, hacc, hbit, ne_eq, not_true_eq_false, if_false]
        rw [hstep]
        exact (h.spin hacc hbit).imp_left .inr
      · have hstep : s.loaderStep = s := by
          simp only [Entrance.loaderStep, hacc, ne_eq, hbit, not_false_eq_true, if_true]
        rw [hstep]
        exact ⟨.inl rfl, h⟩
    | write w => exact (h.write hacc).imp_left .inr
    | publish => exact (h.publish hacc).imp_left .inr

end loader

/-! ## The steps of the matching threads -/

/-- Inside a buffer a matching thread touches neither its index nor what it has processed. -/
theorem step_processed (w : Worker) (c : Segment) :
    (w.step c).bufferIndex = w.bufferIndex ∧ (w.step c).processed = w.processed := by
  unfold Worker.step Worker.callAt
  split
  all_goals first
    | exact ⟨rfl, rfl⟩
    | split <;> exact ⟨rfl, rfl⟩

/-- Inside a buffer it goes on until it is at its release. -/
theorem step_pc_ne_spin {w : Worker} (c : Segment) (h : w.pc ≠ .spin) : (w.step c).pc ≠ .spin := by
  unfold Worker.step Worker.callAt
  split
  all_goals first
    | exact h
    | split <;> simp

theorem workerStep_inside {s : Entrance} {id : Fin workerThreadNum}
    (hspin : (s.workers id).pc ≠ .spin) (hrelease : (s.workers id).pc ≠ .release) :
    s.workerStep id = s.setWorker id
      ((s.workers id).step (s.buffers (s.workers id).bufferIndex).toSegment) := by
  -- The hypotheses rule out the branches of the two accesses to the mask.
  simp only [workerStep]

section worker
variable {s : Entrance} (h : Linked s) {id : Fin workerThreadNum}
include h

theorem Linked.start (hpc : (s.workers id).pc = .spin)
    (hbit : (s.buffers (s.workers id).bufferIndex).finishBit &&& workerBit id = 0) :
    Ring.Step (ring s) (ring (s.workerStep id)) ∧ Linked (s.workerStep id) := by
  set w : Worker := { s.workers id with pc := .head } with hw
  set t := s.setWorker id w with ht
  have hstep : s.workerStep id = t := by
    simp only [workerStep, hpc, hbit, ne_eq, not_true_eq_false, if_false, ht, hw]
  have hindex : ∀ v, (t.workers v).bufferIndex = (s.workers v).bufferIndex :=
    apply_update_eq (·.bufferIndex) s.workers (a := w) rfl
  have hprocessed : ∀ v, (t.workers v).processed = (s.workers v).processed :=
    apply_update_eq (·.processed) s.workers (a := w) rfl
  have hring : ring t = (ring s).start id := by
    ext1
    · rfl
    · rfl
    · rfl
    · exact funext hprocessed
    · rfl
    · have hreading : (w.pc ≠ .spin) = True := eq_true (by simp [hw])
      rw [Ring.State.start, ← hreading]
      exact funext fun v =>
        Function.apply_update (fun _ (w : Worker) => w.pc ≠ .spin) s.workers id w v
  rw [hstep, hring]
  refine ⟨.start id (not_not.mpr hpc) ?_, h.mask, h.loader, fun v => ?_, h.accesses⟩
  · change ¬ (s.buffers (Ring.slot bufferNum (s.workers id).processed.length)).finishBit &&&
      workerBit id ≠ 0
    rw [← h.worker]
    exact not_not.mpr hbit
  · rw [hindex, hprocessed]
    exact h.worker v

theorem Linked.release (hpc : (s.workers id).pc = .release) :
    Ring.Step (ring s) (ring (s.workerStep id)) ∧ Linked (s.workerStep id) := by
  set i := (s.workers id).bufferIndex with hi
  set b : OrderBuffer := { s.buffers i with
    finishBit := (s.buffers i).finishBit ||| workerBit id } with hb
  set w : Worker := { s.workers id with
    pc := .spin
    bufferIndex := incr i
    processed := (s.workers id).processed ++ [(i, (s.buffers i).toSegment)] } with hw
  set t := (s.setBuffer i b).setWorker id w with ht
  have hstep : s.workerStep id = t := by
    simp only [workerStep, hpc, ht, hw, hb, hi]
  have hslot : Ring.slot bufferNum ((ring s).place id) = i := (h.worker id).symm
  have hring : ring t = (ring s).release id := by
    rw [Ring.State.release, hslot]
    ext1
    · exact funext fun j =>
        congrArg (Prod.mk j) (apply_update_eq (·.toSegment) s.buffers (a := b) rfl j)
    · have hbits : (fun v => b.finishBit &&& workerBit v ≠ 0) =
          Function.update ((ring s).done i) id True := or_workerBit_eq_update id _
      rw [← hbits]
      exact funext fun j => Function.apply_update
        (fun _ (b : OrderBuffer) v => b.finishBit &&& workerBit v ≠ 0) s.buffers i b j
    · rfl
    · exact funext fun v => Function.apply_update (fun _ w => w.processed) s.workers id w v
    · rfl
    · have hreading : (w.pc ≠ .spin) = False := eq_false (not_not.mpr rfl)
      rw [← hreading]
      exact funext fun v =>
        Function.apply_update (fun _ (w : Worker) => w.pc ≠ .spin) s.workers id w v
  rw [hstep, hring]
  refine ⟨.release id (by simp [ring, Processing, hpc]), ?_, h.loader, ?_, h.accesses⟩
  · exact (Function.forall_update_iff s.buffers fun _ b => b.finishBit ≤ allWorkerBit).mpr
      ⟨or_workerBit_le id _ (h.mask i), fun j _ => h.mask j⟩
  · have hindex : w.bufferIndex = Ring.slot bufferNum w.processed.length := by
      rw [hw, hi, h.worker id, incr_slot, List.length_append, List.length_singleton]
    exact (Function.forall_update_iff s.workers fun _ w =>
      w.bufferIndex = Ring.slot bufferNum w.processed.length).mpr ⟨hindex, fun v _ => h.worker v⟩

/-- A step inside a buffer changes nothing that the ring sees. -/
theorem Linked.inside (hspin : (s.workers id).pc ≠ .spin) (c : Segment) :
    ring (s.setWorker id ((s.workers id).step c)) = ring s ∧
      Linked (s.setWorker id ((s.workers id).step c)) := by
  set t := s.setWorker id ((s.workers id).step c) with ht
  have hindex : ∀ v, (t.workers v).bufferIndex = (s.workers v).bufferIndex :=
    apply_update_eq (·.bufferIndex) s.workers (step_processed _ c).1
  have hprocessed : ∀ v, (t.workers v).processed = (s.workers v).processed :=
    apply_update_eq (·.processed) s.workers (step_processed _ c).2
  have hreading : ∀ v, ((t.workers v).pc ≠ .spin) = ((s.workers v).pc ≠ .spin) :=
    apply_update_eq (·.pc ≠ .spin) s.workers
      (propext (iff_of_true (step_pc_ne_spin c hspin) hspin))
  constructor
  · ext1
    · rfl
    · rfl
    · rfl
    · exact funext hprocessed
    · rfl
    · exact funext hreading
  · refine ⟨h.mask, h.loader, fun v => ?_, h.accesses⟩
    rw [hindex, hprocessed]
    exact h.worker v

/-- A step of a matching thread. -/
theorem Linked.workerStep :
    (ring (s.workerStep id) = ring s ∨ Ring.Step (ring s) (ring (s.workerStep id))) ∧
      Linked (s.workerStep id) := by
  by_cases hspin : (s.workers id).pc = .spin
  · by_cases hbit : (s.buffers (s.workers id).bufferIndex).finishBit &&& workerBit id = 0
    · exact (h.start hspin hbit).imp_left .inr
    · have hstep : s.workerStep id = s := by
        simp only [Entrance.workerStep, hspin, ne_eq, hbit, not_false_eq_true, if_true]
      rw [hstep]
      exact ⟨.inl rfl, h⟩
  · by_cases hrelease : (s.workers id).pc = .release
    · exact (h.release hrelease).imp_left .inr
    · rw [workerStep_inside hspin hrelease]
      exact (h.inside hspin _).imp_left .inl

end worker

/-- **A step of a thread is a step of the ring, or the ring does not see it.** -/
theorem step_ring {s : Entrance} (h : Linked s) (thread : Thread) :
    (ring (s.step thread) = ring s ∨ Ring.Step (ring s) (ring (s.step thread))) ∧
      Linked (s.step thread) := by
  cases thread with
  | loader => exact h.loaderStep
  | worker id => exact h.workerStep

/-! ## Every interleaving -/

/-- The buffers are free, nothing is published, and the threads are as they were created. -/
structure Fresh (s : Entrance) : Prop where
  mask : ∀ i, (s.buffers i).finishBit = allWorkerBit
  bufferIndex : s.bufferIndex = 0
  published : s.published = []
  workers : ∀ id, s.workers id = .new
  accesses : Alternates false s.accesses

theorem fresh_main (memory : Fin bufferNum → List UInt8 × List UInt8 × List UInt8)
    (days : List DayReads) : (main memory days).Fresh :=
  ⟨fun _ => rfl, rfl, rfl, fun _ => rfl, alternates_ioThread days⟩

section fresh
variable {s : Entrance} (h : s.Fresh)
include h

theorem Fresh.mask_le (i : Fin bufferNum) : (s.buffers i).finishBit ≤ allWorkerBit := by
  rw [h.mask i]
  exact UInt8.le_refl _

theorem Fresh.linked : Linked s := by
  refine ⟨h.mask_le, ?_, fun id => ?_, false, h.accesses⟩
  · rw [h.bufferIndex, h.published]
    rfl
  · rw [h.workers id]
    rfl

theorem Fresh.initial : (ring s).Initial := by
  refine ⟨fun i id => (eq_allWorkerBit_iff _ (h.mask_le i)).mp (h.mask i) id, h.published,
    fun id => ?_, not_writing_of_alternates h.accesses, fun id => not_not.mpr ?_⟩
  · exact congrArg Worker.processed (h.workers id)
  · exact congrArg Worker.pc (h.workers id)

end fresh

theorem run_concat (s : Entrance) (schedule : List Thread) (thread : Thread) :
    s.run (schedule ++ [thread]) = (s.run schedule).step thread := by
  simp [run]

/-- What every step preserves holds after every list of steps. -/
theorem run_invariant {I : Entrance → Prop} (hstep : ∀ s thread, I s → I (s.step thread))
    {s : Entrance} (hs : I s) (schedule : List Thread) : I (s.run schedule) := by
  induction schedule using List.reverseRecOn with
  | nil => exact hs
  | append_singleton schedule thread ih =>
    rw [run_concat]
    exact hstep _ _ ih

/-- A step keeps the invariant of the ring. -/
theorem inv_step {s : Entrance} (h : Linked s ∧ Ring.Inv (ring s)) (thread : Thread) :
    Linked (s.step thread) ∧ Ring.Inv (ring (s.step thread)) := by
  obtain ⟨hstep, hlinked⟩ := step_ring h.1 thread
  refine ⟨hlinked, ?_⟩
  rcases hstep with heq | hstep
  · rw [heq]
    exact h.2
  · exact h.2.step hstep

/-- **The invariant of the ring holds after every list of steps.** -/
theorem ring_inv (memory : Fin bufferNum → List UInt8 × List UInt8 × List UInt8)
    (days : List DayReads) (schedule : List Thread) :
    Linked ((main memory days).run schedule) ∧
      Ring.Inv (ring ((main memory days).run schedule)) :=
  run_invariant (I := fun s => Linked s ∧ Ring.Inv (ring s)) (fun _ thread h => inv_step h thread)
    ⟨(fresh_main memory days).linked, (fresh_main memory days).initial.inv⟩ schedule

/-- **The hand-off is safe in every interleaving.**  While the loader writes a buffer no
matching thread processes it or has still to process what it was published with; a matching
thread processes a buffer with the content that is the next published one for it; and what a
matching thread has processed are the first of the published contents, in order. -/
theorem handOff_safe (memory : Fin bufferNum → List UInt8 × List UInt8 × List UInt8)
    (days : List DayReads) (schedule : List Thread) :
    let s := (main memory days).run schedule
    (s.Writing → ∀ id,
      ¬ (s.Processing id ∧ (s.workers id).bufferIndex = s.bufferIndex) ∧
      ∀ k segment, s.published[k]? = some (s.bufferIndex, segment) →
        k < (s.workers id).processed.length) ∧
    (∀ id, s.Processing id → s.published[(s.workers id).processed.length]? =
      some ((s.workers id).bufferIndex, (s.buffers (s.workers id).bufferIndex).toSegment)) ∧
    ∀ id, (s.workers id).processed <+: s.published := by
  intro s
  obtain ⟨hlinked, hinv⟩ : Linked s ∧ Ring.Inv (ring s) := ring_inv memory days schedule
  have hstable : ∀ id k, (s.workers id).processed.length ≤ k → ∀ entry,
      s.published[k]? = some entry → entry.1 = Ring.slot bufferNum k := by
    intro id k hk entry hentry
    have hlt := (List.getElem?_eq_some_iff.mp hentry).1
    have hcontent := hinv.content id k hk hlt
    change s.published[k]? = _ at hcontent
    obtain rfl := Option.some.inj (hentry.symm.trans hcontent)
    rfl
  refine ⟨fun hwriting id => ⟨fun ⟨hprocessing, hindex⟩ => ?_, fun k segment hk => ?_⟩,
    fun id hprocessing => ?_, fun id => hinv.inOrder id⟩
  · rw [hlinked.worker, hlinked.loader] at hindex
    exact (hinv.exclusive hwriting id).1 hprocessing hindex
  · by_contra hge
    have hslot := hstable id k (not_lt.mp hge) _ hk
    rw [hlinked.loader] at hslot
    exact hge ((hinv.exclusive hwriting id).2 k (List.getElem?_eq_some_iff.mp hk).1 hslot.symm)
  · rw [hlinked.worker]
    exact hinv.stable hprocessing

end Entrance
end MatchingEngine
