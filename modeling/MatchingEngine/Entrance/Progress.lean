import Mathlib
import MatchingEngine.Entrance.HandOff

/-!
# The threads always can go on

No interleaving leads the threads into a deadlock: from every state they reach, some list of
steps brings all of them to their end.  A matching thread that is behind can take a step
towards the end of its buffer, and when none is behind the buffer of the loader is free.

## Main definitions

* `CaughtUp`, `Complete` — a matching thread has released all that is published, or all.
* `measure` — what is left to do; `exists_step` lowers it.
* `exists_run_complete` — the threads can come to their end.
* `Enabled`, `deadlock_free` — some thread is not at a spin test that fails.
-/

namespace MatchingEngine

/-- The steps of a matching thread, as long as its buffer holds `c`, until it has released it. -/
def Worker.work (w : Worker) (c : Segment) : ℕ :=
  match w.pc with
  | .spin => 7 + c.prevCount + c.alphaCount + c.orderCount
  | .head => 6 + c.prevCount + c.alphaCount + c.orderCount
  | .prev i => 5 + (c.prevCount - i) + c.alphaCount + c.orderCount
  | .alpha i => 4 + (c.alphaCount - i) + c.orderCount
  | .order i => 3 + (c.orderCount - i)
  | .tail => 2
  | .release => 1

theorem Worker.work_step {w : Worker} (c : Segment) (hspin : w.pc ≠ .spin)
    (hrelease : w.pc ≠ .release) : (w.step c).work c < w.work c := by
  obtain ⟨pc, bufferIndex, engine, made, calls, processed⟩ := w
  cases pc with
  | spin => exact absurd rfl hspin
  | release => exact absurd rfl hrelease
  | head =>
    by_cases h : c.flag = .FileHead
    · simp only [step, h, if_true, work]
      omega
    · simp only [step, h, if_false, work]
      omega
  | prev i =>
    by_cases h : i < c.prevCount
    · simp only [step, h, if_true, callAt, work]
      omega
    · simp only [step, h, if_false, work]
      omega
  | alpha i =>
    by_cases h : i < c.alphaCount
    · simp only [step, h, if_true, callAt, work]
      omega
    · simp only [step, h, if_false, work]
      omega
  | order i =>
    by_cases h : i < c.orderCount
    · simp only [step, h, if_true, callAt, work]
      omega
    · simp only [step, h, if_false, work]
      omega
  | tail =>
    by_cases h : c.flag = .FileEnd
    · simp [step, h, callAt, work]
    · simp [step, h, work]

namespace Entrance

/-- The matching thread has released all that is published. -/
structure CaughtUp (s : Entrance) (id : Fin workerThreadNum) : Prop where
  pc : (s.workers id).pc = .spin
  processed : (s.workers id).processed = s.published

/-- The loader is at its end, and the matching thread has released all it published. -/
structure Complete (s : Entrance) (id : Fin workerThreadNum) : Prop extends CaughtUp s id where
  accesses : s.accesses = []

/-- The number of buffers that the matching thread has still to release. -/
def behind (s : Entrance) (id : Fin workerThreadNum) : ℕ :=
  s.published.length - (s.workers id).processed.length

/-- The steps of the matching thread in the buffer at which it is. -/
def work (s : Entrance) (id : Fin workerThreadNum) : ℕ :=
  (s.workers id).work (s.buffers (s.workers id).bufferIndex).toSegment

/-- What is left to do: for the loader, then in buffers, then inside them. -/
def measure (s : Entrance) : ℕ ×ₗ ℕ ×ₗ ℕ :=
  toLex (s.accesses.length, toLex (∑ id, s.behind id, ∑ id, s.work id))

variable {s t : Entrance}

theorem measure_lt_of_accesses (h : t.accesses.length < s.accesses.length) :
    t.measure < s.measure := Prod.Lex.toLex_lt_toLex.mpr (.inl h)

theorem measure_lt_of_behind (haccesses : t.accesses = s.accesses)
    (h : ∑ id, t.behind id < ∑ id, s.behind id) : t.measure < s.measure := by
  have hlength : t.accesses.length = s.accesses.length := congrArg _ haccesses
  exact Prod.Lex.toLex_lt_toLex.mpr (.inr ⟨hlength, Prod.Lex.toLex_lt_toLex.mpr (.inl h)⟩)

theorem measure_lt_of_work (haccesses : t.accesses = s.accesses)
    (hbehind : ∀ id, t.behind id = s.behind id) (h : ∑ id, t.work id < ∑ id, s.work id) :
    t.measure < s.measure := by
  have hlength : t.accesses.length = s.accesses.length := congrArg _ haccesses
  have hsum : ∑ id, t.behind id = ∑ id, s.behind id := Finset.sum_congr rfl fun id _ => hbehind id
  exact Prod.Lex.toLex_lt_toLex.mpr
    (.inr ⟨hlength, Prod.Lex.toLex_lt_toLex.mpr (.inr ⟨hsum, h⟩)⟩)

theorem sum_lt_of_update {f g : Fin workerThreadNum → ℕ} (id : Fin workerThreadNum)
    (hother : ∀ v, v ≠ id → f v = g v) (hlt : f id < g id) : ∑ v, f v < ∑ v, g v := by
  refine Finset.sum_lt_sum (fun v _ => ?_) ⟨id, Finset.mem_univ id, hlt⟩
  by_cases hv : v = id
  · rw [hv]
    exact hlt.le
  · exact (hother v hv).le

/-- A step of a matching thread that only changes where it is in its buffer. -/
theorem measure_setWorker_lt {id : Fin workerThreadNum} {w : Worker}
    (hindex : w.bufferIndex = (s.workers id).bufferIndex)
    (hprocessed : w.processed = (s.workers id).processed)
    (hlt : w.work (s.buffers (s.workers id).bufferIndex).toSegment < s.work id) :
    (s.setWorker id w).measure < s.measure := by
  have hself : (s.setWorker id w).workers id = w := Function.update_self ..
  have hother : ∀ v, v ≠ id → (s.setWorker id w).workers v = s.workers v :=
    fun v hv => Function.update_of_ne hv ..
  refine measure_lt_of_work rfl (fun v => ?_) (sum_lt_of_update id (fun v hv => ?_) ?_)
  · by_cases hv : v = id
    · rw [hv, behind, behind, hself, hprocessed]
      rfl
    · rw [behind, behind, hother v hv]
      rfl
  · rw [work, work, hother v hv]
    rfl
  · rw [work, hself, hindex]
    exact hlt

section exists_step
variable (h : Linked s ∧ Ring.Inv (ring s))
include h

/-- A matching thread that is behind and waits finds its buffer published. -/
theorem bit_eq_zero_of_behind {id : Fin workerThreadNum}
    (hlt : (s.workers id).processed.length < s.published.length) :
    (s.buffers (s.workers id).bufferIndex).finishBit &&& workerBit id = 0 := by
  by_contra hbit
  rw [h.1.worker] at hbit
  exact lt_irrefl _ ((h.2.done_iff id _).mp hbit _ hlt rfl)

/-- A matching thread that has not caught up can take a step. -/
theorem exists_step_of_not_caughtUp {id : Fin workerThreadNum} (hid : ¬ s.CaughtUp id) :
    (s.step (.worker id)).measure < s.measure := by
  have hprocessed : (s.workers id).processed <+: s.published := h.2.inOrder id
  by_cases hspin : (s.workers id).pc = .spin
  · have hlt : (s.workers id).processed.length < s.published.length := by
      by_contra hle
      exact hid ⟨hspin, hprocessed.eq_of_length_le (not_lt.mp hle)⟩
    have hbit := bit_eq_zero_of_behind h hlt
    have hstep : s.step (.worker id) = s.setWorker id { s.workers id with pc := .head } := by
      simp only [step, workerStep, hspin, hbit, ne_eq, not_true_eq_false, if_false]
    rw [hstep]
    refine measure_setWorker_lt rfl rfl ?_
    simp only [work, Worker.work, hspin]
    omega
  · by_cases hrelease : (s.workers id).pc = .release
    · have hlt : (s.workers id).processed.length < s.published.length := h.2.pending id hspin
      refine measure_lt_of_behind ?_ (sum_lt_of_update id (fun v hv => ?_) ?_)
      · simp only [step, workerStep, hrelease]
        rfl
      · simp only [step, workerStep, hrelease, behind, setWorker, setBuffer,
          Function.update_of_ne hv]
      · simp only [step, workerStep, hrelease, behind, setWorker, setBuffer, Function.update_self,
          List.length_append, List.length_singleton]
        omega
    · have hstep : s.step (.worker id) = _ := workerStep_inside hspin hrelease
      rw [hstep]
      exact measure_setWorker_lt (step_processed _ _).1 (step_processed _ _).2
        (Worker.work_step _ hspin hrelease)

/-- When no matching thread is behind, the buffers are free. -/
theorem mask_of_caughtUp (hall : ∀ id, s.CaughtUp id) (i : Fin bufferNum) :
    (s.buffers i).finishBit = allWorkerBit := by
  refine (eq_allWorkerBit_iff _ (h.1.mask _)).mpr fun id => (h.2.done_iff id _).mpr ?_
  intro k hk _
  change k < (s.workers id).processed.length
  rw [(hall id).processed]
  exact hk

omit h in
/-- The loader can take a step unless it waits. -/
theorem loader_step (haccesses : s.accesses ≠ [])
    (hfree : ∀ accesses, s.accesses = .spin :: accesses →
      (s.buffers s.bufferIndex).finishBit = allWorkerBit) :
    (s.step .loader).measure < s.measure := by
  refine measure_lt_of_accesses ?_
  obtain ⟨access, accesses, hacc⟩ := List.exists_cons_of_ne_nil haccesses
  have hstep : (s.step .loader).accesses = accesses := by
    cases access with
    | spin =>
      simp only [step, loaderStep, hacc, hfree accesses hacc, ne_eq, not_true_eq_false, if_false]
    | write w => simp only [step, loaderStep, hacc]
    | publish => simp only [step, loaderStep, hacc]
  rw [hstep, hacc]
  exact Nat.lt_succ_self _

/-- **Some thread can take a step** that leaves less to do, unless nothing is left. -/
theorem exists_step : (∀ id, s.Complete id) ∨ ∃ thread, (s.step thread).measure < s.measure := by
  by_cases hall : ∀ id, s.CaughtUp id
  · by_cases haccesses : s.accesses = []
    · exact .inl fun id => ⟨hall id, haccesses⟩
    · exact .inr ⟨.loader, loader_step haccesses fun _ _ => mask_of_caughtUp h hall _⟩
  · obtain ⟨id, hid⟩ := not_forall.mp hall
    exact .inr ⟨.worker id, exists_step_of_not_caughtUp h hid⟩

/-- **From every reachable state the threads can come to their end.** -/
theorem exists_run_complete : ∃ schedule, ∀ id, (s.run schedule).Complete id := by
  induction hm : s.measure using WellFoundedLT.induction generalizing s with
  | _ m ih =>
    rcases exists_step h with hdone | ⟨thread, hlt⟩
    · exact ⟨[], hdone⟩
    · obtain ⟨schedule, hdone⟩ := ih _ (hm ▸ hlt) (inv_step h thread) rfl
      exact ⟨thread :: schedule, hdone⟩

end exists_step

/-! ## No deadlock -/

/-- The thread has a next step, which is not a spin test that fails. -/
def Enabled (s : Entrance) : Thread → Prop
  | .loader => ∃ access accesses, s.accesses = access :: accesses ∧
      (access = .spin → (s.buffers s.bufferIndex).finishBit = allWorkerBit)
  | .worker id => (s.workers id).pc = .spin →
      (s.buffers (s.workers id).bufferIndex).finishBit &&& workerBit id = 0

/-- A thread that is not enabled stays where it is. -/
theorem step_of_not_enabled {thread : Thread} (h : ¬ s.Enabled thread) : s.step thread = s := by
  cases thread with
  | loader =>
    cases hacc : s.accesses with
    | nil => simp only [step, loaderStep, hacc]
    | cons access accesses =>
      have hfails : access = .spin ∧ (s.buffers s.bufferIndex).finishBit ≠ allWorkerBit := by
        by_contra hne
        exact h ⟨access, accesses, hacc, fun hspin => by_contra fun hbit => hne ⟨hspin, hbit⟩⟩
      obtain ⟨rfl, hbit⟩ := hfails
      simp only [step, loaderStep, hacc, ne_eq, hbit, not_false_eq_true, if_true]
  | worker id =>
    obtain ⟨hspin, hbit⟩ := Classical.not_imp.mp h
    simp only [step, workerStep, hspin, ne_eq, hbit, not_false_eq_true, if_true]

theorem enabled_of_measure_lt {thread : Thread} (h : (s.step thread).measure < s.measure) :
    s.Enabled thread := by
  by_contra hne
  rw [step_of_not_enabled hne] at h
  exact lt_irrefl _ h

/-- A matching thread that has not released the buffer of the loader is behind. -/
theorem processed_length_lt_of_bit (h : Linked s ∧ Ring.Inv (ring s)) {id : Fin workerThreadNum}
    (hbit : (s.buffers s.bufferIndex).finishBit &&& workerBit id = 0) :
    (s.workers id).processed.length < s.published.length := by
  have hdone : ¬ (ring s).done s.bufferIndex id := not_not.mpr hbit
  rw [h.2.done_iff] at hdone
  simp only [not_forall] at hdone
  obtain ⟨k, hk, -, hle⟩ := hdone
  exact (not_lt.mp hle).trans_lt hk

/-- **The threads cannot deadlock.**  While a segment is still to be published or processed, a
thread is enabled; and while the loader waits for a buffer, a matching thread that has not
released it is enabled, in or before a published segment. -/
theorem deadlock_free (memory : Fin bufferNum → List UInt8 × List UInt8 × List UInt8)
    (days : List DayReads) (schedule : List Thread) :
    let s := (main memory days).run schedule
    ((.publish ∈ s.accesses ∨ ∃ id, (s.workers id).processed ≠ s.published) →
      ∃ thread, s.Enabled thread) ∧
    ∀ accesses, s.accesses = .spin :: accesses →
      (s.buffers s.bufferIndex).finishBit ≠ allWorkerBit →
      ∃ id, (s.buffers s.bufferIndex).finishBit &&& workerBit id = 0 ∧
        s.Enabled (.worker id) ∧ ∃ segment,
          s.published[(s.workers id).processed.length]? = some ((s.workers id).bufferIndex, segment)
    := by
  intro s
  have hinv : Linked s ∧ Ring.Inv (ring s) := ring_inv memory days schedule
  constructor
  · intro hleft
    rcases exists_step hinv with hdone | ⟨thread, hlt⟩
    · rcases hleft with hpublish | ⟨id, hne⟩
      · rw [(hdone 0).accesses] at hpublish
        exact absurd hpublish List.not_mem_nil
      · exact absurd (hdone id).processed hne
    · exact ⟨thread, enabled_of_measure_lt hlt⟩
  · intro accesses hacc hmask
    obtain ⟨id, hbit⟩ : ∃ id, (s.buffers s.bufferIndex).finishBit &&& workerBit id = 0 := by
      by_contra hnone
      exact hmask ((eq_allWorkerBit_iff _ (hinv.1.mask _)).mpr fun id hbit => hnone ⟨id, hbit⟩)
    have hlt := processed_length_lt_of_bit hinv hbit
    have hcontent := hinv.2.content id _ le_rfl hlt
    refine ⟨id, hbit, fun _ => bit_eq_zero_of_behind hinv hlt, ?_⟩
    rw [hinv.1.worker id]
    exact ⟨_, hcontent⟩

end Entrance
end MatchingEngine
