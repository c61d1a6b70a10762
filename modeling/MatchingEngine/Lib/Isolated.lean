import Mathlib
import MatchingEngine.Lib.Refinement
import MatchingEngine.Lib.Fairness

/-!
# Threads with keys of their own

Threads take steps one at a time, in any order, each on a state of its own and all on one store.
If every thread reads and writes keys of its own only, it does in company what it does alone:
its state and its keys are those after some of its own steps, and when all threads have ended
the store is what each of them alone makes of its keys.

## Main definitions

* `Step`, `System`, `advance` — the step of a thread, and the threads together.
* `Owns` — a thread reads and writes its own keys only.
* `exists_run_alone` — what a thread does in company it does alone.
* `eventually_alone` — under every fair schedule all threads come to the end they have alone.
-/

namespace MatchingEngine.Isolated

open Loop Fairness

variable {ι σ κ ν : Type*}

/-- A step of a thread, on its state and the store; `none` is its end. -/
abbrev Step (σ κ ν : Type*) := σ × (κ → ν) → Option (σ × (κ → ν))

/-- The same state of a thread, and the same values at its keys. -/
def SameOn (keys : Set κ) (p q : σ × (κ → ν)) : Prop := p.1 = q.1 ∧ ∀ k ∈ keys, p.2 k = q.2 k

/-- A thread reads and writes its own keys only, in the states of `I`. -/
structure Owns (I : σ → Prop) (step : Step σ κ ν) (keys : Set κ) : Prop where
  invariant : ∀ p q, I p.1 → step p = some q → I q.1
  frame : ∀ p q, I p.1 → step p = some q → ∀ k, k ∉ keys → q.2 k = p.2 k
  same : ∀ p q, I p.1 → SameOn keys p q → Option.Rel (SameOn keys) (step p) (step q)

/-- The states of the threads, and their store. -/
structure System (ι σ κ ν : Type*) where
  threads : ι → σ
  store : κ → ν

namespace System

section
variable [DecidableEq ι] (step : ι → Step σ κ ν)

/-- A thread takes its next step, unless it has ended. -/
def advance (s : System ι σ κ ν) (i : ι) : System ι σ κ ν :=
  match step i (s.threads i, s.store) with
  | none => s
  | some (t, store) => ⟨Function.update s.threads i t, store⟩

/-- The threads of the list take their steps, one after the other. -/
def run (s : System ι σ κ ν) (schedule : List ι) : System ι σ κ ν :=
  schedule.foldl (advance step) s

/-- Every thread has ended. -/
def Ended (s : System ι σ κ ν) : Prop := ∀ i, step i (s.threads i, s.store) = none

end

section alone
variable [DecidableEq ι] {step : ι → Step σ κ ν} {I : ι → σ → Prop} {keys : ι → Set κ}
  (howns : ∀ i, Owns (I i) (step i) (keys i))

theorem advance_of_none {s : System ι σ κ ν} {i : ι}
    (h : step i (s.threads i, s.store) = none) : s.advance step i = s := by
  rw [advance, h]

theorem advance_of_some {s : System ι σ κ ν} {i : ι} {p : σ × (κ → ν)}
    (h : step i (s.threads i, s.store) = some p) :
    s.advance step i = ⟨Function.update s.threads i p.1, p.2⟩ := by
  rw [advance, h]

include howns

/-- The invariants of the threads are kept. -/
theorem invariant_advance {s : System ι σ κ ν} (hs : ∀ i, I i (s.threads i)) (j : ι) :
    ∀ i, I i ((s.advance step j).threads i) := by
  intro i
  cases h : step j (s.threads j, s.store) with
  | none => rw [advance_of_none h]; exact hs i
  | some p =>
    rw [advance_of_some h]
    by_cases hij : i = j
    · subst hij
      simp only [Function.update_self]
      exact (howns i).invariant _ _ (hs i) h
    · simp only [Function.update_of_ne hij]
      exact hs i

theorem invariant_run {s : System ι σ κ ν} (hs : ∀ i, I i (s.threads i)) (schedule : List ι) :
    ∀ i, I i ((s.run step schedule).threads i) := by
  induction schedule generalizing s with
  | nil => exact hs
  | cons j schedule ih => exact ih (invariant_advance howns hs j)

/-- A step of another thread leaves a thread and its keys as they are. -/
theorem advance_of_ne (hdisjoint : ∀ i j, i ≠ j → Disjoint (keys i) (keys j))
    {s : System ι σ κ ν} (hs : ∀ i, I i (s.threads i)) {i j : ι} (hij : i ≠ j) :
    SameOn (keys i) ((s.advance step j).threads i, (s.advance step j).store)
      (s.threads i, s.store) := by
  cases h : step j (s.threads j, s.store) with
  | none => rw [advance_of_none h]; exact ⟨rfl, fun _ _ => rfl⟩
  | some p =>
    rw [advance_of_some h]
    refine ⟨Function.update_of_ne hij _ _, fun k hk => ?_⟩
    exact (howns j).frame _ _ (hs j) h k fun hk' =>
      Set.disjoint_left.mp (hdisjoint i j hij) hk hk'

/-- **What a thread does in company it does alone**: its state and its keys are those after some
of its own steps. -/
theorem exists_run_alone (hdisjoint : ∀ i j, i ≠ j → Disjoint (keys i) (keys j))
    {s : System ι σ κ ν} (hs : ∀ i, I i (s.threads i)) (schedule : List ι) (i : ι)
    {q : σ × (κ → ν)} (hq : SameOn (keys i) (s.threads i, s.store) q) :
    ∃ n, SameOn (keys i) ((s.run step schedule).threads i, (s.run step schedule).store)
      (Loop.run (step i) n q) := by
  induction schedule generalizing s q with
  | nil => exact ⟨0, hq⟩
  | cons j schedule ih =>
    have hnext := invariant_advance howns hs j
    by_cases hij : i = j
    · subst hij
      cases h : step i (s.threads i, s.store) with
      | none =>
        rw [run, List.foldl_cons, advance_of_none h]
        exact ih hs hq
      | some p =>
        have hrel := (howns i).same _ q (hs i) hq
        rw [h] at hrel
        cases hq' : step i q with
        | none => rw [hq'] at hrel; cases hrel
        | some q' =>
          rw [hq'] at hrel
          cases hrel with
          | some hsame =>
            have hstart : SameOn (keys i) ((s.advance step i).threads i, (s.advance step i).store)
                q' := by
              rw [advance_of_some h]
              exact ⟨(Function.update_self ..).trans hsame.1, hsame.2⟩
            obtain ⟨n, hn⟩ := ih hnext hstart
            exact ⟨n + 1, by rwa [run_succ_of_some hq']⟩
    · have hkeep := advance_of_ne howns hdisjoint hs hij
      exact ih hnext ⟨hkeep.1.trans hq.1, fun k hk => (hkeep.2 k hk).trans (hq.2 k hk)⟩

/-- The keys that no thread owns are left alone. -/
theorem store_run_of_notMem {s : System ι σ κ ν} (hs : ∀ i, I i (s.threads i))
    (schedule : List ι) {k : κ} (hk : ∀ i, k ∉ keys i) :
    (s.run step schedule).store k = s.store k := by
  induction schedule generalizing s with
  | nil => rfl
  | cons j schedule ih =>
    have hstep : (s.advance step j).store k = s.store k := by
      cases h : step j (s.threads j, s.store) with
      | none => rw [advance_of_none h]
      | some p =>
        rw [advance_of_some h]
        exact (howns j).frame _ _ (hs j) h k (hk j)
    exact (ih (invariant_advance howns hs j)).trans hstep

section ends
variable {measure : ι → σ → ℕ}
  (hdecreases : ∀ i, Decreases (fun p => I i p.1) (step i) fun p => measure i p.1)
include hdecreases

/-- **A thread that has ended is where it ends alone.** -/
theorem eq_exec_of_ended (hdisjoint : ∀ i j, i ≠ j → Disjoint (keys i) (keys j))
    {s : System ι σ κ ν} (hs : ∀ i, I i (s.threads i)) (schedule : List ι) {i : ι}
    (hend : step i ((s.run step schedule).threads i, (s.run step schedule).store) = none) :
    SameOn (keys i) ((s.run step schedule).threads i, (s.run step schedule).store)
      (exec (step i) (fun p => measure i p.1) (s.threads i, s.store)) := by
  obtain ⟨n, hn⟩ := exists_run_alone howns hdisjoint hs schedule i
    (q := (s.threads i, s.store)) ⟨rfl, fun _ _ => rfl⟩
  have hrel := (howns i).same _ _ (invariant_run howns hs schedule i) hn
  rw [hend] at hrel
  have halone : step i (Loop.run (step i) n (s.threads i, s.store)) = none := by
    cases hlast : step i (Loop.run (step i) n (s.threads i, s.store)) with
    | none => rfl
    | some p => rw [hlast] at hrel; cases hrel
  rw [exec_eq_run (hdecreases i) (hs i) halone]
  exact hn

/-- The steps of the threads lead to their ends. -/
theorem progresses [Fintype ι] : Progresses (fun s : System ι σ κ ν => ∀ i, I i (s.threads i))
    (Ended step) (advance step) fun s => ∑ i, measure i (s.threads i) := by
  have hlt : ∀ (s : System ι σ κ ν) (i : ι) (p : σ × (κ → ν)), (∀ i, I i (s.threads i)) →
      step i (s.threads i, s.store) = some p →
      ∑ j, measure j ((s.advance step i).threads j) < ∑ j, measure j (s.threads j) := by
    intro s i p hs h
    have hless := (hdecreases i _ _ (hs i) h).2
    rw [advance_of_some h]
    refine Finset.sum_lt_sum (fun j _ => ?_) ⟨i, Finset.mem_univ i, ?_⟩
    · by_cases hj : j = i
      · subst hj
        simpa only [Function.update_self] using hless.le
      · simp only [Function.update_of_ne hj, le_refl]
    · simpa only [Function.update_self] using hless
  refine ⟨fun s i hs => invariant_advance howns hs i, fun s i hs => ?_, fun s i _ hdone => ?_,
    fun s hs => ?_⟩
  · cases h : step i (s.threads i, s.store) with
    | none => exact .inl (advance_of_none h)
    | some p => exact .inr (hlt s i p hs h)
  · rw [advance_of_none (hdone i)]
    exact hdone
  · by_cases hdone : Ended step s
    · exact .inl hdone
    · obtain ⟨i, hi⟩ := not_forall.mp hdone
      obtain ⟨p, hp⟩ := Option.ne_none_iff_exists'.mp hi
      exact .inr ⟨i, hlt s i p hs hp⟩

/-- **Under every fair schedule all threads come to the end they have alone**, and the store is
what each of them alone makes of its keys. -/
theorem eventually_alone [Fintype ι] (hdisjoint : ∀ i j, i ≠ j → Disjoint (keys i) (keys j))
    {s : System ι σ κ ν} (hs : ∀ i, I i (s.threads i)) {schedule : ℕ → ι}
    (hfair : Fair schedule) :
    ∃ n, ∀ m, n ≤ m →
      let t := s.run step (firstSteps schedule m)
      t.Ended step ∧ (∀ k, (∀ i, k ∉ keys i) → t.store k = s.store k) ∧
        ∀ i, ∀ k ∈ keys i, t.store k =
          (exec (step i) (fun p => measure i p.1) (s.threads i, s.store)).2 k := by
  obtain ⟨n, hn⟩ := (progresses howns hdecreases).eventually hs schedule hfair
  refine ⟨n, fun m hle => ⟨hn m hle, fun k hk => store_run_of_notMem howns hs _ hk, ?_⟩⟩
  intro i k hk
  exact (eq_exec_of_ended howns hdecreases hdisjoint hs _ (hn m hle i)).2 k hk

end ends
end alone
end System
end MatchingEngine.Isolated
