import Mathlib

/-!
# Loops as iterated partial steps

A `while` loop is a partial function `step : σ → Option σ`: it answers the state
after one more pass through the body, or `none` when the guard fails or the body
breaks.  `exec step measure` iterates it.  The iteration is bounded by a measure of
the starting state, so it is structural and evaluates; the bound is no restriction
once the measure is shown to decrease, and then `exec_done` says that the loop has
really ended.

## Main definitions

* `run step fuel s` — iterate at most `fuel` times.
* `exec step measure s` — iterate with the measure of the start as the bound.
* `Ends` — after some passes there is no further one.
* `Decreases` — every pass preserves an invariant and lowers the measure.
* `run_invariant`, `exec_invariant` — the loop invariant.
* `exec_done` — the loop stops because its step answers `none`.
* `exec_induction` — induction along the passes of a loop.
-/

namespace MatchingEngine.Loop

universe u
variable {σ : Type u}

/-- Iterate `step` until it answers `none`, at most `fuel` times. -/
def run (step : σ → Option σ) : ℕ → σ → σ
  | 0, s => s
  | fuel + 1, s =>
    match step s with
    | none => s
    | some t => run step fuel t

/-- Iterate `step` until it answers `none`, with `measure s` passes allowed. -/
def exec (step : σ → Option σ) (measure : σ → ℕ) (s : σ) : σ := run step (measure s) s

@[simp] theorem run_zero (step : σ → Option σ) (s : σ) : run step 0 s = s := rfl

theorem run_of_none {step : σ → Option σ} {s : σ} (h : step s = none) (n : ℕ) :
    run step n s = s := by
  cases n with
  | zero => rfl
  | succ n => simp [run, h]

theorem run_succ_of_some {step : σ → Option σ} {s t : σ} (h : step s = some t) (n : ℕ) :
    run step (n + 1) s = run step n t := by
  simp [run, h]

/-- Passes that are allowed after the end change nothing. -/
theorem run_of_le {step : σ → Option σ} {n m : ℕ} (hle : n ≤ m) {s : σ}
    (h : step (run step n s) = none) : run step m s = run step n s := by
  induction n generalizing m s with
  | zero => exact run_of_none h m
  | succ n ih =>
    obtain ⟨m, rfl⟩ : ∃ k, m = k + 1 := ⟨m - 1, by omega⟩
    cases hs : step s with
    | none => rw [run_of_none hs, run_of_none hs]
    | some t =>
      rw [run_succ_of_some hs] at h ⊢
      rw [run_succ_of_some hs]
      exact ih (by omega) h

/-- **The loop invariant.**  What every pass preserves holds when the loop ends. -/
theorem run_invariant {step : σ → Option σ} (I : σ → Prop)
    (hstep : ∀ s t, I s → step s = some t → I t) :
    ∀ (n : ℕ) (s : σ), I s → I (run step n s) := by
  intro n
  induction n with
  | zero => intro s hs; exact hs
  | succ n ih =>
    intro s hs
    cases h : step s with
    | none => rw [run_of_none h]; exact hs
    | some t => rw [run_succ_of_some h]; exact ih t (hstep s t hs h)

theorem exec_invariant {step : σ → Option σ} {measure : σ → ℕ} (I : σ → Prop)
    (hstep : ∀ s t, I s → step s = some t → I t) {s : σ} (hs : I s) :
    I (exec step measure s) :=
  run_invariant I hstep _ s hs

/-- The loop ends: after some passes there is no further one. -/
def Ends (step : σ → Option σ) (s : σ) : Prop := ∃ n, step (run step n s) = none

/-- A loop that always makes another pass never ends. -/
theorem not_ends {step : σ → Option σ} (I : σ → Prop)
    (hstep : ∀ s, I s → ∃ t, step s = some t ∧ I t) {s : σ} (hs : I s) : ¬ Ends step s := by
  rintro ⟨n, hn⟩
  have hrun : I (run step n s) := by
    refine run_invariant I (fun s t hI h => ?_) n s hs
    obtain ⟨t', ht', hI'⟩ := hstep s hI
    rw [h] at ht'
    rwa [Option.some.inj ht']
  obtain ⟨t, ht, -⟩ := hstep _ hrun
  rw [hn] at ht
  cases ht

/-- Every pass from a state of the invariant `I` stays in `I` and lowers the measure. -/
def Decreases (I : σ → Prop) (step : σ → Option σ) (measure : σ → ℕ) : Prop :=
  ∀ s t, I s → step s = some t → I t ∧ measure t < measure s

section Decreases
variable {I : σ → Prop} {step : σ → Option σ} {measure : σ → ℕ}

/-- Enough fuel ends the loop: the state it leaves has no further pass. -/
theorem run_done (hd : Decreases I step measure) :
    ∀ (n : ℕ) (s : σ), I s → measure s ≤ n → step (run step n s) = none := by
  intro n
  induction n with
  | zero =>
    intro s hs hn
    cases h : step s with
    | none => exact h
    | some t => have := (hd s t hs h).2; omega
  | succ n ih =>
    intro s hs hn
    cases h : step s with
    | none => rw [run_of_none h]; exact h
    | some t =>
      rw [run_succ_of_some h]
      have hlt := (hd s t hs h).2
      exact ih t (hd s t hs h).1 (by omega)

/-- Fuel beyond the measure changes nothing. -/
theorem run_eq_exec (hd : Decreases I step measure) :
    ∀ (n : ℕ) (s : σ), I s → measure s ≤ n → run step n s = exec step measure s := by
  intro n
  induction n using Nat.strong_induction_on with
  | _ n ih =>
    intro s hs hn
    cases h : step s with
    | none => rw [run_of_none h, exec, run_of_none h]
    | some t =>
      obtain ⟨ht, hlt⟩ := hd s t hs h
      obtain ⟨m, rfl⟩ : ∃ m, n = m + 1 := ⟨n - 1, by omega⟩
      obtain ⟨k, hk⟩ : ∃ k, measure s = k + 1 := ⟨measure s - 1, by omega⟩
      rw [run_succ_of_some h, exec, hk, run_succ_of_some h, ih m (by omega) t ht (by omega)]
      exact (ih k (by omega) t ht (by omega)).symm

theorem ends_of_decreases (hd : Decreases I step measure) {s : σ} (hs : I s) : Ends step s :=
  ⟨measure s, run_done hd _ s hs le_rfl⟩

/-- **The loop ends** in a state from which the body makes no further pass. -/
theorem exec_done (hd : Decreases I step measure) {s : σ} (hs : I s) :
    step (exec step measure s) = none :=
  run_done hd _ s hs le_rfl

/-- Wherever the loop has ended is its end. -/
theorem exec_eq_run (hd : Decreases I step measure) {s : σ} (hs : I s) {n : ℕ}
    (h : step (run step n s) = none) : exec step measure s = run step n s := by
  rw [← run_eq_exec hd (max n (measure s)) s hs (le_max_right _ _)]
  exact run_of_le (le_max_left _ _) h

theorem exec_of_none {s : σ} (h : step s = none) : exec step measure s = s :=
  run_of_none h _

/-- A loop that makes a pass goes on as the loop started after that pass. -/
theorem exec_of_some (hd : Decreases I step measure) {s t : σ} (hs : I s)
    (h : step s = some t) : exec step measure s = exec step measure t := by
  obtain ⟨ht, hlt⟩ := hd s t hs h
  obtain ⟨k, hk⟩ : ∃ k, measure s = k + 1 := ⟨measure s - 1, by omega⟩
  rw [exec, hk, run_succ_of_some h]
  exact run_eq_exec hd k t ht (by omega)

/-- **Induction along the passes of a loop**, from its start to its end. -/
theorem exec_induction (hd : Decreases I step measure) (motive : σ → σ → Prop)
    (done : ∀ s, I s → step s = none → motive s s)
    (next : ∀ s t, I s → step s = some t → motive t (exec step measure t) →
      motive s (exec step measure t))
    {s : σ} (hs : I s) : motive s (exec step measure s) := by
  generalize hn : measure s = n
  induction n using Nat.strong_induction_on generalizing s with
  | _ n ih =>
    cases h : step s with
    | none => rw [exec_of_none h]; exact done s hs h
    | some t =>
      obtain ⟨ht, hlt⟩ := hd s t hs h
      rw [exec_of_some hd hs h]
      exact next s t hs h (ih (measure t) (by omega) ht rfl)

end Decreases

end MatchingEngine.Loop
