import Mathlib
import MatchingEngine.Lib.Loop

/-!
# Loops that refine unit steps

A loop may do in one pass what a deterministic relation does in many unit steps.  If every
pass maps to unit steps, and the loop only stops where the relation has none left, then
the loop ends where the relation ends; two such loops that start from one abstract state
end in one abstract state, however they cut the unit steps into passes.

`run_related` is the simpler case of two loops that pass in step.

## Main definitions

* `terminal_unique` — a deterministic relation has one end.
* `Refines I step unit abs` — the passes of `step` are runs of `unit`, through `abs`.
* `Refines.exec_eq` — two loops that refine one relation agree.
* `run_related`, `exec_related` — two loops that pass in step stay related.
-/

namespace MatchingEngine.Loop

open Relation

variable {σ σ' τ : Type*}

/-- **A deterministic relation has one end.** -/
theorem terminal_unique {r : τ → τ → Prop} (hr : Relator.RightUnique r) {x y z : τ}
    (hxy : ReflTransGen r x y) (hxz : ReflTransGen r x z) (hy : ∀ w, ¬ r y w)
    (hz : ∀ w, ¬ r z w) : y = z := by
  have hend : ∀ {u v}, (∀ w, ¬ r u w) → ReflTransGen r u v → v = u := by
    intro u v hu huv
    rcases huv.cases_head with h | ⟨w, huw, -⟩
    · exact h.symm
    · exact absurd huw (hu w)
  rcases ReflTransGen.total_of_right_unique hr hxy hxz with hyz | hzy
  · exact (hend hy hyz).symm
  · exact hend hz hzy

/-- Every pass of `step` is a run of `unit`, and where `step` stops so does `unit`. -/
structure Refines (I : σ → Prop) (step : σ → Option σ) (unit : τ → τ → Prop) (abs : σ → τ) :
    Prop where
  invariant : ∀ s t, I s → step s = some t → I t
  pass : ∀ s t, I s → step s = some t → ReflTransGen unit (abs s) (abs t)
  stop : ∀ s, I s → step s = none → ∀ y, ¬ unit (abs s) y

section Refines
variable {I : σ → Prop} {step : σ → Option σ} {unit : τ → τ → Prop} {abs : σ → τ}

/-- The loop is a run of `unit`. -/
theorem Refines.exec (h : Refines I step unit abs) (measure : σ → ℕ) {s : σ} (hs : I s) :
    I (exec step measure s) ∧ ReflTransGen unit (abs s) (abs (exec step measure s)) := by
  refine exec_invariant (fun t => I t ∧ ReflTransGen unit (abs s) (abs t)) ?_ ⟨hs, .refl⟩
  intro t u ht hstep
  exact ⟨h.invariant t u ht.1 hstep, ht.2.trans (h.pass t u ht.1 hstep)⟩

/-- **Two loops that refine one deterministic relation agree.** -/
theorem Refines.exec_eq {I' : σ' → Prop} {step' : σ' → Option σ'} {abs' : σ' → τ}
    (hunit : Relator.RightUnique unit) (h : Refines I step unit abs)
    (h' : Refines I' step' unit abs') {measure : σ → ℕ} {measure' : σ' → ℕ}
    (hd : Decreases (fun _ => True) step measure)
    (hd' : Decreases (fun _ => True) step' measure')
    {s : σ} {s' : σ'} (hs : I s) (hs' : I' s') (habs : abs s = abs' s') :
    abs (Loop.exec step measure s) = abs' (Loop.exec step' measure' s') := by
  obtain ⟨hend, hrun⟩ := h.exec measure hs
  obtain ⟨hend', hrun'⟩ := h'.exec measure' hs'
  refine terminal_unique hunit hrun (habs ▸ hrun') (h.stop _ hend ?_) (h'.stop _ hend' ?_)
  · exact exec_done hd trivial
  · exact exec_done hd' trivial

end Refines

/-- **Two loops that pass in step stay related**, with as many passes allowed to both. -/
theorem run_related {f : σ → Option σ} {g : σ' → Option σ'} {R : σ → σ' → Prop}
    (hstep : ∀ s s', R s s' → Option.Rel R (f s) (g s')) :
    ∀ (n : ℕ) (s : σ) (s' : σ'), R s s' → R (run f n s) (run g n s') := by
  intro n
  induction n with
  | zero => intro s s' h; exact h
  | succ n ih =>
    intro s s' h
    have hpass := hstep s s' h
    cases hf : f s with
    | none =>
      rw [hf] at hpass
      cases hg : g s' with
      | none => rw [run_of_none hf, run_of_none hg]; exact h
      | some t' => rw [hg] at hpass; cases hpass
    | some t =>
      rw [hf] at hpass
      cases hg : g s' with
      | none => rw [hg] at hpass; cases hpass
      | some t' =>
        rw [hg] at hpass
        cases hpass with
        | some ht => rw [run_succ_of_some hf, run_succ_of_some hg]; exact ih t t' ht

theorem exec_related {f : σ → Option σ} {g : σ' → Option σ'} {R : σ → σ' → Prop}
    (hstep : ∀ s s', R s s' → Option.Rel R (f s) (g s')) {m : σ → ℕ} {n : σ' → ℕ} {s : σ}
    {s' : σ'} (hmeasure : m s = n s') (h : R s s') : R (exec f m s) (exec g n s') := by
  rw [exec, exec, hmeasure]
  exact run_related hstep _ s s' h

end MatchingEngine.Loop
