import Mathlib

/-!
# Fair schedules

Threads that take steps one at a time, in an order that nothing is known of but that every
thread comes again and again.  If each step either changes nothing or leaves less to do, and
as long as something is left some thread can lower it, then every fair schedule comes to the
end, and stays there.

That a thread which can lower what is left keeps this ability is not asked for: either no
thread moves until it comes, and then it finds the state as it was, or one moves before, and
then less is left already.

## Main definitions

* `Fair` — every thread comes again and again.
* `firstSteps` — the list of the first steps of an endless schedule.
* `Progresses` — what is asked of the steps.
* `Progresses.eventually` — every fair schedule comes to the end.
-/

namespace MatchingEngine.Fairness

variable {σ τ μ : Type*}

/-- In the endless schedule every thread comes again and again. -/
def Fair (schedule : ℕ → τ) : Prop := ∀ t n, ∃ m, n ≤ m ∧ schedule m = t

/-- The first `n` steps of an endless schedule. -/
def firstSteps (schedule : ℕ → τ) (n : ℕ) : List τ := (List.range n).map schedule

theorem foldl_firstSteps_succ (step : σ → τ → σ) (s : σ) (schedule : ℕ → τ) (n : ℕ) :
    (firstSteps schedule (n + 1)).foldl step s =
      step ((firstSteps schedule n).foldl step s) (schedule n) := by
  simp [firstSteps, List.range_succ]

/-- Every step keeps `I`, changes nothing or lowers `measure`, and does not leave `Done`; until
`Done` holds a thread can lower `measure`. -/
structure Progresses [Preorder μ] (I Done : σ → Prop) (step : σ → τ → σ) (measure : σ → μ) :
    Prop where
  invariant : ∀ s t, I s → I (step s t)
  eq_or_lt : ∀ s t, I s → step s t = s ∨ measure (step s t) < measure s
  done_step : ∀ s t, I s → Done s → Done (step s t)
  exists_step : ∀ s, I s → Done s ∨ ∃ t, measure (step s t) < measure s

namespace Progresses
variable [Preorder μ] {I Done : σ → Prop} {step : σ → τ → σ} {measure : σ → μ}
  (h : Progresses I Done step measure) {s : σ} (hs : I s) (schedule : ℕ → τ)
include h hs

theorem invariant_firstSteps (n : ℕ) : I ((firstSteps schedule n).foldl step s) := by
  induction n with
  | zero => exact hs
  | succ n ih =>
    rw [foldl_firstSteps_succ]
    exact h.invariant _ _ ih

/-- What is done stays done. -/
theorem done_of_le {n m : ℕ} (hle : n ≤ m) (hdone : Done ((firstSteps schedule n).foldl step s)) :
    Done ((firstSteps schedule m).foldl step s) := by
  induction m, hle using Nat.le_induction with
  | base => exact hdone
  | succ m hle ih =>
    rw [foldl_firstSteps_succ]
    exact h.done_step _ _ (h.invariant_firstSteps hs schedule m) ih

/-- Until less is left to do, nothing changes. -/
theorem eq_or_exists_lt {n m : ℕ} (hle : n ≤ m) :
    (firstSteps schedule m).foldl step s = (firstSteps schedule n).foldl step s ∨
      ∃ k, measure ((firstSteps schedule k).foldl step s) <
        measure ((firstSteps schedule n).foldl step s) := by
  induction m, hle using Nat.le_induction with
  | base => exact .inl rfl
  | succ m hle ih =>
    rcases ih with heq | hlt
    · rw [foldl_firstSteps_succ]
      rcases h.eq_or_lt _ (schedule m) (h.invariant_firstSteps hs schedule m) with hstay | hlt
      · exact .inl (hstay.trans heq)
      · refine .inr ⟨m + 1, ?_⟩
        rw [foldl_firstSteps_succ, ← heq]
        exact hlt
    · exact .inr hlt

/-- Under a fair schedule less is left to do at some time, unless all is done. -/
theorem done_or_exists_lt (hfair : Fair schedule) (n : ℕ) :
    Done ((firstSteps schedule n).foldl step s) ∨
      ∃ k, measure ((firstSteps schedule k).foldl step s) <
        measure ((firstSteps schedule n).foldl step s) := by
  rcases h.exists_step _ (h.invariant_firstSteps hs schedule n) with hdone | ⟨t, hlt⟩
  · exact .inl hdone
  · obtain ⟨m, hle, rfl⟩ := hfair t n
    rcases h.eq_or_exists_lt hs schedule hle with heq | hlower
    · refine .inr ⟨m + 1, ?_⟩
      rw [foldl_firstSteps_succ, heq]
      exact hlt
    · exact .inr hlower

/-- **Every fair schedule comes to the end**, and stays there. -/
theorem eventually [WellFoundedLT μ] (hfair : Fair schedule) :
    ∃ n, ∀ m, n ≤ m → Done ((firstSteps schedule m).foldl step s) := by
  have hcomes : ∀ n : ℕ, ∃ k, Done ((firstSteps schedule k).foldl step s) := by
    intro n
    induction hm : measure ((firstSteps schedule n).foldl step s) using
      WellFoundedLT.induction generalizing n with
    | _ x ih =>
      rcases h.done_or_exists_lt hs schedule hfair n with hdone | ⟨k, hlt⟩
      · exact ⟨n, hdone⟩
      · exact ih _ (hm ▸ hlt) k rfl
  obtain ⟨n, hdone⟩ := hcomes 0
  exact ⟨n, fun m hle => h.done_of_le hs schedule hle hdone⟩

end Progresses
end MatchingEngine.Fairness
