import Mathlib

/-!
# Priority queues

A priority queue holds a multiset of values.  `pop` takes out a value that no value held
compares before; which of several such values it takes is left open.  `modify` rewrites such a
value in place.

`Runs` relates the contents before a list of operations to what the operations give back and
to the contents after them.  An implementation whose steps are steps of the queue runs as the
queue does.

## Main definitions

* `Op`, `Step`, `Runs` — the operations, one of them, and a list of them.
* `Allowed n ops` — no operation takes from an empty queue.
* `runs_of_steps` — the simulation rule.
* `Runs.perm_of_pops`, `Runs.pairwise_of_pops` — popping sorts.
-/

namespace MatchingEngine.PriorityQueue

variable {α : Type*} {lt : α → α → Prop}

inductive Op (α : Type*)
  | insert (a : α)
  | pop
  | modify (f : α → α)

/-- No value of `m` compares before `a`. -/
def IsLeast (lt : α → α → Prop) (a : α) (m : Multiset α) : Prop := ∀ b ∈ m, ¬ lt b a

/-- An operation on a queue that holds `m`: what it gives back and what is held after it. -/
inductive Step (lt : α → α → Prop) : Multiset α → Op α → Option α → Multiset α → Prop
  | insert (m : Multiset α) (a : α) : Step lt m (.insert a) none (a ::ₘ m)
  | pop {m : Multiset α} {a : α} (h : IsLeast lt a (a ::ₘ m)) : Step lt (a ::ₘ m) .pop (some a) m
  | modify {m : Multiset α} {a : α} (f : α → α) (h : IsLeast lt a (a ::ₘ m)) :
    Step lt (a ::ₘ m) (.modify f) none (f a ::ₘ m)
  | modify_zero (f : α → α) : Step lt 0 (.modify f) none 0

/-- A list of operations: what they give back, one after the other, and what is held after. -/
inductive Runs (lt : α → α → Prop) : Multiset α → List (Op α) → List α → Multiset α → Prop
  | nil (m : Multiset α) : Runs lt m [] [] m
  | cons {m m' m'' : Multiset α} {op : Op α} {ops : List (Op α)} {out : Option α} {outs : List α}
    (h : Step lt m op out m') (hrest : Runs lt m' ops outs m'') :
    Runs lt m (op :: ops) (out.toList ++ outs) m''

/-- From a queue of `n` values, no operation pops an empty one. -/
def Allowed : ℕ → List (Op α) → Prop
  | _, [] => True
  | n, .insert _ :: ops => Allowed (n + 1) ops
  | n, .pop :: ops => 0 < n ∧ Allowed (n - 1) ops
  | n, .modify _ :: ops => Allowed n ops

/-- An operation that takes from a queue finds a value in it. -/
def Op.Fits (m : Multiset α) : Op α → Prop
  | .pop => m ≠ 0
  | _ => True

theorem Allowed.fits {m : Multiset α} {op : Op α} {ops : List (Op α)}
    (h : Allowed (Multiset.card m) (op :: ops)) : op.Fits m := by
  cases op with
  | insert a => trivial
  | pop => exact Multiset.card_pos.mp h.1
  | modify f => trivial

/-- What follows an allowed operation is allowed. -/
theorem Allowed.tail {m m' : Multiset α} {op : Op α} {ops : List (Op α)} {out : Option α}
    (h : Allowed (Multiset.card m) (op :: ops)) (hstep : Step lt m op out m') :
    Allowed (Multiset.card m') ops := by
  cases hstep with
  | insert a =>
    rw [Multiset.card_cons]
    exact h
  | pop hleast =>
    rw [Multiset.card_cons] at h
    exact h.2
  | modify f hleast =>
    rw [Multiset.card_cons] at h ⊢
    exact h
  | modify_zero f => exact h

/-! ## Simulation -/

section simulation
variable {σ β : Type*} (apply : σ → β → Option α × σ)

/-- The calls of an implementation, one after the other. -/
def runOps : σ → List β → List α × σ
  | s, [] => ([], s)
  | s, call :: calls =>
    let p := apply s call
    let q := runOps p.2 calls
    (p.1.toList ++ q.1, q.2)

/-- **The simulation rule.**  An implementation whose steps from a state of the invariant are
steps of the queue, and keep the invariant, runs as the queue does. -/
theorem runs_of_steps {op : β → Op α} {contents : σ → Multiset α} {I : σ → Prop} {calls : List β}
    (hstep : ∀ s call, call ∈ calls → I s → (op call).Fits (contents s) →
      Step lt (contents s) (op call) (apply s call).1 (contents (apply s call).2) ∧
        I (apply s call).2)
    {s : σ} (hs : I s) (hops : Allowed (Multiset.card (contents s)) (calls.map op)) :
    Runs lt (contents s) (calls.map op) (runOps apply s calls).1
        (contents (runOps apply s calls).2) ∧ I (runOps apply s calls).2 := by
  induction calls generalizing s with
  | nil => exact ⟨.nil _, hs⟩
  | cons call calls ih =>
    obtain ⟨hfirst, hnext⟩ := hstep s call List.mem_cons_self hs hops.fits
    obtain ⟨hrest, hend⟩ := ih (fun s call hcall => hstep s call (List.mem_cons_of_mem _ hcall))
      hnext (hops.tail hfirst)
    exact ⟨.cons hfirst hrest, hend⟩

end simulation

/-! ## Popping sorts -/

/-- Pops give back what they take. -/
theorem Runs.perm_of_pops {n : ℕ} {m m' : Multiset α} {outs : List α}
    (h : Runs lt m (List.replicate n .pop) outs m') : (outs : Multiset α) + m' = m := by
  induction n generalizing m outs with
  | zero =>
    cases h
    exact zero_add _
  | succ n ih =>
    rw [List.replicate_succ] at h
    cases h with
    | cons hstep hrest =>
      cases hstep with
      | pop hleast =>
        rw [Option.toList_some, List.singleton_append, ← Multiset.cons_coe, Multiset.cons_add,
          ih hrest]

theorem allowed_pops (n : ℕ) : Allowed n (List.replicate n (.pop : Op α)) := by
  induction n with
  | zero => trivial
  | succ n ih =>
    rw [List.replicate_succ]
    exact ⟨Nat.succ_pos n, ih⟩

theorem Runs.length_of_pops {n : ℕ} {m m' : Multiset α} {outs : List α}
    (h : Runs lt m (List.replicate n .pop) outs m') : outs.length = n := by
  induction n generalizing m outs with
  | zero =>
    cases h
    rfl
  | succ n ih =>
    rw [List.replicate_succ] at h
    cases h with
    | cons hstep hrest =>
      cases hstep with
      | pop hleast =>
        rw [Option.toList_some, List.singleton_append, List.length_cons, ih hrest]

/-- **Popping sorts**: no value comes out that compares before an earlier one. -/
theorem Runs.pairwise_of_pops {n : ℕ} {m m' : Multiset α} {outs : List α}
    (h : Runs lt m (List.replicate n .pop) outs m') : outs.Pairwise fun a b => ¬ lt b a := by
  induction n generalizing m outs with
  | zero =>
    cases h
    exact List.Pairwise.nil
  | succ n ih =>
    rw [List.replicate_succ] at h
    cases h with
    | cons hstep hrest =>
      cases hstep with
      | pop hleast =>
        rw [Option.toList_some, List.singleton_append, List.pairwise_cons]
        refine ⟨fun b hb => hleast b (Multiset.mem_cons_of_mem ?_), ih hrest⟩
        rw [← hrest.perm_of_pops]
        exact Multiset.mem_add.mpr (.inl hb)

/-- Popping as many values as are held empties the queue. -/
theorem Runs.eq_zero_of_pops {m m' : Multiset α} {outs : List α} {n : ℕ} (hn : Multiset.card m = n)
    (h : Runs lt m (List.replicate n .pop) outs m') : m' = 0 := by
  have hcard := congrArg Multiset.card h.perm_of_pops
  rw [Multiset.card_add, Multiset.coe_card, h.length_of_pops, hn] at hcard
  exact Multiset.card_eq_zero.mp (by omega)

end MatchingEngine.PriorityQueue
