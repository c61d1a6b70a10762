import Mathlib
import MatchingEngine.Lib.Loop

/-!
# Streams that arrive in pieces

The receiver of a stream does not see how the sender cut it: each `recv` answers what has
arrived, at most as much as it asks for and at least one byte as long as any is to come.
`Segmentation` says how much has arrived when the receiver has got so far; it answers for
every way of cutting, as no place of the stream is asked for twice.  A loop that goes on until it has
all it wants does not depend on it, a single `recv` does.

## Main definitions

* `Segmentation`, `Incoming`, `recv` — a stream and one `recv`.
* `recvAll` — the loop that receives a given amount.
* `recvAll_eq` — it does not depend on the segmentation.
-/

namespace MatchingEngine.ByteStream

universe u
variable {α : Type u}

/-- How much has arrived and is not yet received when `n` elements have been received. -/
structure Segmentation where
  arrived : ℕ → ℕ
  pos : ∀ n, 0 < arrived n

/-- What of a stream is still to be received, and how much has been. -/
structure Incoming (α : Type u) where
  rest : List α
  received : ℕ

/-- The amount that one call answers. -/
def amount (seg : Segmentation) (size : ℕ) (s : Incoming α) : ℕ :=
  min (seg.arrived s.received) (min size s.rest.length)

/-- One call that asks for `size` elements; at the end of the stream it answers none. -/
def recv (seg : Segmentation) (size : ℕ) (s : Incoming α) : List α × Incoming α :=
  (s.rest.take (amount seg size s), ⟨s.rest.drop (amount seg size s),
    s.received + amount seg size s⟩)

/-- One pass of a loop that receives `size` elements, at most `limit` with every call. -/
def recvAllStep (seg : Segmentation) (limit size : ℤ) :
    Incoming α × List α → Option (Incoming α × List α)
  | (s, got) =>
    if (got.length : ℤ) < size then
      let p := recv seg (min limit (size - got.length)).toNat s
      if p.1.length = 0 then none else some (p.2, got ++ p.1)
    else none

/-- Receive `size` elements, or all there are. -/
def recvAll (seg : Segmentation) (limit size : ℤ) (s : Incoming α) : Incoming α × List α :=
  Loop.exec (recvAllStep seg limit size) (fun p => p.1.rest.length) (s, [])

section
variable (seg : Segmentation) (limit size : ℤ) (s : Incoming α)

/-- One call on a stream that starts with what it asks for. -/
theorem recv_append (a rest : List α) (n : ℕ) :
    recv seg a.length ⟨a ++ rest, n⟩ =
      (a.take (seg.arrived n), ⟨a.drop (seg.arrived n) ++ rest,
        n + min (seg.arrived n) a.length⟩) := by
  have hamount : amount seg a.length ⟨a ++ rest, n⟩ = min (seg.arrived n) a.length := by
    simp only [amount, List.length_append]
    omega
  rw [recv, hamount]
  simp only
  rw [List.take_append_of_le_length (min_le_right _ _),
    List.drop_append_of_le_length (min_le_right _ _), ← List.take_eq_take_min,
    ← List.drop_eq_drop_min]

theorem length_recv (n : ℕ) : (recv seg n s).1.length = amount seg n s := by
  rw [recv, List.length_take, amount]
  omega

/-- A call answers something unless the stream has ended. -/
theorem amount_pos {n : ℕ} (hn : 0 < n) (hs : s.rest ≠ []) : 0 < amount seg n s := by
  have hlen := List.length_pos_of_ne_nil hs
  have hpos := seg.pos s.received
  rw [amount]
  omega

theorem recvAllStep_eq_some {seg : Segmentation} {limit size : ℤ} {s : Incoming α}
    {got : List α} {p : Incoming α × List α}
    (h : recvAllStep seg limit size (s, got) = some p) :
    (got.length : ℤ) < size ∧
      0 < amount seg (min limit (size - got.length)).toNat s ∧
      p = ((recv seg (min limit (size - got.length)).toNat s).2,
        got ++ (recv seg (min limit (size - got.length)).toNat s).1) := by
  simp only [recvAllStep, Option.ite_none_right_eq_some, Option.ite_none_left_eq_some,
    Option.some.injEq, length_recv] at h
  exact ⟨h.1, by omega, h.2.2.symm⟩

theorem recvAllStep_decreases :
    Loop.Decreases (fun _ => True) (recvAllStep (α := α) seg limit size) fun p =>
      p.1.rest.length := by
  rintro ⟨s, got⟩ p - h
  obtain ⟨-, hpos, rfl⟩ := recvAllStep_eq_some h
  have hle : amount seg (min limit (size - got.length)).toNat s ≤ s.rest.length := by
    rw [amount]
    omega
  refine ⟨trivial, ?_⟩
  simp only [recv, List.length_drop]
  omega

/-- What the loop has and what is left are the stream, and it never has too much. -/
theorem recvAll_inv :
    let p := recvAll seg limit size s
    p.2 ++ p.1.rest = s.rest ∧ p.1.received = s.received + p.2.length ∧
      p.2.length ≤ size.toNat := by
  refine Loop.exec_invariant (fun p : Incoming α × List α => p.2 ++ p.1.rest = s.rest ∧
    p.1.received = s.received + p.2.length ∧ p.2.length ≤ size.toNat) ?_
    ⟨rfl, rfl, Nat.zero_le _⟩
  rintro ⟨t, got⟩ p ⟨hrest, hreceived, hle⟩ h
  obtain ⟨hlt, -, rfl⟩ := recvAllStep_eq_some h
  refine ⟨?_, ?_, ?_⟩
  · simp only [recv, List.append_assoc, List.take_append_drop]
    exact hrest
  · simp only [List.length_append, length_recv]
    simp only at hreceived
    rw [recv, hreceived, add_assoc]
  · simp only [List.length_append, length_recv, amount]
    omega

/-- The loop stops only because it has all, or because nothing is left. -/
theorem of_recvAllStep_eq_none (hlimit : 0 < limit) {got : List α}
    (hle : got.length ≤ size.toNat) (h : recvAllStep seg limit size (s, got) = none) :
    got.length = size.toNat ∨ s.rest = [] := by
  by_contra hnot
  obtain ⟨hne, hne'⟩ := not_or.mp hnot
  have hpos := amount_pos seg s (n := (min limit (size - got.length)).toNat) (by omega) hne'
  simp only [recvAllStep, length_recv, if_neg hpos.ne'] at h
  rw [if_pos (by omega)] at h
  cases h

/-- **A loop that receives all it wants does not depend on the segmentation.** -/
theorem recvAll_eq (hlimit : 0 < limit) :
    recvAll seg limit size s =
      (⟨s.rest.drop size.toNat, s.received + min size.toNat s.rest.length⟩,
        s.rest.take size.toNat) := by
  obtain ⟨hrest, hreceived, hle⟩ := recvAll_inv seg limit size s
  have hdone : recvAllStep seg limit size (recvAll seg limit size s) = none :=
    Loop.exec_done (recvAllStep_decreases seg limit size) trivial
  generalize recvAll seg limit size s = p at hrest hreceived hle hdone
  obtain ⟨⟨rest, received⟩, got⟩ := p
  simp only at hrest hreceived hle
  subst hreceived
  have hlen := congrArg List.length hrest
  rw [List.length_append] at hlen
  rcases of_recvAllStep_eq_none seg limit size _ hlimit hle hdone with hend | rfl
  · have hmin : min size.toNat s.rest.length = got.length := by omega
    rw [hmin, ← hrest, ← hend, List.drop_left, List.take_left]
  · rw [List.append_nil] at hrest
    subst hrest
    rw [List.drop_of_length_le hle, List.take_of_length_le hle, min_eq_right hle]

end

end MatchingEngine.ByteStream
