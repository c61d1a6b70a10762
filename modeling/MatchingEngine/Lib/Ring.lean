import Mathlib

/-!
# A ring of slots between one producer and several consumers

The producer fills the slots of a ring one after the other and publishes each; every
consumer processes every slot in the same order.  Each slot has one bit for every consumer,
which publishing clears and processing sets.  The producer waits until all bits of its slot
are set, a consumer until its own bit is clear.

The steps are those of the bits, and single writes to a slot in between.  That a slot is
never written while a consumer still needs it, and that every consumer processes what was
published, in order, is `Inv`, an invariant of every step.

## Main definitions

* `State`, `Step` — the ring and its steps.
* `slot` — the slot of the `k`th hand-off.
* `Inv`, `Inv.step` — the invariant.
* `Inv.exclusive`, `Inv.stable`, `Inv.inOrder` — what it says of a hand-off.
-/

namespace MatchingEngine.Ring

/-- The state of a ring of `B` slots with contents `α` between a producer and consumers `W`. -/
@[ext]
structure State (W α : Type*) (B : ℕ) where
  content : Fin B → α
  /-- The bit of a consumer at a slot. -/
  done : Fin B → W → Prop
  /-- What has been published. -/
  published : List α
  /-- What a consumer has processed. -/
  processed : W → List α
  /-- The producer has found its slot free and writes it. -/
  filling : Prop
  /-- The consumer has found its slot published and processes it. -/
  reading : W → Prop

variable {W α : Type*} {B : ℕ} [NeZero B]

variable (B) in
/-- The slot of the `k`th hand-off. -/
def slot (k : ℕ) : Fin B := Fin.ofNat B k

theorem slot_eq_iff {j k : ℕ} : slot B j = slot B k ↔ j % B = k % B := by
  rw [slot, slot, Fin.ext_iff, Fin.val_ofNat, Fin.val_ofNat]

/-- Within one lap the slots differ. -/
theorem slot_ne {j k : ℕ} (hjk : j < k) (hlap : k < j + B) : slot B j ≠ slot B k := by
  rw [ne_eq, slot_eq_iff]
  intro h
  have hdvd : B ∣ k - j := (Nat.modEq_iff_dvd' hjk.le).mp h
  have := Nat.le_of_dvd (by omega) hdvd
  omega

theorem slot_add (k : ℕ) : slot B (k + B) = slot B k := by
  rw [slot_eq_iff, Nat.add_mod_right]

namespace State

/-- The number of hand-offs the producer has published. -/
def count (s : State W α B) : ℕ := s.published.length

/-- The number of hand-offs a consumer has processed. -/
def place (s : State W α B) (w : W) : ℕ := (s.processed w).length

def acquire (s : State W α B) : State W α B := { s with filling := True }

/-- Write `a` to the slot of the producer. -/
def fill (s : State W α B) (a : α) : State W α B :=
  { s with content := Function.update s.content (slot B s.count) a }

def publish (s : State W α B) : State W α B :=
  { s with
    published := s.published ++ [s.content (slot B s.count)]
    done := Function.update s.done (slot B s.count) fun _ => False
    filling := False }

/-- Nothing is published, all bits are set and no one has begun. -/
structure Initial (s : State W α B) : Prop where
  done : ∀ i w, s.done i w
  published : s.published = []
  processed : ∀ w, s.processed w = []
  filling : ¬ s.filling
  reading : ∀ w, ¬ s.reading w

section
variable [DecidableEq W]

def start (s : State W α B) (w : W) : State W α B :=
  { s with reading := Function.update s.reading w True }

def release (s : State W α B) (w : W) : State W α B :=
  { s with
    processed :=
      Function.update s.processed w (s.processed w ++ [s.content (slot B (s.place w))])
    done := Function.update s.done (slot B (s.place w))
      (Function.update (s.done (slot B (s.place w))) w True)
    reading := Function.update s.reading w False }

@[simp] theorem place_release_self (s : State W α B) (w : W) :
    (s.release w).place w = s.place w + 1 := by simp [release, place]

theorem processed_release_of_ne {s : State W α B} {v w : W} (hv : v ≠ w) :
    (s.release w).processed v = s.processed v := Function.update_of_ne hv ..

theorem place_release_of_ne {s : State W α B} {v w : W} (hv : v ≠ w) :
    (s.release w).place v = s.place v := congrArg List.length (processed_release_of_ne hv)

end

end State

variable [DecidableEq W] in
/-- A step of the producer or of a consumer. -/
inductive Step (s : State W α B) : State W α B → Prop
  | acquire (h : ¬ s.filling) (hdone : ∀ w, s.done (slot B s.count) w) : Step s s.acquire
  | fill (h : s.filling) (a : α) : Step s (s.fill a)
  | publish (h : s.filling) : Step s s.publish
  | start (w : W) (h : ¬ s.reading w) (hdone : ¬ s.done (slot B (s.place w)) w) :
    Step s (s.start w)
  | release (w : W) (h : s.reading w) : Step s (s.release w)

/-! ## The invariant -/

/-- Every consumer is at most one lap behind, its bit is clear just at the slots it still has
to process, and these hold what was published. -/
structure Inv (s : State W α B) : Prop where
  le : ∀ w, s.place w ≤ s.count
  lap : ∀ w, s.count ≤ s.place w + B
  done_iff : ∀ w i, s.done i w ↔ ∀ k < s.count, slot B k = i → k < s.place w
  free : s.filling → ∀ w, s.count < s.place w + B
  pending : ∀ w, s.reading w → s.place w < s.count
  content : ∀ w k, s.place w ≤ k → k < s.count → s.published[k]? = some (s.content (slot B k))
  processed : ∀ w, s.processed w = s.published.take (s.place w)

variable {s t : State W α B}

theorem State.Initial.inv (h : s.Initial) : Inv s := by
  have hcount : s.count = 0 := congrArg List.length h.published
  have hplace : ∀ w, s.place w = 0 := fun w => congrArg List.length (h.processed w)
  refine ⟨fun w => ?_, fun w => ?_, fun w i => ?_, fun hf => absurd hf h.filling,
    fun w hr => absurd hr (h.reading w), fun w k _ hk => ?_, fun w => ?_⟩
  · rw [hplace]
    exact Nat.zero_le _
  · rw [hcount]
    exact Nat.zero_le _
  · refine iff_of_true (h.done i w) fun k hk => ?_
    rw [hcount] at hk
    exact absurd hk (Nat.not_lt_zero k)
  · rw [hcount] at hk
    exact absurd hk (Nat.not_lt_zero k)
  · rw [h.processed, h.published, List.take_nil]

section Inv
variable (h : Inv s)
include h

/-! ## What the invariant says -/

/-- **The slot the producer writes is no consumer's**: none processes it, and none has still
to process what it was published with before. -/
theorem Inv.exclusive (hf : s.filling) (w : W) :
    (s.reading w → slot B (s.place w) ≠ slot B s.count) ∧
      ∀ k < s.count, slot B k = slot B s.count → k < s.place w := by
  have hfree := h.free hf w
  constructor
  · intro hr
    exact slot_ne (h.pending w hr) hfree
  · intro k hk hslot
    by_contra hge
    exact slot_ne hk (by omega) hslot

/-- **What a consumer processes is what was published.** -/
theorem Inv.stable {w : W} (hr : s.reading w) :
    s.published[s.place w]? = some (s.content (slot B (s.place w))) :=
  h.content w _ le_rfl (h.pending w hr)

/-- **A consumer processes what was published, in order**, and skips nothing. -/
theorem Inv.inOrder (w : W) : s.processed w <+: s.published := by
  rw [h.processed w]
  exact List.take_prefix _ _

/-! ## The steps keep it -/

theorem Inv.acquire (hdone : ∀ w, s.done (slot B s.count) w) : Inv s.acquire := by
  refine ⟨h.le, h.lap, h.done_iff, fun _ w => ?_, h.pending, h.content, h.processed⟩
  by_cases hB : s.count < B
  · exact Nat.lt_add_left _ hB
  · -- One lap before, the slot was published, and the consumer has processed it since.
    obtain ⟨k, hk⟩ := Nat.exists_eq_add_of_le' (not_lt.mp hB)
    have hpos := NeZero.pos B
    have hlt := (h.done_iff w _).mp (hdone w) k (by omega) (by rw [hk, slot_add])
    change s.count < s.place w + B
    omega

theorem Inv.fill (hf : s.filling) (a : α) : Inv (s.fill a) := by
  refine ⟨h.le, h.lap, h.done_iff, h.free, h.pending, fun w k hk hlt => ?_, h.processed⟩
  have hfree := h.free hf w
  have hk' : s.place w ≤ k := hk
  have hne : slot B k ≠ slot B s.count := slot_ne hlt (by omega)
  simp only [State.fill, Function.update_of_ne hne]
  exact h.content w k hk hlt

theorem Inv.publish (hf : s.filling) : Inv s.publish := by
  have hcount : s.publish.count = s.count + 1 := by simp [State.publish, State.count]
  refine ⟨fun w => ?_, fun w => ?_, fun w i => ?_, fun hf => absurd hf not_false, fun w hr => ?_,
    fun w k hk hlt => ?_, fun w => ?_⟩
  · rw [hcount]
    exact (h.le w).trans (Nat.le_succ _)
  · rw [hcount]
    exact h.free hf w
  · rw [hcount]
    by_cases hi : i = slot B s.count
    · subst hi
      simp only [State.publish, Function.update_self, false_iff, not_forall]
      exact ⟨s.count, Nat.lt_succ_self _, rfl, (h.le w).not_gt⟩
    · simp only [State.publish, Function.update_of_ne hi]
      rw [h.done_iff]
      constructor
      · intro hold k hk hslot
        rcases Nat.lt_succ_iff_lt_or_eq.mp hk with hk | rfl
        · exact hold k hk hslot
        · exact absurd hslot.symm hi
      · exact fun hnew k hk => hnew k (hk.trans (Nat.lt_succ_self _))
  · rw [hcount]
    exact (h.pending w hr).trans (Nat.lt_succ_self _)
  · rw [hcount] at hlt
    simp only [State.publish]
    rcases Nat.lt_succ_iff_lt_or_eq.mp hlt with hlt | rfl
    · rw [List.getElem?_append_left hlt]
      exact h.content w k hk hlt
    · exact List.getElem?_concat_length
  · simp only [State.publish]
    rw [h.processed w]
    exact (List.take_append_of_le_length (h.le w)).symm

variable [DecidableEq W]

theorem Inv.start {w : W} (hdone : ¬ s.done (slot B (s.place w)) w) : Inv (s.start w) := by
  refine ⟨h.le, h.lap, h.done_iff, h.free, fun v hr => ?_, h.content, h.processed⟩
  by_cases hv : v = w
  · subst hv
    rw [h.done_iff] at hdone
    simp only [not_forall] at hdone
    obtain ⟨k, hk, -, hle⟩ := hdone
    change s.place v < s.count
    omega
  · simp only [State.start, Function.update_of_ne hv] at hr
    exact h.pending v hr

/-- A release sets the bit of the slot it leaves, which holds nothing else to process. -/
theorem Inv.done_release_iff {w : W} (hr : s.reading w) (v : W) (i : Fin B) :
    (s.release w).done i v ↔ ∀ k < s.count, slot B k = i → k < (s.release w).place v := by
  by_cases hv : v = w
  · subst hv
    rw [State.place_release_self]
    by_cases hi : i = slot B (s.place v)
    · subst hi
      simp only [State.release, Function.update_self, true_iff]
      intro k hk hslot
      by_contra hge
      have hlap := h.lap v
      exact slot_ne (by omega) (by omega) hslot.symm
    · simp only [State.release, Function.update_of_ne hi]
      rw [h.done_iff]
      constructor
      · exact fun hold k hk hslot => (hold k hk hslot).trans (Nat.lt_succ_self _)
      · intro hnew k hk hslot
        rcases Nat.lt_succ_iff_lt_or_eq.mp (hnew k hk hslot) with hk' | rfl
        · exact hk'
        · exact absurd hslot.symm hi
  · rw [State.place_release_of_ne hv, ← h.done_iff]
    by_cases hi : i = slot B (s.place w)
    · subst hi
      simp only [State.release, Function.update_self, Function.update_of_ne hv]
    · simp only [State.release, Function.update_of_ne hi]

/-- What a release adds to the work of its consumer is what was published there. -/
theorem Inv.processed_release {w : W} (hr : s.reading w) (v : W) :
    (s.release w).processed v = s.published.take ((s.release w).place v) := by
  by_cases hv : v = w
  · subst hv
    have hcontent := h.content v _ le_rfl (h.pending v hr)
    rw [State.place_release_self]
    simp only [State.release, Function.update_self]
    rw [List.take_add_one, hcontent, ← h.processed]
    rfl
  · rw [State.place_release_of_ne hv, State.processed_release_of_ne hv]
    exact h.processed v

theorem Inv.release {w : W} (hr : s.reading w) : Inv (s.release w) := by
  have hlt := h.pending w hr
  have hbounds : ∀ v, s.place v ≤ (s.release w).place v ∧ (s.release w).place v ≤ s.count := by
    intro v
    by_cases hv : v = w
    · subst hv
      rw [State.place_release_self]
      omega
    · rw [State.place_release_of_ne hv]
      exact ⟨le_rfl, h.le v⟩
  refine ⟨fun v => (hbounds v).2, fun v => ?_, h.done_release_iff hr, fun hf v => ?_, fun v hv => ?_,
    fun v k hk => h.content v k ((hbounds v).1.trans hk), h.processed_release hr⟩
  · have := h.lap v
    have := (hbounds v).1
    change s.count ≤ _
    omega
  · have := h.free hf v
    have := (hbounds v).1
    change s.count < _
    omega
  · by_cases hvw : v = w
    · subst hvw
      simp only [State.release, Function.update_self] at hv
    · rw [State.place_release_of_ne hvw]
      simp only [State.release, Function.update_of_ne hvw] at hv
      exact h.pending v hv

/-- **The invariant is kept by every step.** -/
theorem Inv.step (hst : Step s t) : Inv t := by
  cases hst with
  | acquire _ hdone => exact h.acquire hdone
  | fill hf a => exact h.fill hf a
  | publish hf => exact h.publish hf
  | start w _ hdone => exact h.start hdone
  | release w hr => exact h.release hr

end Inv

end MatchingEngine.Ring
