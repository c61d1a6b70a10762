import Mathlib
import MatchingEngine.Contract.Book

/-!
# The loops of the engine

Every loop of the engine ends, and an invariant of its body is an invariant of the loop.
`AllOrNothing` pops first and trades later; `allOrNothing_of_le` shows that when it can
be filled it leaves the book and the fields that `ImmediateDealNoLeft` leaves, and
`allOrNothing_of_lt` that otherwise it changes neither.

## Main definitions

* `SameBook` — the states that differ in the layout of the heaps only.
* `processTrade_invariant`, `processTrade_done` — the matching loop.
* `FillInvariant` — what the passes of the immediate loops preserve.
* `immediateDeal_invariant`, `bestFivePrice_invariant`, `allOrNothing_invariant`.
-/

namespace MatchingEngine.ContractEngine
variable {Q : Direction → Type} [OrderQueue Q] [LawfulOrderQueue Q]

/-! ## The matching loop -/

theorem tradeVolume_eq_or (a b : CompactOrderLog) :
    a.volume = tradeVolume a b ∨ b.volume = tradeVolume a b := by
  unfold tradeVolume
  omega

theorem Cross.card_lt {s t : ContractEngine Q} {a b : CompactOrderLog} (h : Cross s t a b) :
    Multiset.card (t.book .Sale) + Multiset.card (t.book .Buy) <
      Multiset.card (s.book .Sale) + Multiset.card (s.book .Buy) := by
  have hS := card_residue_le a (tradeVolume a b)
  have hB := card_residue_le b (tradeVolume a b)
  rw [book_eq_top_cons h.isEmpty_sale, book_eq_top_cons h.isEmpty_buy, h.book_sale, h.book_buy]
  simp only [Multiset.card_add, Multiset.card_cons]
  -- The smaller of the two orders is used up.
  rcases tradeVolume_eq_or a b with hv | hv
  · have : Multiset.card (residue a (tradeVolume a b)) = 0 := by rw [residue, if_pos hv]; rfl
    omega
  · have : Multiset.card (residue b (tradeVolume a b)) = 0 := by rw [residue, if_pos hv]; rfl
    omega

theorem processTradeStep_decreases :
    Loop.Decreases (fun _ => True) (processTradeStep (Q := Q) (A := .exact)) fun s =>
      OrderQueue.size (s.heap .Sale) + OrderQueue.size (s.heap .Buy) := by
  intro s t _ hstep
  refine ⟨trivial, ?_⟩
  simp only [size_eq_card_book]
  exact (processTradeStep_cross hstep).card_lt

/-- **The matching loop ends** when a side is empty or the tops do not cross. -/
theorem processTrade_done (s : ContractEngine Q) : processTradeStep s.processTrade = none :=
  Loop.exec_done processTradeStep_decreases trivial

/-- What every trade of the tops preserves, the matching loop preserves. -/
theorem processTrade_invariant (I : ContractEngine Q → Prop)
    (hcross : ∀ s t a b, I s → Cross s t a b → I t) {s : ContractEngine Q} (hs : I s) :
    I s.processTrade :=
  Loop.exec_invariant I (fun s t hI hstep => hcross s t _ _ hI (processTradeStep_cross hstep)) hs

@[simp] theorem plan_processTrade (s : ContractEngine Q) : s.processTrade.plan = s.plan :=
  processTrade_invariant (fun t => t.plan = s.plan) (fun _ _ _ _ hI h => h.traded.plan.trans hI) rfl

/-! ## The immediate loops -/

theorem Fill.fillMeasure_lt {s t : ContractEngine Q} {o a : CompactOrderLog} (h : Fill s o t a) :
    fillMeasure t (o.reduce (tradeVolumeWith o a)) < fillMeasure s o := by
  have hcard := card_residue_le a (tradeVolumeWith o a)
  have hpos := h.volume_pos
  unfold fillMeasure
  rw [CompactOrderLog.direction_reduce, size_eq_card_book, size_eq_card_book,
    book_eq_top_cons h.isEmpty_opposite, h.book_opposite, Multiset.card_add,
    Multiset.card_cons, if_pos hpos]
  -- Either the top is used up and leaves, or the incoming order is and the loop ends.
  by_cases hv : a.volume = tradeVolumeWith o a
  · have hgone : Multiset.card (residue a (tradeVolumeWith o a)) = 0 := by
      rw [residue, if_pos hv]
      rfl
    split <;> omega
  · have hend : ¬ 0 < (o.reduce (tradeVolumeWith o a)).volume := by
      rw [tradeVolumeWith_eq_min] at hv
      rw [CompactOrderLog.volume_reduce, tradeVolumeWith_eq_min]
      omega
    rw [if_neg hend]
    omega

omit [LawfulOrderQueue Q] in
theorem immediateDealStep_eq_some {s : ContractEngine Q} {o : CompactOrderLog}
    {p : ContractEngine Q × CompactOrderLog} :
    immediateDealStep (s, o) = some p ↔ s.CanFill o ∧ s.fillTop o = p := by
  simp [immediateDealStep]

theorem immediateDealStep_decreases :
    Loop.Decreases (fun _ => True) (immediateDealStep (Q := Q) (A := .exact)) fun p =>
      fillMeasure p.1 p.2 := by
  rintro ⟨s, o⟩ p - hstep
  obtain ⟨hcan, rfl⟩ := immediateDealStep_eq_some.mp hstep
  exact ⟨trivial, (fillTop_fill hcan).fillMeasure_lt⟩

omit [LawfulOrderQueue Q] in
theorem immediateDeal_of_not_canFill {s : ContractEngine Q} {o : CompactOrderLog}
    (h : ¬ s.CanFill o) : s.immediateDeal o = (s, o) :=
  Loop.exec_of_none (by simp [immediateDealStep, h])

theorem immediateDeal_of_canFill {s : ContractEngine Q} {o : CompactOrderLog}
    (h : s.CanFill o) : s.immediateDeal o = (s.fillTop o).1.immediateDeal (s.fillTop o).2 :=
  Loop.exec_of_some immediateDealStep_decreases trivial
    (immediateDealStep_eq_some.mpr ⟨h, rfl⟩)

/-- `ImmediateDealNoLeft` ends with a filled order or an empty opposite side. -/
theorem immediateDeal_done (s : ContractEngine Q) (o : CompactOrderLog) :
    ¬ (s.immediateDeal o).1.CanFill (s.immediateDeal o).2 := by
  have hdone : immediateDealStep (s.immediateDeal o) = none :=
    Loop.exec_done immediateDealStep_decreases trivial
  generalize s.immediateDeal o = p at hdone
  obtain ⟨t, o'⟩ := p
  simpa [immediateDealStep] using hdone

omit [LawfulOrderQueue Q] in
theorem bestFiveStep_eq_some {p q : FiveLevels Q} (h : bestFiveStep p = some q) :
    p.engine.CanFill p.order ∧ q.engine = (p.engine.fillTop p.order).1 ∧
      q.order = (p.engine.fillTop p.order).2 := by
  simp only [bestFiveStep, Option.ite_none_right_eq_some] at h
  obtain ⟨hcan, h⟩ := h
  refine ⟨hcan, ?_⟩
  split at h
  · simp only [Option.ite_none_left_eq_some, Option.some.injEq] at h
    rw [← h.2]
    exact ⟨rfl, rfl⟩
  · simp only [Option.some.injEq] at h
    rw [← h]
    exact ⟨rfl, rfl⟩

theorem bestFiveStep_decreases :
    Loop.Decreases (fun _ => True) (bestFiveStep (Q := Q) (A := .exact)) fun p =>
      fillMeasure p.engine p.order := by
  intro p q _ hstep
  obtain ⟨hcan, hengine, horder⟩ := bestFiveStep_eq_some hstep
  refine ⟨trivial, ?_⟩
  simp only [hengine, horder]
  exact (fillTop_fill hcan).fillMeasure_lt

/-! ## All or nothing -/

/-- `t` differs from `s` in the layout of the heaps only. -/
structure SameBook (s t : ContractEngine Q) : Prop where
  scalars : t = { s with heap := t.heap }
  book : ∀ d, t.book d = s.book d

theorem SameBook.setHeap (s : ContractEngine Q) {d : Direction} {q : Q d}
    (hq : LawfulOrderQueue.contents q = s.book d) : SameBook s (s.setHeap d q) where
  scalars := rfl
  book e := by
    by_cases he : e = d
    · subst he
      rw [book_setHeap_self, hq]
    · exact book_setHeap_of_ne _ _ he _

theorem contents_foldl_insert {d : Direction} (l : List CompactOrderLog) (q : Q d) :
    LawfulOrderQueue.contents (l.foldl OrderQueue.insert q) =
      ↑l + LawfulOrderQueue.contents q := by
  induction l generalizing q with
  | nil => simp
  | cons o l ih =>
    rw [List.foldl_cons, ih, LawfulOrderQueue.contents_insert, ← Multiset.cons_coe,
      Multiset.cons_add, Multiset.add_cons]

theorem collectStep_eq_some {d : Direction} {volume : ℤ} {q : Q d} {sum : ℤ}
    {pending : List CompactOrderLog} {p : Q d × ℤ × List CompactOrderLog} :
    collectStep volume (q, sum, pending) = some p ↔
      (sum < volume ∧ OrderQueue.isEmpty q = false) ∧
        ((OrderQueue.pop q).2, sum + (OrderQueue.top q).volume, pending ++ [OrderQueue.top q]) =
          p := by
  simp [collectStep, LawfulOrderQueue.fst_pop]

theorem collectStep_decreases {d : Direction} (volume : ℤ) :
    Loop.Decreases (fun _ => True) (collectStep (Q := Q) (d := d) volume) fun p =>
      OrderQueue.size p.1 := by
  rintro ⟨q, sum, pending⟩ p - hstep
  obtain ⟨⟨-, he⟩, rfl⟩ := collectStep_eq_some.mp hstep
  refine ⟨trivial, ?_⟩
  simp only [LawfulOrderQueue.size_eq, LawfulOrderQueue.contents_pop q he, Multiset.card_cons]
  omega

/-- The collecting loop, from any sum and any pending orders. -/
def collectFrom {d : Direction} (volume : ℤ) (p : Q d × ℤ × List CompactOrderLog) :
    Q d × ℤ × List CompactOrderLog :=
  Loop.exec (collectStep volume) (fun p => OrderQueue.size p.1) p

theorem collectFrom_of_some {d : Direction} {volume : ℤ} {q : Q d} {sum : ℤ}
    (hlt : sum < volume) (he : OrderQueue.isEmpty q = false) (pending : List CompactOrderLog) :
    collectFrom volume (q, sum, pending) = collectFrom volume ((OrderQueue.pop q).2,
      sum + (OrderQueue.top q).volume, pending ++ [OrderQueue.top q]) :=
  Loop.exec_of_some (collectStep_decreases volume) trivial
    (collectStep_eq_some.mpr ⟨⟨hlt, he⟩, rfl⟩)

omit [LawfulOrderQueue Q] in
theorem collectFrom_of_le {d : Direction} {volume : ℤ} {q : Q d} {sum : ℤ}
    (hle : volume ≤ sum) (pending : List CompactOrderLog) :
    collectFrom volume (q, sum, pending) = (q, sum, pending) :=
  Loop.exec_of_none (by simp [collectStep, hle.not_gt])

/-- What the collecting loop keeps: the orders held and pending, and the sum of the latter. -/
theorem collectFrom_spec {d : Direction} (volume : ℤ) (p : Q d × ℤ × List CompactOrderLog) :
    let r := collectFrom volume p
    ↑r.2.2 + LawfulOrderQueue.contents r.1 = ↑p.2.2 + LawfulOrderQueue.contents p.1 ∧
      r.2.1 - (r.2.2.map CompactOrderLog.volume).sum =
        p.2.1 - (p.2.2.map CompactOrderLog.volume).sum := by
  refine @Loop.exec_invariant _ (collectStep volume) (fun p => OrderQueue.size p.1)
    (fun r : Q d × ℤ × List CompactOrderLog =>
      ↑r.2.2 + LawfulOrderQueue.contents r.1 = ↑p.2.2 + LawfulOrderQueue.contents p.1 ∧
      r.2.1 - (r.2.2.map CompactOrderLog.volume).sum =
        p.2.1 - (p.2.2.map CompactOrderLog.volume).sum) ?_ p ⟨rfl, rfl⟩
  rintro ⟨q, sum, pending⟩ r ⟨hc, hsum⟩ hstep
  obtain ⟨⟨-, he⟩, rfl⟩ := collectStep_eq_some.mp hstep
  rw [LawfulOrderQueue.contents_pop q he] at hc
  refine ⟨?_, ?_⟩
  · rw [← hc, ← Multiset.coe_add, add_assoc, Multiset.coe_singleton, Multiset.singleton_add]
  · rw [← hsum]
    simp only [List.map_append, List.sum_append, List.map_cons, List.map_nil, List.sum_cons,
      List.sum_nil]
    ring

/-- The collecting loop covers the volume just if the orders of the heap do. -/
theorem le_collect_iff_sum {d : Direction} (volume : ℤ) {q : Q d}
    (hnonneg : ∀ o ∈ LawfulOrderQueue.contents q, 0 ≤ o.volume) :
    volume ≤ (collect volume q).2.1 ↔
      volume ≤ ((LawfulOrderQueue.contents q).map CompactOrderLog.volume).sum := by
  have hdone : collectStep volume (collect volume q) = none :=
    Loop.exec_done (collectStep_decreases volume) trivial
  have hspec := collectFrom_spec volume (q, 0, [])
  have hcontents : (↑(collect volume q).2.2 : Multiset CompactOrderLog) +
      LawfulOrderQueue.contents (collect volume q).1 = LawfulOrderQueue.contents q :=
    hspec.1.trans (zero_add _)
  have hsum : (collect volume q).2.1 =
      ((collect volume q).2.2.map CompactOrderLog.volume).sum :=
    sub_eq_zero.mp (hspec.2.trans (sub_self 0))
  generalize collect volume q = r at hdone hcontents hsum
  obtain ⟨q', sum, pending⟩ := r
  simp only at hcontents hsum ⊢
  rw [← hcontents, Multiset.map_add, Multiset.sum_add, Multiset.map_coe, Multiset.sum_coe]
  have hrest : 0 ≤ ((LawfulOrderQueue.contents q').map CompactOrderLog.volume).sum := by
    refine Multiset.sum_nonneg fun v hv => ?_
    obtain ⟨o, ho, rfl⟩ := Multiset.mem_map.mp hv
    exact hnonneg o (hcontents ▸ Multiset.mem_add.mpr (.inr ho))
  constructor
  · intro hle
    omega
  · intro hle
    by_contra hlt
    -- The loop stopped short of the volume, so the heap is empty.
    have hempty : LawfulOrderQueue.contents q' = 0 := by
      rw [← LawfulOrderQueue.isEmpty_iff, ← Bool.not_eq_false]
      intro hne
      simp [collectStep, not_le.mp hlt, hne] at hdone
    rw [hempty] at hle
    simp only [Multiset.map_zero, Multiset.sum_zero] at hle
    omega

/-- An order that cannot be filled leaves the book as it is. -/
theorem allOrNothing_of_lt {s : ContractEngine Q} {o : CompactOrderLog}
    (h : (collect o.volume (s.heap o.direction.opposite)).2.1 < o.volume) :
    SameBook s (s.allOrNothing o).1 ∧ (s.allOrNothing o).2 = o := by
  rw [allOrNothing, if_neg h.not_ge]
  refine ⟨SameBook.setHeap s ?_, rfl⟩
  rw [contents_foldl_insert]
  exact (collectFrom_spec o.volume (s.heap o.direction.opposite, 0, [])).1.trans (zero_add _)

/-- The pending orders already collected stay in front. -/
theorem collectFrom_append {d : Direction} (volume : ℤ) (q : Q d) (sum : ℤ)
    (pending : List CompactOrderLog) :
    collectFrom volume (q, sum, pending) = ((collectFrom volume (q, sum, [])).1,
      (collectFrom volume (q, sum, [])).2.1, pending ++ (collectFrom volume (q, sum, [])).2.2) := by
  generalize hn : OrderQueue.size q = n
  induction n using Nat.strong_induction_on generalizing q sum pending with
  | _ n ih =>
    by_cases hlt : sum < volume
    · cases he : OrderQueue.isEmpty q with
      | true =>
        have hnone : ∀ l, collectFrom volume (q, sum, l) = (q, sum, l) := fun l =>
          Loop.exec_of_none (by simp [collectStep, he])
        simp [hnone]
      | false =>
        have hsize : OrderQueue.size (OrderQueue.pop q).2 < n := by
          rw [← hn, LawfulOrderQueue.size_eq, LawfulOrderQueue.size_eq,
            LawfulOrderQueue.contents_pop q he, Multiset.card_cons]
          omega
        rw [collectFrom_of_some hlt he, collectFrom_of_some hlt he, List.nil_append,
          ih _ hsize _ _ (pending ++ [_]) rfl, ih _ hsize _ _ [_] rfl]
        simp
    · simp [collectFrom_of_le (not_lt.mp hlt)]

/-- An order that is popped is the first of the pending ones. -/
theorem collectFrom_cons {d : Direction} {volume : ℤ} {q : Q d} {sum : ℤ} (hlt : sum < volume)
    (he : OrderQueue.isEmpty q = false) :
    collectFrom volume (q, sum, []) =
      ((collectFrom volume ((OrderQueue.pop q).2, sum + (OrderQueue.top q).volume, [])).1,
        (collectFrom volume ((OrderQueue.pop q).2, sum + (OrderQueue.top q).volume, [])).2.1,
        OrderQueue.top q ::
          (collectFrom volume ((OrderQueue.pop q).2, sum + (OrderQueue.top q).volume, [])).2.2) := by
  rw [collectFrom_of_some hlt he, List.nil_append, collectFrom_append]
  rfl

section fillTop
variable {s : ContractEngine Q} {o a : CompactOrderLog}
  (ha : OrderQueue.top (s.heap o.direction.opposite) = a)
include ha

omit [LawfulOrderQueue Q] in
/-- A top that the incoming order uses up leaves the heap. -/
theorem fillTop_of_le (hle : a.volume ≤ o.volume) :
    s.fillTop o = ((s.tradeWith o a).setHeap o.direction.opposite
      (OrderQueue.pop (s.heap o.direction.opposite)).2, o.reduce a.volume) := by
  have hv : tradeVolumeWith o a = a.volume := by
    rw [tradeVolumeWith_eq_min, min_eq_right hle]
  simp only [fillTop, ha, hv, if_true]
  rfl

/-- A top that uses the incoming order up stays with its residue, and the loop ends. -/
theorem immediateDeal_of_lt (hcan : s.CanFill o) (hlt : o.volume < a.volume) :
    s.immediateDeal o = ((s.tradeWith o a).setHeap o.direction.opposite
      (OrderQueue.reduceTop (s.heap o.direction.opposite) o.volume), o.reduce o.volume) := by
  have hv : tradeVolumeWith o a = o.volume := by
    rw [tradeVolumeWith_eq_min, min_eq_left hlt.le]
  have hend : ¬ (s.fillTop o).1.CanFill (s.fillTop o).2 := fun h => by
    have hpos := h.1
    rw [fillTop_snd, CompactOrderLog.volume_reduce, ha, hv, sub_self] at hpos
    exact lt_irrefl 0 hpos
  rw [immediateDeal_of_canFill hcan, immediateDeal_of_not_canFill hend]
  simp only [fillTop, ha, hv, if_neg hlt.ne]
  rfl

omit ha [LawfulOrderQueue Q] in
/-- A top that the incoming order uses up is traded and left out. -/
theorem tradePending_cons_of_le (hle : a.volume ≤ o.volume) (q : Q o.direction.opposite)
    (pending : List CompactOrderLog) :
    tradePending (s.setHeap o.direction.opposite q) o (a :: pending) =
      tradePending ((s.tradeWith o a).setHeap o.direction.opposite q) (o.reduce a.volume)
        pending := by
  have hv : tradeVolumeWith o a = a.volume := by rw [tradeVolumeWith_eq_min, min_eq_right hle]
  simp only [tradePending, hv, CompactOrderLog.volume_reduce, sub_self, ne_eq, not_true_eq_false,
    if_false, tradeWith_setHeap]

/-- A top that uses the incoming order up is the last one, and keeps its residue in either
layout. -/
theorem tradePending_singleton_of_lt (hcan : s.CanFill o) (hlt : o.volume < a.volume) :
    SameBook (s.immediateDeal o).1 (tradePending (s.setHeap o.direction.opposite
        (OrderQueue.pop (s.heap o.direction.opposite)).2) o [a]).1 ∧
      (tradePending (s.setHeap o.direction.opposite
        (OrderQueue.pop (s.heap o.direction.opposite)).2) o [a]).2 = (s.immediateDeal o).2 := by
  have hv : tradeVolumeWith o a = o.volume := by rw [tradeVolumeWith_eq_min, min_eq_left hlt.le]
  have hne : a.volume - o.volume ≠ 0 := sub_ne_zero.mpr hlt.ne'
  have hbook : LawfulOrderQueue.contents (OrderQueue.insert
        (OrderQueue.pop (s.heap o.direction.opposite)).2 (a.reduce o.volume)) =
      ((s.tradeWith o a).setHeap o.direction.opposite
        (OrderQueue.reduceTop (s.heap o.direction.opposite) o.volume)).book
          o.direction.opposite := by
    rw [book_setHeap_self, LawfulOrderQueue.contents_reduceTop _ _ hcan.2,
      LawfulOrderQueue.contents_insert, ha]
  have hsame := SameBook.setHeap _ hbook
  rw [setHeap_setHeap] at hsame
  rw [immediateDeal_of_lt ha hcan hlt]
  simp only [tradePending, hv, CompactOrderLog.volume_reduce, tradeWith_setHeap, ne_eq, hne,
    not_false_eq_true, if_true, heap_setHeap_self, setHeap_setHeap, and_true]
  exact hsame

end fillTop

/-- Trading with the pending orders is `ImmediateDealNoLeft`, up to the layout of the heap.
The induction is on the orders still in the heap; `sum` has been collected before them. -/
theorem tradePending_sameBook (volume : ℤ) :
    ∀ (n : ℕ) (s : ContractEngine Q) (o : CompactOrderLog) (sum : ℤ),
      OrderQueue.size (s.heap o.direction.opposite) = n → o.volume = volume - sum →
      let r := collectFrom volume (s.heap o.direction.opposite, sum, [])
      volume ≤ r.2.1 →
      SameBook (s.immediateDeal o).1
          (tradePending (s.setHeap o.direction.opposite r.1) o r.2.2).1 ∧
        (tradePending (s.setHeap o.direction.opposite r.1) o r.2.2).2 = (s.immediateDeal o).2 := by
  intro n
  induction n using Nat.strong_induction_on with
  | _ n ih =>
    intro s o sum hn ho r hle
    by_cases hlt : sum < volume
    swap
    · have hr : r = (s.heap o.direction.opposite, sum, []) := collectFrom_of_le (not_lt.mp hlt) []
      rw [immediateDeal_of_not_canFill (fun hcan => by have := hcan.1; omega), hr]
      exact ⟨SameBook.setHeap s rfl, rfl⟩
    cases he : OrderQueue.isEmpty (s.heap o.direction.opposite) with
    | true =>
      have hr : r = (s.heap o.direction.opposite, sum, []) :=
        Loop.exec_of_none (by simp [collectStep, he])
      rw [hr] at hle
      exact absurd hle hlt.not_ge
    | false =>
      have hcan : s.CanFill o := ⟨by omega, he⟩
      have hr : r = _ := collectFrom_cons hlt he
      generalize ha : OrderQueue.top (s.heap o.direction.opposite) = a at hr
      by_cases hfull : a.volume ≤ o.volume
      · -- The top is used up, and the induction goes on below it.
        have hrest := LawfulOrderQueue.contents_pop _ he
        set q := (OrderQueue.pop (s.heap o.direction.opposite)).2
        set t := (s.tradeWith o a).setHeap o.direction.opposite q
        have hheap : t.heap (o.reduce a.volume).direction.opposite = q := heap_setHeap_self _ _ _
        have hsize : OrderQueue.size q < n := by
          rw [← hn, LawfulOrderQueue.size_eq, LawfulOrderQueue.size_eq, hrest, Multiset.card_cons]
          omega
        have hih := ih _ hsize t (o.reduce a.volume) (sum + a.volume)
          (congrArg OrderQueue.size hheap) (by rw [CompactOrderLog.volume_reduce]; omega)
        rw [hheap] at hih
        rw [hr] at hle ⊢
        rw [immediateDeal_of_canFill hcan, fillTop_of_le ha hfull, tradePending_cons_of_le hfull,
          ← setHeap_setHeap (s.tradeWith o a) o.direction.opposite q
            (collectFrom volume (q, sum + a.volume, [])).1]
        exact hih hle
      · -- The incoming order is used up, and nothing is collected after the top.
        have hlast : collectFrom volume ((OrderQueue.pop (s.heap o.direction.opposite)).2,
            sum + a.volume, []) = ((OrderQueue.pop (s.heap o.direction.opposite)).2,
              sum + a.volume, []) := collectFrom_of_le (by omega) []
        rw [hr, hlast]
        exact tradePending_singleton_of_lt ha hcan (not_le.mp hfull)

/-- **An order that can be filled leaves the book `ImmediateDealNoLeft` leaves.** -/
theorem allOrNothing_of_le {s : ContractEngine Q} {o : CompactOrderLog}
    (h : o.volume ≤ (collect o.volume (s.heap o.direction.opposite)).2.1) :
    SameBook (s.immediateDeal o).1 (s.allOrNothing o).1 ∧
      (s.allOrNothing o).2 = (s.immediateDeal o).2 := by
  rw [allOrNothing, if_pos h]
  exact tradePending_sameBook o.volume _ s o 0 rfl (sub_zero _).symm h

/-! ## Invariants of the immediate loops -/

/-- What the passes of the immediate loops preserve, whatever the layout of the heaps. -/
structure FillInvariant (J : ContractEngine Q → CompactOrderLog → Prop) : Prop where
  fill : ∀ s o t a, J s o → Fill s o t a → J t (o.reduce (tradeVolumeWith o a))
  same : ∀ s o t, J s o → SameBook s t → J t o

section FillInvariant
variable {J : ContractEngine Q → CompactOrderLog → Prop} {s : ContractEngine Q}
  {o : CompactOrderLog}

theorem immediateDeal_invariant
    (hfill : ∀ s o t a, J s o → Fill s o t a → J t (o.reduce (tradeVolumeWith o a)))
    (hs : J s o) : J (s.immediateDeal o).1 (s.immediateDeal o).2 := by
  refine Loop.exec_invariant (fun p : ContractEngine Q × CompactOrderLog => J p.1 p.2) ?_ hs
  rintro ⟨s, o⟩ p hp hstep
  obtain ⟨hcan, rfl⟩ := immediateDealStep_eq_some.mp hstep
  exact hfill s o _ _ hp (fillTop_fill hcan)

theorem bestFivePrice_invariant
    (hfill : ∀ s o t a, J s o → Fill s o t a → J t (o.reduce (tradeVolumeWith o a)))
    (hs : J s o) : J (s.bestFivePrice o).1 (s.bestFivePrice o).2 := by
  refine Loop.exec_invariant (fun p : FiveLevels Q => J p.engine p.order) ?_ hs
  intro p q hp hstep
  obtain ⟨hcan, hengine, horder⟩ := bestFiveStep_eq_some hstep
  rw [hengine, horder]
  exact hfill _ _ _ _ hp (fillTop_fill hcan)

theorem allOrNothing_invariant (hJ : FillInvariant J) (hs : J s o) :
    J (s.allOrNothing o).1 (s.allOrNothing o).2 := by
  by_cases h : o.volume ≤ (collect o.volume (s.heap o.direction.opposite)).2.1
  · rw [(allOrNothing_of_le h).2]
    exact hJ.same _ _ _ (immediateDeal_invariant hJ.fill hs) (allOrNothing_of_le h).1
  · rw [(allOrNothing_of_lt (not_le.mp h)).2]
    exact hJ.same _ _ _ hs (allOrNothing_of_lt (not_le.mp h)).1

end FillInvariant

end MatchingEngine.ContractEngine
