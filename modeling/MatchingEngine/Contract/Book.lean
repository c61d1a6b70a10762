import Mathlib
import MatchingEngine.ContractEngine

/-!
# What one step does to the book

The book of an engine is the multiset of orders of each heap.  This module says once what
every step does to it: an insertion adds one order, a pass of `processTrade` trades the
two tops (`Cross`), a pass of an immediate loop trades the incoming order with the top of
the other side (`Fill`).  Everything a step does outside the heaps is what `tradeOrder`
does, and the `plan`, the fields no trade touches, is kept.

## Main definitions

* `book s d` — the orders resting on side `d`.
* `plan s` — the fields that trading does not touch.
* `Cross`, `Fill` — the two kinds of trade.
-/

namespace MatchingEngine.ContractEngine
variable {Q : Direction → Type}

/-! ## The plan and the history -/

/-- The fields that no trade touches. -/
structure Plan where
  upLimit : ℚ
  downLimit : ℚ
  targetVolume : ℤ
  sessionNum : ℤ
  sessionLength : ℤ
  instrument : UInt64
  prevTradeInfo : CompactPrevTradeInfo
  twapOrders : List CompactOrderLog
  twapHead : ℕ

def plan (s : ContractEngine Q) : Plan where
  upLimit := s.upLimit
  downLimit := s.downLimit
  targetVolume := s.targetVolume
  sessionNum := s.sessionNum
  sessionLength := s.sessionLength
  instrument := s.instrument
  prevTradeInfo := s.prevTradeInfo
  twapOrders := s.twapOrders
  twapHead := s.twapHead

section plan
variable (s : ContractEngine Q)

@[simp] theorem plan_setHeap (d : Direction) (q : Q d) : (s.setHeap d q).plan = s.plan := rfl
@[simp] theorem plan_log (e : Event) : (s.log e).plan = s.plan := rfl
@[simp] theorem plan_tradeOrder (a b : CompactOrderLog) : (s.tradeOrder a b).plan = s.plan := rfl
@[simp] theorem plan_tradeWith (o a : CompactOrderLog) : (s.tradeWith o a).plan = s.plan := rfl

@[simp] theorem history_log (e : Event) : (s.log e).history = s.history ++ [e] := rfl

@[simp] theorem heap_setHeap_self (d : Direction) (q : Q d) : (s.setHeap d q).heap d = q :=
  Function.update_self ..

@[simp] theorem heap_setHeap_of_ne (d : Direction) {e : Direction} (h : e ≠ d) (q : Q d) :
    (s.setHeap d q).heap e = s.heap e := Function.update_of_ne h ..

@[simp] theorem setHeap_setHeap (d : Direction) (q r : Q d) :
    (s.setHeap d q).setHeap d r = s.setHeap d r := by simp [setHeap]

/-- Trades do not look at the heaps. -/
theorem tradeWith_setHeap (d : Direction) (q : Q d) (o a : CompactOrderLog) :
    (s.setHeap d q).tradeWith o a = (s.tradeWith o a).setHeap d q := rfl

variable [OrderQueue Q]

@[simp] theorem plan_insertOrder (d : Direction) (o : CompactOrderLog) :
    (s.insertOrder d o).plan = s.plan := rfl
@[simp] theorem plan_decreaseTop (d : Direction) (v : ℤ) : (s.decreaseTop d v).plan = s.plan := rfl
@[simp] theorem plan_fillTop (o : CompactOrderLog) : (s.fillTop o).1.plan = s.plan := rfl

@[simp] theorem fillTop_snd (o : CompactOrderLog) : (s.fillTop o).2 =
    o.reduce (tradeVolumeWith o (OrderQueue.top (s.heap o.direction.opposite))) := rfl

@[simp] theorem history_insertOrder (d : Direction) (o : CompactOrderLog) :
    (s.insertOrder d o).history = s.history ++ [.insert d (s.named o)] := rfl

end plan

/-! ## What a trade leaves outside the heaps -/

/-- Outside the heaps, `t` is `s` after `tradeOrder` of `a` and `b`. -/
def Traded (s t : ContractEngine Q) (a b : CompactOrderLog) : Prop :=
  t = { s.tradeOrder a b with heap := t.heap }

section Traded
variable {s t : ContractEngine Q} {a b : CompactOrderLog} (h : Traded s t a b)
include h

theorem Traded.plan : t.plan = s.plan := (congrArg ContractEngine.plan h).trans rfl
theorem Traded.lastPrice : t.lastPrice = tradePrice a b := congrArg ContractEngine.lastPrice h
theorem Traded.income : t.income = (s.account a b).1 := congrArg ContractEngine.income h
theorem Traded.volume : t.volume = (s.account a b).2 := congrArg ContractEngine.volume h
theorem Traded.twapOrders : t.twapOrders = s.twapOrders :=
  congrArg Plan.twapOrders (Traded.plan h)
theorem Traded.twapHead : t.twapHead = s.twapHead := congrArg Plan.twapHead (Traded.plan h)
theorem Traded.targetVolume : t.targetVolume = s.targetVolume :=
  congrArg Plan.targetVolume (Traded.plan h)
theorem Traded.history : t.history = s.history ++
    [.trade a b (tradePrice a b) (tradeVolume a b) s.volume] := congrArg ContractEngine.history h

end Traded

/-! ## The book -/

variable [OrderQueue Q] [LawfulOrderQueue Q]

/-- The orders resting on side `d`. -/
def book (s : ContractEngine Q) (d : Direction) : Multiset CompactOrderLog :=
  LawfulOrderQueue.contents (s.heap d)

/-- What is left of an order that trades `v`: nothing once its volume is used up. -/
def residue (o : CompactOrderLog) (v : ℤ) : Multiset CompactOrderLog :=
  if o.volume = v then 0 else {o.reduce v}

theorem mem_residue {o a : CompactOrderLog} {v : ℤ} :
    a ∈ residue o v ↔ o.volume ≠ v ∧ a = o.reduce v := by
  unfold residue
  split <;> simp [*]

theorem card_residue_le (o : CompactOrderLog) (v : ℤ) : Multiset.card (residue o v) ≤ 1 := by
  unfold residue
  split <;> simp

section setHeap
variable (s : ContractEngine Q) (d : Direction)

@[simp] theorem book_setHeap_self (q : Q d) :
    (s.setHeap d q).book d = LawfulOrderQueue.contents q := by rw [book, heap_setHeap_self]

@[simp] theorem book_setHeap_of_ne {e : Direction} (h : e ≠ d) (q : Q d) :
    (s.setHeap d q).book e = s.book e := by rw [book, heap_setHeap_of_ne _ _ h, book]

@[simp] theorem book_log (e : Event) : (s.log e).book d = s.book d := rfl

@[simp] theorem book_tradeOrder (a b : CompactOrderLog) : (s.tradeOrder a b).book d = s.book d :=
  rfl

@[simp] theorem book_tradeWith (o a : CompactOrderLog) : (s.tradeWith o a).book d = s.book d := rfl

/-- An arriving order is added to its side. -/
@[simp] theorem book_insertOrder_self (o : CompactOrderLog) :
    (s.insertOrder d o).book d = s.named o ::ₘ s.book d := by
  rw [insertOrder, book_log, book_setHeap_self, LawfulOrderQueue.contents_insert, book]

@[simp] theorem book_insertOrder_of_ne {e : Direction} (h : e ≠ d) (o : CompactOrderLog) :
    (s.insertOrder d o).book e = s.book e := by
  rw [insertOrder, book_log, book_setHeap_of_ne _ _ h]

theorem isEmpty_eq_false_iff :
    OrderQueue.isEmpty (s.heap d) = false ↔ s.book d ≠ 0 := by
  rw [← Bool.not_eq_true, LawfulOrderQueue.isEmpty_iff, book]

theorem size_eq_card_book : OrderQueue.size (s.heap d) = Multiset.card (s.book d) :=
  LawfulOrderQueue.size_eq _

end setHeap

/-- The orders below the top of side `d`. -/
def rest (s : ContractEngine Q) (d : Direction) : Multiset CompactOrderLog :=
  LawfulOrderQueue.contents (OrderQueue.pop (s.heap d)).2

section top
variable {s : ContractEngine Q} {d : Direction} (h : OrderQueue.isEmpty (s.heap d) = false)
include h

theorem book_eq_top_cons : s.book d = OrderQueue.top (s.heap d) ::ₘ s.rest d :=
  LawfulOrderQueue.contents_pop _ h

theorem mem_book_top : OrderQueue.top (s.heap d) ∈ s.book d := by
  rw [book_eq_top_cons h]
  exact Multiset.mem_cons_self _ _

theorem isEmpty_reduceTop (v : ℤ) :
    OrderQueue.isEmpty (OrderQueue.reduceTop (s.heap d) v) = false := by
  rw [← Bool.not_eq_true, LawfulOrderQueue.isEmpty_iff,
    LawfulOrderQueue.contents_reduceTop _ v h]
  exact Multiset.cons_ne_zero

theorem contents_pop_reduceTop (v : ℤ) :
    LawfulOrderQueue.contents (OrderQueue.pop (OrderQueue.reduceTop (s.heap d) v)).2 =
      s.rest d := by
  have hpop := LawfulOrderQueue.contents_pop _ (isEmpty_reduceTop h v)
  rw [LawfulOrderQueue.contents_reduceTop _ v h, LawfulOrderQueue.top_reduceTop _ v h] at hpop
  exact ((Multiset.cons_inj_right _).mp hpop).symm

/-- Taking volume off the top leaves its residue over the rest of the side. -/
theorem book_decreaseTop_self (v : ℤ) :
    (s.decreaseTop d v).book d = residue (OrderQueue.top (s.heap d)) v + s.rest d := by
  rw [decreaseTop, book_setHeap_self, LawfulOrderQueue.top_reduceTop _ v h,
    CompactOrderLog.volume_reduce, residue]
  by_cases hv : (OrderQueue.top (s.heap d)).volume = v
  · rw [if_pos (sub_eq_zero.mpr hv), if_pos hv, contents_pop_reduceTop h, zero_add]
  · rw [if_neg (sub_ne_zero.mpr hv), if_neg hv, LawfulOrderQueue.contents_reduceTop _ v h,
      Multiset.singleton_add, rest]

end top

theorem book_decreaseTop_of_ne (s : ContractEngine Q) {d e : Direction} (h : e ≠ d) (v : ℤ) :
    (s.decreaseTop d v).book e = s.book e := book_setHeap_of_ne _ _ h _

/-! ## The two kinds of trade -/

/-- If prices are on the grid, an order of the heaps that holds in `s` holds in `t`. -/
def KeepsOrder (s t : ContractEngine Q) : Prop :=
  (∀ d, ∀ o ∈ s.book d, OnGrid o.price) → (∀ d, LawfulOrderQueue.InOrder (s.heap d)) →
    ∀ d, LawfulOrderQueue.InOrder (t.heap d)

/-- Taking volume off a top keeps a heap in order, whether the top leaves or stays. -/
theorem inOrder_decreaseTop {s : ContractEngine Q} {d : Direction}
    (he : OrderQueue.isEmpty (s.heap d) = false) (hgrid : ∀ o ∈ s.book d, OnGrid o.price)
    (hd : LawfulOrderQueue.InOrder (s.heap d)) (v : ℤ) :
    LawfulOrderQueue.InOrder ((s.decreaseTop d v).heap d) := by
  rw [decreaseTop, heap_setHeap_self]
  have hreduce := LawfulOrderQueue.inOrder_reduceTop _ v hd
  split
  · refine LawfulOrderQueue.inOrder_pop _ hreduce fun a ha => ?_
    rw [LawfulOrderQueue.contents_reduceTop _ v he] at ha
    rw [book_eq_top_cons he] at hgrid
    rcases Multiset.mem_cons.mp ha with rfl | ha
    · exact hgrid (OrderQueue.top (s.heap d)) (Multiset.mem_cons_self _ _)
    · exact hgrid a (Multiset.mem_cons_of_mem ha)
  · exact hreduce

/-- `t` is `s` after the trade of the tops `a` and `b`. -/
structure Cross (s t : ContractEngine Q) (a b : CompactOrderLog) : Prop where
  isEmpty_sale : OrderQueue.isEmpty (s.heap .Sale) = false
  isEmpty_buy : OrderQueue.isEmpty (s.heap .Buy) = false
  top_sale : OrderQueue.top (s.heap .Sale) = a
  top_buy : OrderQueue.top (s.heap .Buy) = b
  crossing : ¬ priceGt a.price b.price
  traded : Traded s t a b
  book_sale : t.book .Sale = residue a (tradeVolume a b) + s.rest .Sale
  book_buy : t.book .Buy = residue b (tradeVolume a b) + s.rest .Buy
  keepsOrder : KeepsOrder s t

/-- A pass of `processTrade` trades the two tops. -/
theorem processTradeStep_cross {s t : ContractEngine Q} (h : processTradeStep s = some t) :
    Cross s t (OrderQueue.top (s.heap .Sale)) (OrderQueue.top (s.heap .Buy)) := by
  simp only [processTradeStep, Option.ite_none_right_eq_some, Option.ite_none_left_eq_some,
    Option.some.injEq] at h
  obtain ⟨⟨hS, hB⟩, hgt, rfl⟩ := h
  set a := OrderQueue.top (s.heap .Sale)
  set b := OrderQueue.top (s.heap .Buy)
  set u := (s.tradeOrder a b).decreaseTop .Sale (tradeVolume a b) with hu
  have hheap : u.heap .Buy = s.heap .Buy := heap_setHeap_of_ne _ _ (by decide) _
  have hB' : OrderQueue.isEmpty (u.heap .Buy) = false := by rw [hheap]; exact hB
  refine ⟨hS, hB, rfl, rfl, hgt, rfl, ?_, ?_, fun hgrid hinOrder d => ?_⟩
  · rw [book_decreaseTop_of_ne _ (by decide)]
    exact book_decreaseTop_self (s := s.tradeOrder a b) hS _
  · rw [book_decreaseTop_self hB', rest, rest, hheap]
  · cases d with
    | Sale =>
      have hsame : (u.decreaseTop .Buy (tradeVolume a b)).heap .Sale = u.heap .Sale :=
        heap_setHeap_of_ne _ _ (by decide) _
      rw [hsame]
      exact inOrder_decreaseTop (s := s.tradeOrder a b) hS (hgrid _) (hinOrder _) _
    | Buy =>
      refine inOrder_decreaseTop hB' ?_ ?_ _
      · rw [book, hheap]
        exact hgrid .Buy
      · rw [hheap]
        exact hinOrder .Buy

omit [LawfulOrderQueue Q] in
theorem processTradeStep_eq_none {s : ContractEngine Q} :
    processTradeStep s = none ↔
      OrderQueue.isEmpty (s.heap .Sale) = false → OrderQueue.isEmpty (s.heap .Buy) = false →
        priceGt (OrderQueue.top (s.heap .Sale)).price (OrderQueue.top (s.heap .Buy)).price := by
  simp [processTradeStep]

/-- `t` is `s` after the incoming order `o` trades with the top `a` of the other side. -/
structure Fill (s : ContractEngine Q) (o : CompactOrderLog) (t : ContractEngine Q)
    (a : CompactOrderLog) : Prop where
  isEmpty_opposite : OrderQueue.isEmpty (s.heap o.direction.opposite) = false
  top_opposite : OrderQueue.top (s.heap o.direction.opposite) = a
  volume_pos : 0 < o.volume
  traded : Traded s t (roles o a).1 (roles o a).2
  book_opposite : t.book o.direction.opposite =
    residue a (tradeVolumeWith o a) + s.rest o.direction.opposite
  book_own : t.book o.direction = s.book o.direction
  keepsOrder : KeepsOrder s t

theorem fillTop_fill {s : ContractEngine Q} {o : CompactOrderLog} (h : s.CanFill o) :
    Fill s o (s.fillTop o).1 (OrderQueue.top (s.heap o.direction.opposite)) := by
  set a := OrderQueue.top (s.heap o.direction.opposite) with ha
  refine ⟨h.2, rfl, h.1, rfl, ?_, ?_, fun hgrid hinOrder d => ?_⟩
  · simp only [fillTop, book_setHeap_self, residue, ← ha, eq_comm (a := tradeVolumeWith o a)]
    split
    · rw [zero_add]
      rfl
    · rw [Multiset.singleton_add, ha]
      exact LawfulOrderQueue.contents_reduceTop _ _ h.2
  · exact book_setHeap_of_ne _ _ (Direction.ne_opposite _) _
  · rcases Direction.eq_or_eq_opposite o.direction d with rfl | rfl
    · simp only [fillTop, heap_setHeap_of_ne _ _ (Direction.ne_opposite _)]
      exact hinOrder _
    · simp only [fillTop, heap_setHeap_self]
      split
      · exact LawfulOrderQueue.inOrder_pop _ (hinOrder _) (hgrid _)
      · exact LawfulOrderQueue.inOrder_reduceTop _ _ (hinOrder _)

theorem tradeVolumeWith_eq_min (o a : CompactOrderLog) :
    tradeVolumeWith o a = min o.volume a.volume := by
  unfold tradeVolumeWith roles tradeVolume
  cases o.direction with
  | Sale => rfl
  | Buy => exact min_comm _ _

theorem tradeVolume_le_left (a b : CompactOrderLog) : tradeVolume a b ≤ a.volume := min_le_left _ _

theorem tradeVolume_le_right (a b : CompactOrderLog) : tradeVolume a b ≤ b.volume :=
  min_le_right _ _

theorem mem_residue_lt {o a : CompactOrderLog} {v : ℤ} (hv : v ≤ o.volume)
    (ha : a ∈ residue o v) : v < o.volume ∧ a = o.reduce v := by
  obtain ⟨hne, rfl⟩ := mem_residue.mp ha
  exact ⟨lt_of_le_of_ne hv (Ne.symm hne), rfl⟩

/-! ## Properties of every resting order -/

section forall_book
variable {P : Direction → CompactOrderLog → Prop}
  (hP : ∀ d o v, P d o → v < o.volume → P d (o.reduce v))
include hP

/-- A property that partial fills keep survives the removal of volume from a top. -/
theorem forall_residue_add {s : ContractEngine Q} {d : Direction}
    (he : OrderQueue.isEmpty (s.heap d) = false) (hs : ∀ o ∈ s.book d, P d o) {v : ℤ}
    (hv : v ≤ (OrderQueue.top (s.heap d)).volume) :
    ∀ o ∈ residue (OrderQueue.top (s.heap d)) v + s.rest d, P d o := by
  rw [book_eq_top_cons he] at hs
  intro o ho
  rcases Multiset.mem_add.mp ho with ho | ho
  · obtain ⟨hlt, rfl⟩ := mem_residue_lt hv ho
    exact hP d _ v (hs _ (Multiset.mem_cons_self _ _)) hlt
  · exact hs o (Multiset.mem_cons_of_mem ho)

theorem Cross.forall_book {s t : ContractEngine Q} {a b : CompactOrderLog} (h : Cross s t a b)
    (hs : ∀ d, ∀ o ∈ s.book d, P d o) : ∀ d, ∀ o ∈ t.book d, P d o := by
  intro d
  cases d with
  | Sale =>
    rw [h.book_sale, ← h.top_sale]
    exact forall_residue_add hP h.isEmpty_sale (hs _) (tradeVolume_le_left _ _)
  | Buy =>
    rw [h.book_buy, ← h.top_buy]
    exact forall_residue_add hP h.isEmpty_buy (hs _) (tradeVolume_le_right _ _)

theorem Fill.forall_book {s t : ContractEngine Q} {o a : CompactOrderLog} (h : Fill s o t a)
    (hs : ∀ d, ∀ o ∈ s.book d, P d o) : ∀ d, ∀ o ∈ t.book d, P d o := by
  intro d
  rcases Direction.eq_or_eq_opposite o.direction d with rfl | rfl
  · rw [h.book_own]
    exact hs _
  · rw [h.book_opposite, ← h.top_opposite]
    refine forall_residue_add hP h.isEmpty_opposite (hs _) ?_
    rw [tradeVolumeWith_eq_min]
    exact min_le_right _ _

end forall_book

theorem forall_book_insertOrder {P : Direction → CompactOrderLog → Prop} {s : ContractEngine Q}
    {d : Direction} {o : CompactOrderLog} (hs : ∀ d, ∀ o ∈ s.book d, P d o)
    (ho : P d (s.named o)) : ∀ e, ∀ a ∈ (s.insertOrder d o).book e, P e a := by
  intro e
  by_cases he : e = d
  · subst he
    rw [book_insertOrder_self]
    exact fun a ha => (Multiset.mem_cons.mp ha).elim (fun h => h ▸ ho) (hs e a)
  · rw [book_insertOrder_of_ne _ _ he]
    exact hs e

end MatchingEngine.ContractEngine
