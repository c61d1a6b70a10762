import Mathlib
import MatchingEngine.Common
import MatchingEngine.BinaryHeap

/-!
# The two sides of the book as priority queues

The engine uses a heap only through `isEmpty`, `top`, a decrement of the volume of the
top, `pop` and `insert`.  `OrderQueue` is that interface, one queue per direction, and
`LawfulOrderQueue` what the operations do to the multiset of orders held; its order laws
ask for prices on the grid, where the comparators are strict weak orders.

## Main definitions

* `OrderQueue`, `LawfulOrderQueue` — the interface and its laws.
* `OrderHeap` — the heaps of the source: a `BinaryHeap` with each side's comparator.
* `SortedBook` — a plain list in order of rank, then of arrival.
-/

namespace MatchingEngine

/-- The operations of one side of the book that the engine uses. -/
class OrderQueue (Q : Direction → Type) where
  new : (d : Direction) → Q d
  size : {d : Direction} → Q d → ℕ
  isEmpty : {d : Direction} → Q d → Bool
  top : {d : Direction} → Q d → CompactOrderLog
  /-- `topPtr()->volume -= v` -/
  reduceTop : {d : Direction} → Q d → ℤ → Q d
  pop : {d : Direction} → Q d → CompactOrderLog × Q d
  insert : {d : Direction} → Q d → CompactOrderLog → Q d

/-- What the operations do to the orders held.  `InOrder` is the representation's own
order invariant, which prices on the grid preserve. -/
class LawfulOrderQueue (Q : Direction → Type) [OrderQueue Q] where
  contents : {d : Direction} → Q d → Multiset CompactOrderLog
  InOrder : {d : Direction} → Q d → Prop
  contents_new : ∀ d, contents (OrderQueue.new d : Q d) = 0
  size_eq : ∀ {d} (q : Q d), OrderQueue.size q = Multiset.card (contents q)
  isEmpty_iff : ∀ {d} (q : Q d), OrderQueue.isEmpty q = true ↔ contents q = 0
  contents_insert : ∀ {d} (q : Q d) o, contents (OrderQueue.insert q o) = o ::ₘ contents q
  contents_pop : ∀ {d} (q : Q d), OrderQueue.isEmpty q = false →
    contents q = OrderQueue.top q ::ₘ contents (OrderQueue.pop q).2
  fst_pop : ∀ {d} (q : Q d), (OrderQueue.pop q).1 = OrderQueue.top q
  contents_reduceTop : ∀ {d} (q : Q d) v, OrderQueue.isEmpty q = false →
    contents (OrderQueue.reduceTop q v) =
      (OrderQueue.top q).reduce v ::ₘ contents (OrderQueue.pop q).2
  top_reduceTop : ∀ {d} (q : Q d) v, OrderQueue.isEmpty q = false →
    OrderQueue.top (OrderQueue.reduceTop q v) = (OrderQueue.top q).reduce v
  inOrder_new : ∀ d, InOrder (OrderQueue.new d : Q d)
  inOrder_insert : ∀ {d} (q : Q d) o, InOrder q → (∀ a ∈ contents q, OnGrid a.price) →
    OnGrid o.price → InOrder (OrderQueue.insert q o)
  inOrder_pop : ∀ {d} (q : Q d), InOrder q → (∀ a ∈ contents q, OnGrid a.price) →
    InOrder (OrderQueue.pop q).2
  inOrder_reduceTop : ∀ {d} (q : Q d) v, InOrder q → InOrder (OrderQueue.reduceTop q v)
  top_min : ∀ {d} (q : Q d), InOrder q → (∀ a ∈ contents q, OnGrid a.price) →
    OrderQueue.isEmpty q = false → ∀ a ∈ contents q, rank d (OrderQueue.top q) ≤ rank d a

/-! ## The heaps of the source -/

/-- `saleHeap` with `MinBinaryHeapCmp` and `buyHeap` with `MaxBinaryHeapCmp`. -/
abbrev OrderHeap [A : Arithmetic] (d : Direction) : Type := BinaryHeap d.cmp

/-- `DEFAULT_HEAP_SIZE` -/
def defaultHeapSize : ℕ := 1125

theorem defaultHeapSize_pos : 0 < defaultHeapSize := by decide

instance [Arithmetic] : OrderQueue OrderHeap where
  new d := BinaryHeap.new d.cmp defaultHeapSize defaultHeapSize_pos
  size h := h.size
  isEmpty h := h.isEmpty
  top h := h.top
  reduceTop h v := h.modifyTop fun o => o.reduce v
  pop h := h.pop
  insert h o := h.insert o

theorem strictWeakOn_cmp (d : Direction) :
    HeapOrder.StrictWeakOn (fun o => OnGrid o.price) fun a b => d.cmp a b = true :=
  HeapOrder.strictWeakOn_of_key (rank d) fun _ _ => cmp_iff_rank_lt d

instance : LawfulOrderQueue OrderHeap where
  contents h := h.contents
  InOrder h := h.Ordered
  contents_new _ := rfl
  size_eq h := h.card_contents.symm
  isEmpty_iff h := h.isEmpty_iff
  contents_insert h o := h.contents_insert o
  contents_pop _ he := BinaryHeap.contents_pop (BinaryHeap.size_pos_of_not_isEmpty he)
  fst_pop _ := rfl
  contents_reduceTop h v he := by
    have hpos := BinaryHeap.size_pos_of_not_isEmpty he
    have hwrite := BinaryHeap.contents_modifyTop hpos fun o => o.reduce v
    rw [BinaryHeap.contents_pop hpos, Multiset.cons_swap] at hwrite
    exact (Multiset.cons_inj_right _).mp hwrite
  top_reduceTop h v _ := by
    have := congrFun (BinaryHeap.slots_modifyTop (fun o => o.reduce v) h) 1
    rwa [Function.update_self] at this
  inOrder_new _ := BinaryHeap.ordered_new _ _
  inOrder_insert {d} _ _ ho hg hv := ho.insert (strictWeakOn_cmp d) hg hv
  inOrder_pop {d} _ ho hg := BinaryHeap.Ordered.pop (strictWeakOn_cmp d) ho hg
  inOrder_reduceTop {d} _ _ ho := ho.modifyTop fun _ _ => by simp
  top_min {d} h ho hg he a ha := by
    have htop := BinaryHeap.top_mem (BinaryHeap.size_pos_of_not_isEmpty he)
    change rank d (BinaryHeap.top h) ≤ rank d a
    rw [← not_lt, ← cmp_iff_rank_lt d (hg a ha) (hg _ htop)]
    exact BinaryHeap.Ordered.top_min (strictWeakOn_cmp d) ho hg a ha

/-! ## The reference book -/

/-- Orders in a list, the best first. -/
structure SortedBook (d : Direction) where
  orders : List CompactOrderLog

namespace SortedBook

/-- The place of an order: best price, then earlier, then smaller type, then arrival. -/
def place (d : Direction) (o : CompactOrderLog) : (ℚ ×ₗ ℤ ×ₗ ℕ) ×ₗ ℕ := toLex (rank d o, o.id)

instance : OrderQueue SortedBook where
  new _ := ⟨[]⟩
  size b := b.orders.length
  isEmpty b := b.orders.isEmpty
  top b := b.orders.headD default
  reduceTop b v := ⟨b.orders.modifyHead fun o => o.reduce v⟩
  pop b := (b.orders.headD default, ⟨b.orders.tail⟩)
  insert {d} b o := ⟨b.orders.orderedInsert (fun x y => place d x ≤ place d y) o⟩

theorem exists_cons_of_not_isEmpty {d : Direction} {b : SortedBook d}
    (he : OrderQueue.isEmpty b = false) : ∃ o l, b = ⟨o :: l⟩ := by
  obtain ⟨orders⟩ := b
  cases orders with
  | nil => simp [OrderQueue.isEmpty] at he
  | cons o l => exact ⟨o, l, rfl⟩

theorem rank_le_of_place_le {d : Direction} {x y : CompactOrderLog} (h : place d x ≤ place d y) :
    rank d x ≤ rank d y :=
  (Prod.Lex.toLex_le_toLex.mp h).elim le_of_lt fun h => h.1.le

instance : LawfulOrderQueue SortedBook where
  contents b := ↑b.orders
  InOrder {d} b := b.orders.Pairwise fun x y => place d x ≤ place d y
  contents_new _ := rfl
  size_eq _ := rfl
  isEmpty_iff b := by
    change b.orders.isEmpty = true ↔ _
    rw [List.isEmpty_iff, Multiset.coe_eq_zero]
  contents_insert _ _ := Multiset.coe_eq_coe.mpr (List.perm_orderedInsert _ _ _)
  contents_pop b he := by
    obtain ⟨o, l, rfl⟩ := exists_cons_of_not_isEmpty he
    rfl
  fst_pop _ := rfl
  contents_reduceTop b v he := by
    obtain ⟨o, l, rfl⟩ := exists_cons_of_not_isEmpty he
    rfl
  top_reduceTop b v he := by
    obtain ⟨o, l, rfl⟩ := exists_cons_of_not_isEmpty he
    rfl
  inOrder_new _ := List.Pairwise.nil
  inOrder_insert _ o ho _ _ := ho.orderedInsert o _
  inOrder_pop b ho _ := ho.tail
  inOrder_reduceTop b v ho := by
    obtain ⟨orders⟩ := b
    cases orders with
    | nil => exact ho
    | cons o l => exact List.Pairwise.cons (fun _ hy => List.rel_of_pairwise_cons ho hy) ho.tail
  top_min b ho _ he a ha := by
    obtain ⟨o, l, rfl⟩ := exists_cons_of_not_isEmpty he
    rcases List.mem_cons.mp (Multiset.mem_coe.mp ha) with rfl | ha
    · exact le_rfl
    · exact rank_le_of_place_le (List.rel_of_pairwise_cons ho ha)

end SortedBook
end MatchingEngine
