import Mathlib
import MatchingEngine.Lib.PriorityQueue
import MatchingEngine.BinaryHeap
import MatchingEngine.Common

/-!
# The heap is a priority queue

A heap that starts empty, with any capacity, and whose comparator is a strict weak order does
what a priority queue does: its array stays in order, it holds what was inserted and not
popped, and a pop gives back a value that nothing held compares before.

The engine also writes the volume of the top in place, through `topPtr`, which a comparator
that ignores the volume does not see.

## Main definitions

* `Op`, `apply` — the operations of `binary_heap.h`.
* `IgnoresVolume cmp` — the comparator reads no volume.
* `run_isPriorityQueue` — every run is a run of a priority queue.
* `engine_isPriorityQueue` — so is every run of the heaps of the engine with prices on the grid.
-/

namespace MatchingEngine

/-- The order after its volume is written. -/
def CompactOrderLog.withVolume (volume : ℤ) (o : CompactOrderLog) : CompactOrderLog :=
  { o with volume := volume }

namespace BinaryHeap

/-- An operation on a heap of orders.  `setVolume` is `topPtr()->volume = volume`. -/
inductive Op
  | insert (value : CompactOrderLog)
  | pop
  | setVolume (volume : ℤ)
  deriving DecidableEq, Repr

/-- The operation as one of a priority queue. -/
def Op.toQueue : Op → PriorityQueue.Op CompactOrderLog
  | .insert value => .insert value
  | .pop => .pop
  | .setVolume volume => .modify (CompactOrderLog.withVolume volume)

variable {cmp : CompactOrderLog → CompactOrderLog → Bool}

/-- What an operation gives back, and the heap after it. -/
def apply (h : BinaryHeap cmp) : Op → Option CompactOrderLog × BinaryHeap cmp
  | .insert value => (none, h.insert value)
  | .pop => (some h.pop.1, h.pop.2)
  | .setVolume volume => (none, h.modifyTop (CompactOrderLog.withVolume volume))

/-- The operations one after the other: the values popped, and the heap after them. -/
def run (h : BinaryHeap cmp) (ops : List Op) : List CompactOrderLog × BinaryHeap cmp :=
  PriorityQueue.runOps apply h ops

/-- The comparator reads no volume. -/
def IgnoresVolume (cmp : CompactOrderLog → CompactOrderLog → Bool) : Prop :=
  ∀ a b volume, cmp a (b.withVolume volume) = cmp a b ∧ cmp (a.withVolume volume) b = cmp a b

theorem ignoresVolume_cmp (d : Direction) : IgnoresVolume d.cmp := fun _ _ _ => by
  cases d <;> exact ⟨rfl, rfl⟩

/-- What the run needs of the values: the comparator orders those that satisfy `S`, and writing
a volume keeps `S`. -/
structure OrdersOn (cmp : CompactOrderLog → CompactOrderLog → Bool) (S : CompactOrderLog → Prop) :
    Prop where
  strictWeakOn : HeapOrder.StrictWeakOn S fun a b => cmp a b = true
  withVolume : ∀ o volume, S o → S (o.withVolume volume)

section queue
variable {S : CompactOrderLog → Prop} (hS : OrdersOn cmp S)
include hS

/-- **A step of the heap is a step of the queue**, and keeps the order. -/
theorem step_apply {h : BinaryHeap cmp} (ho : h.Ordered) (hin : ∀ a ∈ h.contents, S a) {op : Op}
    (hvalue : ∀ value, op = .insert value → S value)
    (hvolume : ∀ volume, op = .setVolume volume → IgnoresVolume cmp)
    (hfits : op.toQueue.Fits h.contents) :
    PriorityQueue.Step (fun a b => cmp a b = true) h.contents op.toQueue (h.apply op).1
      (h.apply op).2.contents ∧
        (h.apply op).2.Ordered ∧ ∀ a ∈ (h.apply op).2.contents, S a := by
  have hmin := ho.top_min hS.strictWeakOn hin
  cases op with
  | insert value =>
    have hv := hvalue value rfl
    simp only [apply, contents_insert]
    exact ⟨.insert h.contents value, ho.insert hS.strictWeakOn hin hv,
      Multiset.forall_mem_cons.mpr ⟨hv, hin⟩⟩
  | pop =>
    have hpos : 0 < h.size := by
      rw [← card_contents]
      exact Multiset.card_pos.mpr hfits
    refine ⟨?_, ho.pop hS.strictWeakOn hin, fun a ha => hin a ?_⟩
    · rw [contents_pop hpos] at hmin ⊢
      exact .pop hmin
    · rw [contents_pop hpos]
      exact Multiset.mem_cons_of_mem ha
  | setVolume volume =>
    have ho' := ho.modifyTop fun a b => (hvolume volume rfl a b volume).1
    simp only [apply]
    rcases Nat.eq_zero_or_pos h.size with hzero | hpos
    · have hnone : ∀ g : BinaryHeap cmp, g.size = 0 → g.contents = 0 := fun g hg => by
        rw [← Multiset.card_eq_zero, card_contents, hg]
      rw [hnone h hzero, hnone _ ((size_modifyTop _ h).trans hzero)]
      exact ⟨.modify_zero _, ho', fun a ha => absurd ha (Multiset.notMem_zero a)⟩
    · have htrade := contents_modifyTop hpos (CompactOrderLog.withVolume volume)
      rw [contents_pop hpos, Multiset.cons_swap, Multiset.cons_inj_right] at htrade
      rw [htrade]
      rw [contents_pop hpos] at hmin hin ⊢
      obtain ⟨htop, hrest⟩ := Multiset.forall_mem_cons.mp hin
      exact ⟨.modify _ hmin, ho',
        Multiset.forall_mem_cons.mpr ⟨hS.withVolume _ volume htop, hrest⟩⟩

/-- Every run of a heap in order is a run of the queue. -/
theorem runs_run {h : BinaryHeap cmp} (ho : h.Ordered) (hin : ∀ a ∈ h.contents, S a)
    {ops : List Op} (hvalue : ∀ value, .insert value ∈ ops → S value)
    (hvolume : ∀ volume, .setVolume volume ∈ ops → IgnoresVolume cmp)
    (hops : PriorityQueue.Allowed h.size (ops.map Op.toQueue)) :
    PriorityQueue.Runs (fun a b => cmp a b = true) h.contents (ops.map Op.toQueue) (h.run ops).1
      (h.run ops).2.contents ∧
        (h.run ops).2.Ordered ∧ ∀ a ∈ (h.run ops).2.contents, S a := by
  rw [← card_contents] at hops
  refine PriorityQueue.runs_of_steps (I := fun g => g.Ordered ∧ ∀ a ∈ g.contents, S a) apply
    (fun g op hop hg hfits => ?_) ⟨ho, hin⟩ hops
  exact step_apply hS hg.1 hg.2 (fun value heq => hvalue value (heq ▸ hop))
    (fun volume heq => hvolume volume (heq ▸ hop)) hfits

omit hS in
/-- Pop everything. -/
def popAll (h : BinaryHeap cmp) : List CompactOrderLog := (h.run (List.replicate h.size .pop)).1

/-- **Popping everything sorts what the heap holds.** -/
theorem popAll_sorts {h : BinaryHeap cmp} (ho : h.Ordered) (hin : ∀ a ∈ h.contents, S a) :
    (h.popAll.Pairwise fun a b => ¬ cmp b a = true) ∧ (h.popAll : Multiset _) = h.contents := by
  have hpops : (List.replicate h.size Op.pop).map Op.toQueue = List.replicate h.size .pop :=
    List.map_replicate
  have hother : ∀ op ∈ List.replicate h.size Op.pop, op = .pop := fun _ hop =>
    List.eq_of_mem_replicate hop
  obtain ⟨hruns, -⟩ := runs_run hS ho hin (fun _ hmem => nomatch hother _ hmem)
    (fun _ hmem => nomatch hother _ hmem) (by rw [hpops]; exact PriorityQueue.allowed_pops _)
  rw [hpops] at hruns
  refine ⟨hruns.pairwise_of_pops, ?_⟩
  have hperm := hruns.perm_of_pops
  rwa [hruns.eq_zero_of_pops h.card_contents, add_zero] at hperm

/-- A heap that starts empty. -/
theorem runs_new {capacity : ℕ} (hcapacity : 0 < capacity) {ops : List Op}
    (hvalue : ∀ value, .insert value ∈ ops → S value)
    (hvolume : ∀ volume, .setVolume volume ∈ ops → IgnoresVolume cmp)
    (hops : PriorityQueue.Allowed 0 (ops.map Op.toQueue)) :
    let p := (new cmp capacity hcapacity).run ops
    p.2.Ordered ∧
      PriorityQueue.Runs (fun a b => cmp a b = true) 0 (ops.map Op.toQueue) p.1 p.2.contents ∧
      (p.2.popAll.Pairwise fun a b => ¬ cmp b a = true) ∧
      (p.2.popAll : Multiset _) = p.2.contents := by
  intro p
  have hnew : (new cmp capacity hcapacity).Ordered := ordered_new capacity hcapacity
  obtain ⟨hruns, ho, hin⟩ := runs_run hS hnew (fun a ha => absurd ha (Multiset.notMem_zero a))
    hvalue hvolume hops
  exact ⟨ho, hruns, popAll_sorts hS ho hin⟩

end queue

/-- The comparators of the engine order the orders whose prices are on the grid. -/
theorem ordersOn_cmp (d : Direction) : OrdersOn d.cmp fun o => OnGrid o.price where
  strictWeakOn := HeapOrder.strictWeakOn_of_key (rank d) fun _ _ => cmp_iff_rank_lt d
  withVolume _ _ h := h

/-- **The heaps of the engine are priority queues** for orders whose prices are on the grid. -/
theorem engine_isPriorityQueue (d : Direction) {capacity : ℕ} (hcapacity : 0 < capacity)
    {ops : List Op} (hgrid : ∀ value, .insert value ∈ ops → OnGrid value.price)
    (hops : PriorityQueue.Allowed 0 (ops.map Op.toQueue)) :
    let p := (new d.cmp capacity hcapacity).run ops
    p.2.Ordered ∧
      PriorityQueue.Runs (fun a b => d.cmp a b = true) 0 (ops.map Op.toQueue) p.1 p.2.contents ∧
      (p.2.popAll.Pairwise fun a b => ¬ d.cmp b a = true) ∧
      (p.2.popAll : Multiset _) = p.2.contents :=
  runs_new (ordersOn_cmp d) hcapacity hgrid (fun _ _ => ignoresVolume_cmp d) hops

/-- **The heap is a priority queue**, for every comparator that is a strict weak order, every
capacity and every list of operations that pops no empty heap: it is in order, it holds what
the queue holds, it has given back what the queue gives back, and popping the rest sorts it. -/
theorem run_isPriorityQueue [IsStrictWeakOrder CompactOrderLog fun a b => cmp a b = true]
    {capacity : ℕ} (hcapacity : 0 < capacity) {ops : List Op}
    (hvolume : ∀ volume, .setVolume volume ∈ ops → IgnoresVolume cmp)
    (hops : PriorityQueue.Allowed 0 (ops.map Op.toQueue)) :
    let p := (new cmp capacity hcapacity).run ops
    p.2.Ordered ∧
      PriorityQueue.Runs (fun a b => cmp a b = true) 0 (ops.map Op.toQueue) p.1 p.2.contents ∧
      (p.2.popAll.Pairwise fun a b => ¬ cmp b a = true) ∧
      (p.2.popAll : Multiset _) = p.2.contents := by
  have hall : OrdersOn cmp fun _ => True :=
    ⟨HeapOrder.strictWeakOn_of_isStrictWeakOrder, fun _ _ _ => trivial⟩
  exact runs_new hall hcapacity (fun _ _ => trivial) hvolume hops

/-- Two orders in a heap with room for one; the top is written before it is popped. -/
theorem isPriorityQueue_of_growth :
    let cmp := fun a b : CompactOrderLog => decide (a.price < b.price)
    let ops : List Op :=
      [.insert ⟨1, 5, 10, 0, 0⟩, .insert ⟨2, 7, 9, 0, 0⟩, .setVolume 3, .pop]
    let p := (new cmp 1 Nat.one_pos).run ops
    p.1 = [⟨2, 3, 9, 0, 0⟩] ∧ p.2.Ordered ∧ p.2.contents = {⟨1, 5, 10, 0, 0⟩} := by
  intro cmp ops p
  have : IsStrictWeakOrder CompactOrderLog fun a b => cmp a b = true := by
    have hprice : IsStrictWeakOrder ℚ (· < ·) := isStrictWeakOrder_of_isOrderConnected
    simp only [cmp, decide_eq_true_eq]
    exact inferInstanceAs (IsStrictWeakOrder CompactOrderLog
      (Order.Preimage CompactOrderLog.price (· < ·)))
  have hvolume : ∀ volume, .setVolume volume ∈ ops → IgnoresVolume cmp := fun _ _ _ _ _ => ⟨rfl, rfl⟩
  have hops : PriorityQueue.Allowed 0 (ops.map Op.toQueue) := ⟨Nat.succ_pos _, trivial⟩
  obtain ⟨ho, -, -, hrest⟩ := run_isPriorityQueue Nat.one_pos hvolume hops
  have hall : p.2.popAll = [⟨1, 5, 10, 0, 0⟩] := by decide +kernel
  refine ⟨by decide +kernel, ho, hrest.symm.trans ?_⟩
  exact congrArg (Multiset.ofList ·) hall

end BinaryHeap
end MatchingEngine
