import Mathlib
import MatchingEngine.Floating.Limits

/-!
# Immediate orders in floating point

The loops of the immediate orders pass in step: they trade with the same slots of the heap and
leave the same volumes.

## Main definitions

* `NearFill`, `NearLevels`, `NearPending` — the states of the loops.
* `NearEngine.insertImmediateOrder` — an immediate order makes the same trades.
-/

namespace MatchingEngine.Floating

open Arithmetic (double_exact int_exact)
open ContractEngine

/-- The states of the immediate loops: the engine and what is left of the order. -/
structure NearFill (S : Scale) (δ : ℚ) (p : ContractEngine OrderHeap × CompactOrderLog)
    (q : Engine × CompactOrderLog) : Prop where
  engine : NearEngine S δ p.1 q.1
  order : NearOrder S δ p.2 q.2

/-- The states of the `BestFivePriceNoLeft` loop. -/
structure NearLevels (S : Scale) (δ : ℚ) (p : FiveLevels OrderHeap)
    (q : FiveLevels (OrderHeap (A := arithmetic)) arithmetic) : Prop where
  engine : NearEngine S δ p.engine q.engine
  order : NearOrder S δ p.order q.order
  levelNum : q.levelNum = p.levelNum
  lastPriceLevel : NearPrice S δ p.lastPriceLevel q.lastPriceLevel

/-- The states of the collecting loop of `AllOrNothing`. -/
structure NearPending (S : Scale) (δ : ℚ) {d : Direction}
    (p : OrderHeap d × ℤ × List CompactOrderLog)
    (q : OrderHeap (A := arithmetic) d × ℤ × List CompactOrderLog) : Prop where
  heap : BinaryHeap.Related (NearOrder S δ) p.1 q.1
  volumeSum : q.2.1 = p.2.1 ∧ 0 ≤ p.2.1
  pendingOrders : List.Forall₂ (NearOrder S δ) p.2.2 q.2.2

section orders
variable {S : Scale} {δ : ℚ} {o o' a a' : CompactOrderLog} (ho : NearOrder S δ o o')
  (ha : NearOrder S δ a a')
include ho ha

theorem near_roles : NearOrder S δ (roles o a).1 (roles o' a').1 ∧
    NearOrder S δ (roles o a).2 (roles o' a').2 := by
  simp only [roles, ho.direction]
  cases o.direction with
  | Sale => exact ⟨ho, ha⟩
  | Buy => exact ⟨ha, ho⟩

theorem tradeVolumeWith_near : tradeVolumeWith o' a' = tradeVolumeWith o a := by
  have hroles := near_roles ho ha
  exact tradeVolume_nearOrder hroles.1 hroles.2

/-- A trade takes no more than either order has. -/
theorem tradeVolumeWith_bounds : 0 ≤ tradeVolumeWith o a ∧ tradeVolumeWith o a ≤ o.volume ∧
    tradeVolumeWith o a ≤ a.volume := by
  have ho0 := ho.volume_nonneg
  have ha0 := ha.volume_nonneg
  simp only [tradeVolumeWith, tradeVolume, roles]
  cases o.direction <;> simp only <;> omega

end orders

namespace NearEngine

section
variable {S : Scale} {δ : ℚ} (hδ : Fine S δ) {s : ContractEngine OrderHeap} {t : Engine}
  (h : NearEngine S δ s t) {o o' : CompactOrderLog} (ho : NearOrder S δ o o')
include hδ h ho

theorem tradeWith {a a' : CompactOrderLog} (ha : NearOrder S δ a a') :
    NearEngine S δ (s.tradeWith o a) (t.tradeWith o' a') := by
  have hroles := near_roles ho ha
  exact h.tradeOrder hδ hroles.1 hroles.2

omit hδ in
theorem canFill : t.CanFill o' ↔ s.CanFill o := by
  rw [CanFill, ho.volume, ho.direction, h.isEmpty, CanFill]

omit hδ in
theorem fillMeasure : t.fillMeasure o' = s.fillMeasure o := by
  rw [ContractEngine.fillMeasure, ho.volume, ho.direction, h.size, ContractEngine.fillMeasure]

theorem fillTop (hcan : s.CanFill o) :
    NearFill S δ (s.fillTop o) (t.fillTop o') := by
  have htop := h.top hcan.2
  have htrade := h.tradeWith hδ ho htop
  have hvolume := tradeVolumeWith_near ho htop
  obtain ⟨hv0, hvo, hva⟩ := tradeVolumeWith_bounds ho htop
  simp only [ContractEngine.fillTop]
  rw [ho.direction]
  set a := OrderQueue.top (s.heap o.direction.opposite)
  set a' := OrderQueue.top (t.heap o.direction.opposite)
  rw [hvolume, htop.volume]
  refine ⟨htrade.setHeap ?_, ho.reduce hv0 hvo⟩
  split
  · exact (htrade.heap _).pop (cmp_nearOrder hδ _)
  · exact (htrade.heap _).modifyTop fun hb => hb.reduce hv0 hva

theorem immediateDeal : NearFill S δ (s.immediateDeal o) (t.immediateDeal o') := by
  refine Loop.exec_related ?_ (h.fillMeasure ho).symm ⟨h, ho⟩
  rintro ⟨u, a⟩ ⟨v, b⟩ ⟨hu, ha⟩
  simp only at hu ha
  simp only [ContractEngine.immediateDealStep, hu.canFill ha]
  split
  · next hcan => exact .some (hu.fillTop hδ ha hcan)
  · exact .none

end

end NearEngine

/-- The levels are counted alike. -/
theorem NearLevels.step {S : Scale} {δ : ℚ} (hδ : Fine S δ)
    {p : FiveLevels OrderHeap} {q : FiveLevels (OrderHeap (A := arithmetic)) arithmetic}
    (h : NearLevels S δ p q) :
    Option.Rel (NearLevels S δ) (bestFiveStep p) (bestFiveStep q) := by
  have hcan := h.engine.canFill h.order
  simp only [bestFiveStep, hcan, h.levelNum]
  rw [h.order.direction]
  by_cases hfill : p.engine.CanFill p.order
  · have htop := h.engine.top hfill.2
    have hfilled := h.engine.fillTop hδ h.order hfill
    have hneq := (htop.price.compared hδ h.lastPriceLevel).2.1
    rw [if_pos hfill, if_pos hfill]
    simp only [hneq]
    split
    · split
      · exact .none
      · exact .some ⟨hfilled.engine, hfilled.order, rfl, htop.price⟩
    · exact .some ⟨hfilled.engine, hfilled.order, rfl, h.lastPriceLevel⟩
  · rw [if_neg hfill, if_neg hfill]
    exact .none

section pending
variable {S : Scale} {δ : ℚ} (hδ : Fine S δ)
include hδ

theorem related_foldl_insert {d : Direction} {l l' : List CompactOrderLog}
    (hl : List.Forall₂ (NearOrder S δ) l l') {q : OrderHeap d}
    {q' : OrderHeap (A := arithmetic) d} (hq : BinaryHeap.Related (NearOrder S δ) q q') :
    BinaryHeap.Related (NearOrder S δ)
      (l.foldl (OrderQueue.insert (Q := OrderHeap)) q)
      (l'.foldl (OrderQueue.insert (Q := OrderHeap (A := arithmetic))) q') := by
  induction hl generalizing q q' with
  | nil => exact hq
  | cons ho _ ih => exact ih (hq.insert (cmp_nearOrder hδ d) ho)

/-- The same orders are collected: the sum of their volumes is below that of the order until the
last one. -/
theorem nearPending_collect {d : Direction} {volume : ℤ} (hvolume : volume ≤ 2 ^ 30)
    {q : OrderHeap d} {q' : OrderHeap (A := arithmetic) d}
    (hq : BinaryHeap.Related (NearOrder S δ) q q') :
    NearPending S δ (collect volume q) (collect (A := arithmetic) volume q') := by
  refine Loop.exec_related ?_ hq.size.symm ⟨hq, ⟨rfl, le_rfl⟩, .nil⟩
  rintro ⟨r, sum, pending⟩ ⟨r', sum', pending'⟩ ⟨hr, ⟨hsum, h0⟩, hpending⟩
  simp only at hr hsum h0 hpending
  subst hsum
  have hempty : OrderQueue.isEmpty r' = OrderQueue.isEmpty r := hr.isEmpty
  simp only [collectStep, int_exact, int_arithmetic, hempty]
  by_cases hnext : sum' < volume ∧ OrderQueue.isEmpty r = false
  · have htop : NearOrder S δ (OrderQueue.pop r).1 (OrderQueue.pop r').1 :=
      hr.top (BinaryHeap.size_pos_of_not_isEmpty hnext.2)
    have htop0 := htop.volume_nonneg
    have htopLe := htop.volume_le
    rw [if_pos hnext, if_pos hnext, htop.volume, toInt_of_abs_lt (by rw [abs_lt]; omega)]
    exact .some ⟨hr.pop (cmp_nearOrder hδ d), ⟨rfl, add_nonneg h0 htop0⟩,
      List.rel_append hpending (.cons htop .nil)⟩
  · rw [if_neg hnext, if_neg hnext]
    exact .none

end pending

namespace NearEngine

section
variable {S : Scale} {δ : ℚ} (hδ : Fine S δ) {s : ContractEngine OrderHeap} {t : Engine}
  (h : NearEngine S δ s t) {o o' : CompactOrderLog} (ho : NearOrder S δ o o')
include hδ h ho

theorem bestFivePrice : NearFill S δ (s.bestFivePrice o) (t.bestFivePrice o') := by
  have hδ0 := h.lastPrice.near.nonneg
  -- the first level is a price that no order has
  have hlevel : NearPrice S δ (-1) (-1) :=
    ⟨⟨-100, by norm_num⟩, by simpa using S.one_le_price, near_refl hδ0 _⟩
  have hend : NearLevels S δ
      (Loop.exec bestFiveStep (fun p => p.engine.fillMeasure p.order) ⟨s, o, 0, -1⟩)
      (Loop.exec bestFiveStep (fun p => p.engine.fillMeasure p.order) ⟨t, o', 0, -1⟩) :=
    Loop.exec_related (fun _ _ hl => NearLevels.step hδ hl) (h.fillMeasure ho).symm
      ⟨h, ho, rfl, hlevel⟩
  exact ⟨hend.engine, hend.order⟩

theorem tradePending {pendingOrders pendingOrders' : List CompactOrderLog}
    (hpending : List.Forall₂ (NearOrder S δ) pendingOrders pendingOrders') :
    NearFill S δ (s.tradePending o pendingOrders) (t.tradePending o' pendingOrders') := by
  induction hpending generalizing s t o o' with
  | nil => exact ⟨h, ho⟩
  | @cons a a' _ _ ha _ ih =>
    have htrade := h.tradeWith hδ ho ha
    obtain ⟨hv0, hvo, hva⟩ := tradeVolumeWith_bounds ho ha
    have hleft := ha.reduce hv0 hva
    simp only [ContractEngine.tradePending, tradeVolumeWith_near ho ha,
      hleft.volume]
    rw [ho.direction]
    refine ih ?_ (ho.reduce hv0 hvo)
    split
    · exact htrade.setHeap ((htrade.heap _).insert (cmp_nearOrder hδ _) hleft)
    · exact htrade

theorem allOrNothing : NearFill S δ (s.allOrNothing o) (t.allOrNothing o') := by
  have hcollect := nearPending_collect hδ ho.volume_le (h.heap o.direction.opposite)
  simp only [ContractEngine.allOrNothing, ho.volume]
  rw [ho.direction, hcollect.volumeSum.1]
  split
  · exact (h.setHeap hcollect.heap).tradePending hδ ho hcollect.pendingOrders
  · exact ⟨h.setHeap (related_foldl_insert hδ hcollect.pendingOrders hcollect.heap), ho⟩

omit hδ in
theorem runImmediate
    {fill : ContractEngine OrderHeap → CompactOrderLog →
      ContractEngine OrderHeap × CompactOrderLog}
    {fill' : Engine → CompactOrderLog → Engine × CompactOrderLog}
    (hfill : ∀ {u : ContractEngine OrderHeap} {v : Engine}, NearEngine S δ u v →
      ∀ {a b : CompactOrderLog}, NearOrder S δ a b → NearFill S δ (fill u a) (fill' v b)) :
    NearEngine S δ (s.runImmediate fill o) (t.runImmediate fill' o') := by
  have hend := hfill (h.log (.immediate (h.named ho)) rfl) (h.named ho)
  exact hend.engine.log (.discard hend.order) rfl

/-- **An immediate order** makes the same trades and leaves the same volume. -/
theorem insertImmediateOrder :
    NearEngine S δ (s.insertImmediateOrder o) (t.insertImmediateOrder o') := by
  simp only [ContractEngine.insertImmediateOrder, ho.type]
  split
  · exact h.runImmediate ho fun hu _ _ ha => hu.bestFivePrice hδ ha
  · split
    · exact h.runImmediate ho fun hu _ _ ha => hu.immediateDeal hδ ha
    · split
      · exact h.runImmediate ho fun hu _ _ ha => hu.allOrNothing hδ ha
      · exact h

end

end NearEngine
end MatchingEngine.Floating
