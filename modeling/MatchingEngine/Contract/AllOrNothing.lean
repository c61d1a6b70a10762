import Mathlib
import MatchingEngine.Lib.Refinement
import MatchingEngine.Contract.Order
import MatchingEngine.Contract.Deals

/-!
# All or nothing

`AllOrNothing` pops orders into a queue until they cover its volume, and then trades them
all or puts them all back.  When the opposite side holds enough, it makes the deals that an
`ImmediateDealNoLeft` of the same terms makes; otherwise it leaves no trace but the layout of
the heap.

## Main definitions

* `SameTerms` — two immediate orders that differ in their type.
* `immediateDeal_alike` — `ImmediateDealNoLeft` does not look at the type of its order.
* `allOrNothing_atomic` — the two cases.
-/

namespace MatchingEngine.ContractEngine
variable {Q : Direction → Type}

/-! ## Alike orders -/

/-- Two orders that differ in their type only, neither of them the engine's own. -/
structure SameTerms (o o' : CompactOrderLog) : Prop where
  timestamp : o'.timestamp = o.timestamp
  volume : o'.volume = o.volume
  price : o'.price = o.price
  direction : o'.direction = o.direction
  not_isOwn : ¬ o.IsOwn
  not_isOwn' : ¬ o'.IsOwn

theorem SameTerms.reduce {o o' : CompactOrderLog} (h : SameTerms o o') (v : ℤ) :
    SameTerms (o.reduce v) (o'.reduce v) :=
  ⟨h.timestamp, by simp [h.volume], h.price, h.direction, h.not_isOwn, h.not_isOwn'⟩

section terms
variable {o o' : CompactOrderLog} (h : SameTerms o o') (a : CompactOrderLog)
include h

theorem SameTerms.tradeVolumeWith_eq : tradeVolumeWith o' a = tradeVolumeWith o a := by
  rw [tradeVolumeWith_eq_min, tradeVolumeWith_eq_min, h.volume]

theorem SameTerms.tradePrice_eq :
    tradePrice (roles o' a).1 (roles o' a).2 = tradePrice (roles o a).1 (roles o a).2 := by
  simp only [roles, h.direction]
  cases o.direction <;> simp only [tradePrice, h.price, h.timestamp]

theorem SameTerms.account_eq {s t : ContractEngine Q} (hincome : t.income = s.income)
    (hvolume : t.volume = s.volume) :
    t.account (roles o' a).1 (roles o' a).2 = s.account (roles o a).1 (roles o a).2 := by
  have hprice := h.tradePrice_eq a
  have htrade := h.tradeVolumeWith_eq a
  simp only [tradeVolumeWith] at htrade
  simp only [account, hprice, htrade, hincome, hvolume]
  cases hd : o.direction <;>
  · have hroles := h.direction.trans hd
    simp only [roles, hd, hroles, h.not_isOwn, h.not_isOwn', if_false]

end terms

/-- Two states of the loop that differ in the type of the order that fills, and in what the
history says of it. -/
structure Alike (p p' : ContractEngine Q × CompactOrderLog) : Prop where
  terms : SameTerms p.2 p'.2
  heap : p'.1.heap = p.1.heap
  lastPrice : p'.1.lastPrice = p.1.lastPrice
  income : p'.1.income = p.1.income
  volume : p'.1.volume = p.1.volume
  deals : deals p.2.direction.opposite p'.1.history = deals p.2.direction.opposite p.1.history

/-- Alike orders are alike when they arrive. -/
theorem SameTerms.arrive {o o' : CompactOrderLog} (h : SameTerms o o') (s : ContractEngine Q) :
    Alike (s.log (.immediate (s.named o)), s.named o)
      (s.log (.immediate (s.named o')), s.named o') :=
  ⟨⟨h.timestamp, h.volume, h.price, h.direction, h.not_isOwn, h.not_isOwn'⟩, rfl, rfl, rfl, rfl,
    by rw [deals_log_immediate, deals_log_immediate]⟩

variable [OrderQueue Q]

theorem insertImmediateOrder_of_allOrNothing (s : ContractEngine Q) {o : CompactOrderLog}
    (htype : o.type = ContractType.AllOrNothing.code) :
    s.insertImmediateOrder o = s.runImmediate allOrNothing o := by
  simp [insertImmediateOrder, htype, ContractType.code]

theorem insertImmediateOrder_of_immediateDeal (s : ContractEngine Q) {o : CompactOrderLog}
    (htype : o.type = ContractType.ImmediateDealNoLeft.code) :
    s.insertImmediateOrder o = s.runImmediate immediateDeal o := by
  simp [insertImmediateOrder, htype, ContractType.code]

theorem Alike.canFill_iff {p p' : ContractEngine Q × CompactOrderLog} (h : Alike p p') :
    p'.1.CanFill p'.2 ↔ p.1.CanFill p.2 := by
  unfold CanFill
  rw [h.terms.volume, h.terms.direction, h.heap]

variable [LawfulOrderQueue Q]

/-- Alike orders fill alike. -/
theorem Alike.fillTop {p p' : ContractEngine Q × CompactOrderLog} (h : Alike p p')
    (hcan : p.1.CanFill p.2) : Alike (p.1.fillTop p.2) (p'.1.fillTop p'.2) := by
  have hfill := fillTop_fill hcan
  have hfill' := fillTop_fill (h.canFill_iff.mpr hcan)
  have htop : OrderQueue.top (p'.1.heap p'.2.direction.opposite) =
      OrderQueue.top (p.1.heap p.2.direction.opposite) := by rw [h.terms.direction, h.heap]
  rw [htop] at hfill'
  set a := OrderQueue.top (p.1.heap p.2.direction.opposite) with ha
  have hvolume := h.terms.tradeVolumeWith_eq a
  have haccount := h.terms.account_eq a h.income h.volume
  refine ⟨?_, ?_, ?_, ?_, ?_, ?_⟩
  · rw [fillTop_snd, fillTop_snd, htop, ← ha, hvolume]
    exact h.terms.reduce _
  · simp only [ContractEngine.fillTop, setHeap, tradeWith, tradeOrder, h.heap,
      h.terms.tradeVolumeWith_eq]
    rw [h.terms.direction]
  · rw [hfill'.traded.lastPrice, hfill.traded.lastPrice, h.terms.tradePrice_eq]
  · rw [hfill'.traded.income, hfill.traded.income, haccount]
  · rw [hfill'.traded.volume, hfill.traded.volume, haccount]
  · rw [fillTop_snd, CompactOrderLog.direction_reduce, hfill.deals]
    have hdeals := hfill'.deals
    rw [h.terms.direction, h.terms.tradePrice_eq, hvolume, h.deals] at hdeals
    exact hdeals

/-- `ImmediateDealNoLeft` does not look at the type of its order. -/
theorem Alike.immediateDeal {p p' : ContractEngine Q × CompactOrderLog} (h : Alike p p') :
    Alike (p.1.immediateDeal p.2) (p'.1.immediateDeal p'.2) := by
  refine Loop.exec_related ?_ ?_ h
  · rintro ⟨s, o⟩ ⟨s', o'⟩ h
    simp only [immediateDealStep]
    by_cases hcan : s.CanFill o
    · rw [if_pos hcan, if_pos (h.canFill_iff.mpr hcan)]
      exact .some (h.fillTop hcan)
    · rw [if_neg hcan, if_neg (mt h.canFill_iff.mp hcan)]
      exact .none
  · rw [fillMeasure, fillMeasure, h.terms.volume, h.terms.direction, h.heap]

/-! ## The two cases -/

/-- With enough on the other side `ImmediateDealNoLeft` trades its whole volume. -/
theorem immediateDeal_filled {s : ContractEngine Q} {o : CompactOrderLog} (ho : 0 ≤ o.volume)
    (hle : o.volume ≤ totalVolume (s.book o.direction.opposite)) :
    ∃ l, deals o.direction.opposite (s.immediateDeal o).1.history =
      deals o.direction.opposite s.history ++ l ∧ dealtVolume l = o.volume := by
  have hdealt : Dealt s o (s.immediateDeal o).1 (s.immediateDeal o).2 :=
    immediateDeal_invariant (fillInvariant_dealt s o).fill (Dealt.refl s ho)
  have hdone := immediateDeal_done s o
  obtain ⟨hdir, hnonneg, l, hl, hown, hopp⟩ := hdealt
  refine ⟨l, hl, ?_⟩
  suffices hend : (s.immediateDeal o).2.volume ≤ 0 by omega
  by_contra hpos
  -- The order has volume left, so the other side is used up, and that was enough.
  have hempty : (s.immediateDeal o).1.book o.direction.opposite = 0 := by
    by_contra hne
    rw [← ne_eq, ← isEmpty_eq_false_iff, ← hdir] at hne
    exact hdone ⟨not_le.mp hpos, hne⟩
  rw [hempty] at hopp
  simp only [totalVolume, Multiset.map_zero, Multiset.sum_zero] at hopp hle
  omega

/-- With enough on the other side `AllOrNothing` does what `ImmediateDealNoLeft` does. -/
theorem runImmediate_allOrNothing_of_le {s : ContractEngine Q} {o o' : CompactOrderLog}
    (hterms : SameTerms o o') (ho : 0 ≤ o.volume)
    (hnonneg : ∀ a ∈ s.book o.direction.opposite, 0 ≤ a.volume)
    (hle : o.volume ≤ totalVolume (s.book o.direction.opposite)) :
    let d := o.direction.opposite
    let t := s.runImmediate allOrNothing o
    let u := s.runImmediate immediateDeal o'
    (∃ l, deals d t.history = deals d s.history ++ l ∧
      deals d u.history = deals d s.history ++ l ∧ dealtVolume l = o.volume) ∧
    t.lastPrice = u.lastPrice ∧ t.income = u.income ∧ t.volume = u.volume ∧
      ∀ e, t.book e = u.book e := by
  intro d t u
  set s₁ := s.log (.immediate (s.named o)) with hs₁
  set r := s₁.immediateDeal (s.named o) with hr
  set r' := (s.log (.immediate (s.named o'))).immediateDeal (s.named o') with hr'
  have hsame : SameBook r.1 (s₁.allOrNothing (s.named o)).1 :=
    (allOrNothing_of_le (s := s₁) (o := s.named o) ((le_collect_iff_sum o.volume hnonneg).mpr hle)).1
  have halike : Alike r r' := (hterms.arrive s).immediateDeal
  have hdirection : r.2.direction = o.direction :=
    (immediateDeal_invariant (fillInvariant_dealt s₁ (s.named o)).fill
      (Dealt.refl s₁ (o := s.named o) ho)).direction
  obtain ⟨l, hl, hvolume⟩ := immediateDeal_filled (s := s₁) (o := s.named o) ho hle
  have hdeals : deals d t.history = deals d s.history ++ l := by
    rw [deals_runImmediate, hsame.scalars]
    exact hl.trans (congrArg (· ++ l) (deals_log_immediate d s _))
  have hdeals' : deals d u.history = deals d t.history := by
    have := halike.deals
    rw [hdirection] at this
    rw [deals_runImmediate, deals_runImmediate, hsame.scalars]
    exact this
  refine ⟨⟨l, hdeals, hdeals'.trans hdeals, hvolume⟩, ?_, ?_, ?_, fun e => ?_⟩
  · exact (congrArg ContractEngine.lastPrice hsame.scalars).trans halike.lastPrice.symm
  · exact (congrArg ContractEngine.income hsame.scalars).trans halike.income.symm
  · exact (congrArg ContractEngine.volume hsame.scalars).trans halike.volume.symm
  · exact (hsame.book e).trans (congrArg LawfulOrderQueue.contents (congrFun halike.heap e).symm)

/-- Without enough on the other side it puts back what it popped. -/
theorem runImmediate_allOrNothing_of_lt {s : ContractEngine Q} {o : CompactOrderLog}
    (hnonneg : ∀ a ∈ s.book o.direction.opposite, 0 ≤ a.volume)
    (hlt : totalVolume (s.book o.direction.opposite) < o.volume) :
    let d := o.direction.opposite
    let p := collect o.volume (s.heap d)
    let t := s.runImmediate allOrNothing o
    deals d t.history = deals d s.history ∧ t.lastPrice = s.lastPrice ∧ t.income = s.income ∧
      t.volume = s.volume ∧ t.heap o.direction = s.heap o.direction ∧ t.book d = s.book d ∧
      t.heap d = p.2.2.foldl OrderQueue.insert p.1 := by
  intro d p t
  set s₁ := s.log (.immediate (s.named o)) with hs₁
  have hsum : p.2.1 < (s.named o).volume :=
    not_le.mp (mt (le_collect_iff_sum o.volume hnonneg).mp hlt.not_ge)
  have hsame : SameBook s₁ (s₁.allOrNothing (s.named o)).1 :=
    (allOrNothing_of_lt (s := s₁) (o := s.named o) hsum).1
  have hfill : s₁.allOrNothing (s.named o) =
      (s₁.setHeap d (p.2.2.foldl OrderQueue.insert p.1), s.named o) := if_neg hsum.not_ge
  have hheap : t.heap = (s₁.setHeap d (p.2.2.foldl OrderQueue.insert p.1)).heap :=
    congrArg (fun r => r.1.heap) hfill
  refine ⟨?_, ?_, ?_, ?_, ?_, hsame.book d, ?_⟩
  · rw [deals_runImmediate, hsame.scalars]
    exact deals_log_immediate d s _
  · exact (congrArg ContractEngine.lastPrice hsame.scalars).trans rfl
  · exact (congrArg ContractEngine.income hsame.scalars).trans rfl
  · exact (congrArg ContractEngine.volume hsame.scalars).trans rfl
  · rw [hheap]
    exact heap_setHeap_of_ne s₁ d (Direction.ne_opposite _) _
  · rw [hheap]
    exact heap_setHeap_self s₁ d _

/-- **AllOrNothing is atomic.**  If the opposite side covers its volume it makes the deals of
the `ImmediateDealNoLeft` order `o'` of the same terms and leaves what that leaves; otherwise
it leaves the state as it was, but for the layout of a heap that is still in order. -/
theorem allOrNothing_atomic (s : ContractEngine OrderHeap) {o o' : CompactOrderLog}
    (halike : o' = { o with directionAndType := o'.directionAndType })
    (hdir : o'.direction = o.direction) (htype : o.type = ContractType.AllOrNothing.code)
    (htype' : o'.type = ContractType.ImmediateDealNoLeft.code) (hq : 0 < o.volume)
    (hpos : ∀ a ∈ s.book o.direction.opposite, 0 < a.volume) :
    let d := o.direction.opposite
    let t := s.insertImmediateOrder o
    let u := s.insertImmediateOrder o'
    (o.volume ≤ totalVolume (s.book d) →
      (∃ l, deals d t.history = deals d s.history ++ l ∧
        deals d u.history = deals d s.history ++ l ∧ dealtVolume l = o.volume) ∧
      t.lastPrice = u.lastPrice ∧ t.income = u.income ∧ t.volume = u.volume ∧
      ∀ e, t.book e = u.book e) ∧
    (totalVolume (s.book d) < o.volume →
      deals d t.history = deals d s.history ∧ t.lastPrice = s.lastPrice ∧ t.income = s.income ∧
      t.volume = s.volume ∧ t.heap o.direction = s.heap o.direction ∧ t.book d = s.book d ∧
      (HeapOrder.StrictWeakOn (fun a => a ∈ s.book d) (fun a b => d.cmp a b = true) →
        (s.heap d).Ordered → (t.heap d).Ordered)) := by
  intro d t u
  have ht : t = s.runImmediate allOrNothing o := insertImmediateOrder_of_allOrNothing s htype
  have hu : u = s.runImmediate immediateDeal o' :=
    insertImmediateOrder_of_immediateDeal s htype'
  have hnonneg : ∀ a ∈ s.book d, 0 ≤ a.volume := fun a ha => (hpos a ha).le
  constructor
  · intro hle
    have hterms : SameTerms o o' := by
      refine ⟨?_, ?_, ?_, hdir, ?_, ?_⟩
      · rw [halike]
      · rw [halike]
      · rw [halike]
      · exact fun hown => by cases htype.symm.trans hown
      · exact fun hown => by cases htype'.symm.trans hown
    rw [ht, hu]
    exact runImmediate_allOrNothing_of_le hterms hq.le hnonneg hle
  · intro hlt
    obtain ⟨hdeals, hprice, hincome, hvolume, hown, hbook, hheap⟩ :=
      runImmediate_allOrNothing_of_lt hnonneg hlt
    rw [ht]
    refine ⟨hdeals, hprice, hincome, hvolume, hown, hbook, fun hweak hordered => ?_⟩
    rw [hheap]
    -- The popped orders and the rest of the heap are all of the book, where the comparator is
    -- a strict weak order.
    obtain ⟨hrest, hpending, hcollected⟩ := inOrder_collect (Q := OrderHeap)
      (S := fun a => a ∈ s.book d) (fun _ ho hS => BinaryHeap.Ordered.pop hweak ho hS) o.volume
      (q := s.heap d) (fun a ha => ha) hordered
    exact inOrder_foldl_insert (Q := OrderHeap)
      (fun _ _ ho hS ha => BinaryHeap.Ordered.insert hweak ho hS ha) _ hrest hpending hcollected

/-- Buys of four and of six lots against two lots at 10.01 and three at 9.99: the first is
filled over both levels, the second takes both and puts them back. -/
theorem allOrNothing_of_two_levels :
    let s := (new 3 1 ⟨10, 0⟩ 1 : ContractEngine OrderHeap).run
      [.insertOrderLog ⟨0, 2, 1 / 100, 0, 0⟩, .insertOrderLog ⟨1, 3, -1 / 100, 0, 0⟩]
    let t := s.insertImmediateOrder ⟨2, 4, 0, 13, 0⟩
    let u := s.insertImmediateOrder ⟨2, 4, 0, 12, 0⟩
    let v := s.insertImmediateOrder ⟨2, 6, 0, 13, 0⟩
    ((∃ l, deals .Sale t.history = deals .Sale s.history ++ l ∧
      deals .Sale u.history = deals .Sale s.history ++ l ∧ dealtVolume l = 4) ∧
    ∀ e, t.book e = u.book e) ∧
    deals .Sale v.history = deals .Sale s.history ∧ v.book .Sale = s.book .Sale := by
  intro s t u v
  have hpos : ∀ a ∈ s.book .Sale, 0 < a.volume := by decide +kernel
  have hle : 4 ≤ totalVolume (s.book .Sale) := by decide +kernel
  have hlt : totalVolume (s.book .Sale) < 6 := by decide +kernel
  have halike (q : ℤ) : (⟨2, q, 0, 12, 0⟩ : CompactOrderLog) =
      { (⟨2, q, 0, 13, 0⟩ : CompactOrderLog) with directionAndType := 12 } := rfl
  have hfilled := (allOrNothing_atomic s (halike 4)
    (by decide) (by decide) (by decide) (by decide) hpos).1 hle
  have hrolledBack := (allOrNothing_atomic s (halike 6)
    (by decide) (by decide) (by decide) (by decide) hpos).2 hlt
  exact ⟨⟨hfilled.1, hfilled.2.2.2.2⟩, hrolledBack.1, hrolledBack.2.2.2.2.2.1⟩

end MatchingEngine.ContractEngine
