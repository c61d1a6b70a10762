import Mathlib
import MatchingEngine.Contract.Reference

/-!
# The heaps and the sorted book agree

The reference of an engine is the same engine over `SortedBook`.  The two serve the orders
of a tie differently and so cut the volume into different trades, but their loops refine
the same unit trades, which are deterministic.  `Agree` says that two engines have one
state by lots; every operation keeps it.

## Main definitions

* `Agree`, `Agree.run` — two engines with one state by lots stay so.
* `agrees_with_sortedBook` — the heaps against the reference.
-/

namespace MatchingEngine.ContractEngine
variable {Q : Direction → Type} [OrderQueue Q] [LawfulOrderQueue Q]
variable {R : Direction → Type} [OrderQueue R] [LawfulOrderQueue R]

/-- Two engines in good states have one state by lots. -/
structure Agree (s : ContractEngine Q) (t : ContractEngine R) : Prop where
  left : Good s
  right : Good t
  abs_eq : abs s = abs t

section Agree
variable {s : ContractEngine Q} {t : ContractEngine R} (h : Agree s t)
include h

theorem Agree.lots_eq (d : Direction) : lots (s.book d) = lots (t.book d) :=
  congrFun (congrArg LotState.lots h.abs_eq) d

theorem Agree.lastPrice_eq : s.lastPrice = t.lastPrice := congrArg LotState.lastPrice h.abs_eq

theorem Agree.plan_eq : s.plan = t.plan := congrArg LotState.plan h.abs_eq

theorem Agree.twapOrders_eq : s.twapOrders = t.twapOrders := congrArg Plan.twapOrders h.plan_eq

theorem Agree.twapHead_eq : s.twapHead = t.twapHead := congrArg Plan.twapHead h.plan_eq

/-- The tops of one side are of one price. -/
theorem Agree.top {d : Direction} (he : OrderQueue.isEmpty (s.heap d) = false) :
    OrderQueue.isEmpty (t.heap d) = false ∧
      (OrderQueue.top (t.heap d)).price = (OrderQueue.top (s.heap d)).price := by
  obtain ⟨S, hS, hbest⟩ := h.left.lots_book_eq he
  obtain ⟨hne, hlot⟩ := h.right.top_of_best ((h.lots_eq d).symm.trans hS) hbest
  exact ⟨hne, congrArg Lot.price hlot⟩

theorem Agree.symm : Agree t s := ⟨h.right, h.left, h.abs_eq.symm⟩

theorem Agree.isEmpty_iff (d : Direction) :
    OrderQueue.isEmpty (s.heap d) = false ↔ OrderQueue.isEmpty (t.heap d) = false := by
  constructor
  · exact fun he => (h.top he).1
  · exact fun he => (h.symm.top he).1

theorem Agree.basePrice_eq (direction : Option Direction) :
    s.getCurrentBasePrice direction = t.getCurrentBasePrice direction := by
  cases direction with
  | none => exact h.lastPrice_eq
  | some d =>
    simp only [getCurrentBasePrice]
    by_cases hopp : OrderQueue.isEmpty (s.heap d.opposite) = false
    · rw [if_pos hopp, if_pos (h.top hopp).1, (h.top hopp).2]
    · rw [if_neg hopp, if_neg (mt (h.isEmpty_iff _).mpr hopp)]
      by_cases hown : OrderQueue.isEmpty (s.heap d) = false
      · rw [if_pos hown, if_pos (h.top hown).1, (h.top hown).2]
      · rw [if_neg hown, if_neg (mt (h.isEmpty_iff _).mpr hown)]
        exact h.lastPrice_eq

theorem Agree.priceBand_eq (d : Direction) (basePrice : ℚ) :
    s.priceBand d basePrice = t.priceBand d basePrice := by
  have hup : s.upLimit = t.upLimit := congrArg Plan.upLimit h.plan_eq
  have hdown : s.downLimit = t.downLimit := congrArg Plan.downLimit h.plan_eq
  simp only [priceBand, hup, hdown]

end Agree

/-! ## Insertions -/

theorem abs_insertOrder (s : ContractEngine Q) (d : Direction) (o : CompactOrderLog) :
    abs (s.insertOrder d o) = { abs s with
      lots := Function.update (abs s).lots d
        (Multiset.replicate o.volume.toNat o.lot + lots (s.book d)) } := by
  simp only [abs, LotState.mk.injEq]
  refine ⟨?_, rfl, rfl, rfl, rfl⟩
  funext e
  by_cases he : e = d
  · subst he
    rw [Function.update_self, book_insertOrder_self, lots_cons]
    rfl
  · rw [Function.update_of_ne he, book_insertOrder_of_ne _ _ he]

/-- One order enters both books. -/
theorem abs_insertOrder_eq {s : ContractEngine Q} {t : ContractEngine R} (h : abs s = abs t)
    (d : Direction) (o : CompactOrderLog) :
    abs (s.insertOrder d o) = abs (t.insertOrder d o) := by
  have hlots : lots (s.book d) = lots (t.book d) := congrFun (congrArg LotState.lots h) d
  rw [abs_insertOrder, abs_insertOrder, h, hlots]

theorem Agree.insertBestPrice {s : ContractEngine Q} {t : ContractEngine R} (h : Agree s t)
    (d : Direction) (o : CompactOrderLog) :
    abs (s.insertBestPrice d o) = abs (t.insertBestPrice d o) := by
  simp only [ContractEngine.insertBestPrice]
  by_cases he : OrderQueue.isEmpty (s.heap d) = false
  · rw [if_pos he, if_pos (h.top he).1, (h.top he).2]
    exact abs_insertOrder_eq h.abs_eq _ _
  · rw [if_neg he, if_neg (mt (h.isEmpty_iff _).mpr he)]
    exact h.abs_eq

theorem Agree.insertBookOrder {s : ContractEngine Q} {t : ContractEngine R} (h : Agree s t)
    (o : CompactOrderLog) : abs (s.insertBookOrder o) = abs (t.insertBookOrder o) := by
  simp only [ContractEngine.insertBookOrder]
  split
  · simp only [insertPriceLimit, h.basePrice_eq, h.priceBand_eq]
    split
    · exact h.abs_eq
    · exact abs_insertOrder_eq h.abs_eq _ _
  · split
    · exact h.insertBestPrice _ o
    · split
      · exact h.insertBestPrice _ o
      · exact h.abs_eq

/-! ## Matching and releasing -/

theorem Agree.processTrade {s : ContractEngine Q} {t : ContractEngine R} (h : Agree s t) :
    Agree s.processTrade t.processTrade where
  left := good_settles.processTrade h.left
  right := good_settles.processTrade h.right
  abs_eq := refines_processTrade.exec_eq unitCross_rightUnique refines_processTrade
    processTradeStep_decreases processTradeStep_decreases h.left h.right h.abs_eq

theorem Agree.enterTwap {s : ContractEngine Q} {t : ContractEngine R} (h : Agree s t)
    {o : CompactOrderLog} (ho : s.twapOrders[s.twapHead]? = some o) :
    Agree (s.enterTwap o) (t.enterTwap o) := by
  have ho' : t.twapOrders[t.twapHead]? = some o := by rw [← h.twapOrders_eq, ← h.twapHead_eq, ho]
  refine ⟨good_settles.enter s o h.left ho, good_settles.enter t o h.right ho', ?_⟩
  have hpriced : s.priced o = t.priced o := by simp only [priced, h.basePrice_eq]
  have hpass : abs (s.passTwap o) = abs (t.passTwap o) := by
    have habs : ∀ {P : Direction → Type} [OrderQueue P] [LawfulOrderQueue P]
        (u : ContractEngine P), abs (u.passTwap o) = { abs u with
          plan := { u.plan with
            twapOrders := u.twapOrders.set u.twapHead (u.priced o), twapHead := u.twapHead + 1 } } :=
      fun u => rfl
    rw [habs, habs, h.abs_eq, h.plan_eq, h.twapOrders_eq, h.twapHead_eq, hpriced]
  obtain ⟨d, hd, henter⟩ := enterTwap_eq h.left.sound.valid ho
  obtain ⟨d', hd', henter'⟩ := enterTwap_eq h.right.sound.valid ho'
  obtain rfl : d = d' := Option.some.inj (hd.symm.trans hd')
  rw [henter, henter', hpriced]
  split
  · exact abs_insertOrder_eq hpass _ _
  · exact hpass

/-- The releases pass in step: both engines release the same entries at the same prices. -/
theorem Agree.release {s : ContractEngine Q} {t : ContractEngine R} (h : Agree s t)
    (currentTime : ℤ) :
    Agree (s.processTwapOrdersIfNecessary currentTime)
      (t.processTwapOrdersIfNecessary currentTime) := by
  refine Loop.exec_related ?_ ?_ h
  · intro s t h
    simp only [twapStep, ← h.twapOrders_eq, ← h.twapHead_eq]
    cases ho : s.twapOrders[s.twapHead]? with
    | none => exact .none
    | some o =>
      simp only
      split
      · exact .some (h.enterTwap ho).processTrade
      · exact .none
  · rw [h.twapOrders_eq, h.twapHead_eq]

theorem Agree.insertAlpha {s : ContractEngine Q} {t : ContractEngine R} (h : Agree s t)
    (alpha : CompactAlpha) : Agree (s.insertAlpha alpha) (t.insertAlpha alpha) := by
  refine ⟨good_settles.alpha s alpha h.left, good_settles.alpha t alpha h.right, ?_⟩
  have hslices : s.slices alpha = t.slices alpha := by
    have htarget : s.targetVolume = t.targetVolume := congrArg Plan.targetVolume h.plan_eq
    have hnum : s.sessionNum = t.sessionNum := congrArg Plan.sessionNum h.plan_eq
    have hlength : s.sessionLength = t.sessionLength := congrArg Plan.sessionLength h.plan_eq
    simp only [slices, alphaDirection, htarget, hnum, hlength]
  have habs : ∀ {P : Direction → Type} [OrderQueue P] [LawfulOrderQueue P]
      (u : ContractEngine P), abs (u.insertAlpha alpha) = { abs u with
        plan := { u.plan with
          targetVolume := alpha.targetVolume, twapOrders := u.twapOrders ++ u.slices alpha } } := by
    intro P _ _ u
    rw [insertAlpha_eq]
    rfl
  rw [habs, habs, h.abs_eq, h.plan_eq, h.twapOrders_eq, hslices]

/-! ## Immediate orders -/

section immediate
variable {d : Direction} {l : Lot}

theorem abs_of_sameBook {s t : ContractEngine Q} (h : SameBook s t) : abs t = abs s := by
  have hlots : (abs t).lots = (abs s).lots := by
    funext d
    exact congrArg lots (h.book d)
  have hscalars : abs t = { abs s with lots := (abs t).lots } := by
    rw [h.scalars]
    rfl
  rw [hscalars, hlots]

theorem immediateDeal_abs_eq {s : ContractEngine Q} {t : ContractEngine R}
    {o o' : CompactOrderLog} (hs : FillsLot d l s o) (ht : FillsLot d l t o')
    (hvol : o.volume = o'.volume) (h : abs s = abs t) :
    abs (s.immediateDeal o).1 = abs (t.immediateDeal o').1 := by
  have habs : absFill (s, o) = absFill (t, o') := by simp only [absFill, h, hvol]
  have hend := refines_immediateDeal.exec_eq (unitFill_rightUnique anyPrice d l)
    refines_immediateDeal immediateDealStep_decreases immediateDealStep_decreases hs ht habs
  exact congrArg Prod.fst hend

theorem bestFivePrice_abs_eq {s : ContractEngine Q} {t : ContractEngine R}
    {o o' : CompactOrderLog} (hs : FillsLot d l s o) (ht : FillsLot d l t o')
    (hvol : o.volume = o'.volume) (h : abs s = abs t) :
    abs (s.bestFivePrice o).1 = abs (t.bestFivePrice o').1 := by
  have habs : absFive ⟨s, o, 0, -1⟩ = absFive ⟨t, o', 0, -1⟩ := by simp only [absFive, h, hvol]
  have hend := refines_bestFivePrice.exec_eq (unitFill_rightUnique fiveLevels d l)
    refines_bestFivePrice bestFiveStep_decreases bestFiveStep_decreases hs ht habs
  exact congrArg Prod.fst hend

/-- The collecting loop covers the volume just if the side holds as many lots. -/
theorem le_collect_iff {s : ContractEngine Q} (hs : Good s) (d : Direction) (volume : ℤ) :
    volume ≤ (collect volume (s.heap d)).2.1 ↔ volume ≤ Multiset.card (lots (s.book d)) := by
  have hnonneg : ∀ o ∈ s.book d, 0 ≤ o.volume := fun o ho =>
    (hs.sound.resting d o ho).volume_pos.le
  rw [card_lots hnonneg]
  exact le_collect_iff_sum volume hnonneg

theorem allOrNothing_abs_eq {s : ContractEngine Q} {t : ContractEngine R}
    {o o' : CompactOrderLog} (hs : FillsLot d l s o) (ht : FillsLot d l t o')
    (hvol : o.volume = o'.volume) (h : abs s = abs t) :
    abs (s.allOrNothing o).1 = abs (t.allOrNothing o').1 := by
  have hlots : lots (s.book d.opposite) = lots (t.book d.opposite) :=
    congrFun (congrArg LotState.lots h) _
  have hiff := le_collect_iff hs.good.good d.opposite o.volume
  have hiff' := le_collect_iff ht.good.good d.opposite o'.volume
  rw [← hlots, ← hvol] at hiff'
  by_cases hle : o.volume ≤ Multiset.card (lots (s.book d.opposite))
  · have hfill := allOrNothing_of_le (s := s) (o := o) (by rw [hs.direction]; exact hiff.mpr hle)
    have hfill' := allOrNothing_of_le (s := t) (o := o')
      (by rw [ht.direction, ← hvol]; exact hiff'.mpr hle)
    rw [abs_of_sameBook hfill.1, abs_of_sameBook hfill'.1]
    exact immediateDeal_abs_eq hs ht hvol h
  · have hkeep := allOrNothing_of_lt (s := s) (o := o)
      (by rw [hs.direction]; exact not_le.mp (mt hiff.mp hle))
    have hkeep' := allOrNothing_of_lt (s := t) (o := o')
      (by rw [ht.direction, ← hvol]; exact not_le.mp (mt hiff'.mp hle))
    rw [abs_of_sameBook hkeep.1, abs_of_sameBook hkeep'.1]
    exact h

theorem Agree.insertImmediateOrder {s : ContractEngine Q} {t : ContractEngine R} (h : Agree s t)
    {o : CompactOrderLog} (ho : Placed o) :
    abs (s.insertImmediateOrder o) = abs (t.insertImmediateOrder o) := by
  have hfills : ∀ {P : Direction → Type} [OrderQueue P] [LawfulOrderQueue P]
      {u : ContractEngine P}, Good u → ContractType.BestFivePriceNoLeft.code ≤ o.type →
      o.type ≤ ContractType.AllOrNothing.code →
      FillsLot o.direction o.lot (u.log (.immediate (u.named o))) (u.named o) :=
    fun hu hge hle => ⟨hu.arrive ho hge hle, rfl, rfl⟩
  have habs : abs (s.log (.immediate (s.named o))) = abs (t.log (.immediate (t.named o))) :=
    h.abs_eq
  unfold ContractEngine.insertImmediateOrder
  split
  · next htype =>
    have hge : ContractType.BestFivePriceNoLeft.code ≤ o.type := htype.ge
    have hle : o.type ≤ ContractType.AllOrNothing.code := by rw [htype]; decide
    exact bestFivePrice_abs_eq (hfills h.left hge hle) (hfills h.right hge hle) rfl habs
  · split
    · next htype =>
      have hge : ContractType.BestFivePriceNoLeft.code ≤ o.type := by rw [htype]; decide
      have hle : o.type ≤ ContractType.AllOrNothing.code := by rw [htype]; decide
      exact immediateDeal_abs_eq (hfills h.left hge hle) (hfills h.right hge hle) rfl habs
    · split
      · next htype =>
        have hge : ContractType.BestFivePriceNoLeft.code ≤ o.type := by rw [htype]; decide
        exact allOrNothing_abs_eq (hfills h.left hge htype.le) (hfills h.right hge htype.le) rfl
          habs
      · exact h.abs_eq

end immediate

/-! ## Runs -/

theorem Agree.insertOrderLog {s : ContractEngine Q} {t : ContractEngine R} (h : Agree s t)
    {o : CompactOrderLog} (ho : Placed o) :
    Agree (s.insertOrderLog o) (t.insertOrderLog o) := by
  refine ⟨good_settles.insertOrderLog h.left ho, good_settles.insertOrderLog h.right ho, ?_⟩
  have hrel := h.release o.timestamp
  unfold ContractEngine.insertOrderLog
  rw [releaseDue_eq, releaseDue_eq]
  simp only
  split
  · next htype =>
    have hbook := hrel.insertBookOrder o
    have hagree := Agree.mk (good_settles.insertBookOrder hrel.left ho htype)
      (good_settles.insertBookOrder hrel.right ho htype) hbook
    exact hagree.processTrade.abs_eq
  · exact hrel.insertImmediateOrder ho

theorem Agree.apply {s : ContractEngine Q} {t : ContractEngine R} (h : Agree s t) {op : Op}
    (hok : ∀ o, op = .insertOrderLog o → Placed o) : Agree (s.apply op) (t.apply op) := by
  cases op with
  | insertAlpha alpha => exact h.insertAlpha alpha
  | insertOrderLog o => exact h.insertOrderLog (hok o rfl)
  | onComplete => exact h.release maxInt

/-- **Two engines with one state by lots keep one state by lots.** -/
theorem Agree.run {s : ContractEngine Q} {t : ContractEngine R} (h : Agree s t) {ops : List Op}
    (hok : LogsSatisfy Placed ops) : Agree (s.run ops) (t.run ops) := by
  induction ops generalizing s t with
  | nil => exact h
  | cons op ops ih =>
    rw [run_cons, run_cons]
    exact ih (h.apply fun o ho => hok o (by rw [ho]; exact List.mem_cons_self))
      fun o ho => hok o (List.mem_cons_of_mem _ ho)

theorem agree_new (sessionNum sessionLength : ℤ) {info : CompactPrevTradeInfo}
    (hinfo : OnGrid info.prevClosePrice) (hnonneg : 0 ≤ info.prevClosePrice)
    (instrument : UInt64) :
    Agree (new sessionNum sessionLength info instrument : ContractEngine Q)
      (new sessionNum sessionLength info instrument : ContractEngine R) := by
  refine ⟨good_new _ _ hinfo hnonneg _, good_new _ _ hinfo hnonneg _, ?_⟩
  simp only [abs, LotState.mk.injEq]
  refine ⟨?_, rfl, rfl, rfl, rfl⟩
  funext d
  have hQ : (new sessionNum sessionLength info instrument : ContractEngine Q).book d = 0 :=
    LawfulOrderQueue.contents_new d
  have hR : (new sessionNum sessionLength info instrument : ContractEngine R).book d = 0 :=
    LawfulOrderQueue.contents_new d
  rw [hQ, hR]

/-- **The heaps agree with the sorted book** after every list of calls. -/
theorem agrees_with_sortedBook (sessionNum sessionLength : ℤ) {info : CompactPrevTradeInfo}
    (hinfo : OnGrid info.prevClosePrice) (hnonneg : 0 ≤ info.prevClosePrice)
    (instrument : UInt64) {ops : List Op}
    (hok : LogsSatisfy (fun o => 0 < o.volume ∧ OnGrid o.price ∧
      (ContractType.BestFivePriceNoLeft.code ≤ o.type → 0 ≤ o.price)) ops) :
    let s := (new sessionNum sessionLength info instrument : ContractEngine OrderHeap).run ops
    let t := (new sessionNum sessionLength info instrument : ContractEngine SortedBook).run ops
    s.lastPrice = t.lastPrice ∧ s.income = t.income ∧ s.getPosition = t.getPosition ∧
      s.twapHead = t.twapHead ∧ s.twapOrders = t.twapOrders ∧
      ∀ d price timestamp type,
        volumeOf (fun o => o.price = price ∧ o.timestamp = timestamp ∧ o.type = type) (s.book d) =
          volumeOf (fun o => o.price = price ∧ o.timestamp = timestamp ∧ o.type = type)
            (t.book d) := by
  intro s t
  have h : Agree s t := (agree_new sessionNum sessionLength hinfo hnonneg instrument).run hok
  refine ⟨h.lastPrice_eq, congrArg LotState.income h.abs_eq, congrArg LotState.volume h.abs_eq,
    h.twapHead_eq, h.twapOrders_eq, fun d price timestamp type => ?_⟩
  have hvol : ∀ {P : Direction → Type} [OrderQueue P] [LawfulOrderQueue P]
      {u : ContractEngine P}, Good u →
      volumeOf (fun o => o.price = price ∧ o.timestamp = timestamp ∧ o.type = type) (u.book d) =
        (lots (u.book d)).count ⟨price, timestamp, type⟩ := by
    intro P _ _ u hu
    rw [count_lots _ fun o ho => (hu.sound.resting d o ho).volume_pos.le]
    simp only [CompactOrderLog.lot, Lot.mk.injEq]
  rw [hvol h.left, hvol h.right, h.lots_eq]

/-- Four sales tie and an immediate buy takes three lots: the heap takes the third of them
from the fourth sale, the reference from the third one, and both leave four lots. -/
theorem agrees_of_tie :
    let ops : List Op := [.insertOrderLog ⟨0, 1, 1 / 100, 0, 0⟩,
      .insertOrderLog ⟨0, 1, 1 / 100, 0, 0⟩, .insertOrderLog ⟨0, 2, 1 / 100, 0, 0⟩,
      .insertOrderLog ⟨0, 3, 1 / 100, 0, 0⟩, .insertOrderLog ⟨1, 3, 11, 12, 0⟩]
    let s := (new 3 1 ⟨10, 0⟩ 1 : ContractEngine OrderHeap).run ops
    let t := (new 3 1 ⟨10, 0⟩ 1 : ContractEngine SortedBook).run ops
    (OrderQueue.top (s.heap .Sale)).volume ≠ (OrderQueue.top (t.heap .Sale)).volume ∧
      s.lastPrice = t.lastPrice ∧
      volumeOf (fun o => o.price = 1001 / 100 ∧ o.timestamp = 0 ∧ o.type = 0) (s.book .Sale) =
        volumeOf (fun o => o.price = 1001 / 100 ∧ o.timestamp = 0 ∧ o.type = 0)
          (t.book .Sale) := by
  intro ops s t
  have hinfo : OnGrid (⟨10, 0⟩ : CompactPrevTradeInfo).prevClosePrice := by decide +kernel
  have hok : LogsSatisfy (fun o => 0 < o.volume ∧ OnGrid o.price ∧
      (ContractType.BestFivePriceNoLeft.code ≤ o.type → 0 ≤ o.price)) ops := by decide +kernel
  obtain ⟨hlast, -, -, -, -, hbook⟩ :=
    agrees_with_sortedBook 3 1 hinfo (by norm_num) 1 hok
  exact ⟨by decide +kernel, hlast, hbook .Sale (1001 / 100) 0 0⟩

end MatchingEngine.ContractEngine
