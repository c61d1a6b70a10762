import Mathlib
import MatchingEngine.Lib.Refinement
import MatchingEngine.BinaryHeap.Image
import MatchingEngine.Contract.Release

/-!
# A run at another time

The engine compares timestamps with each other and does nothing else with them.  A run whose
calls all come later by `c` leaves every timestamp later by `c` and nothing else changed, down
to the layout of the heaps.  Only `onComplete` compares with a time of its own, which must not
fall between a timestamp and its delayed one.

## Main definitions

* `CompactOrderLog.delay`, `Op.delay` — the same later by `c`.
* `Later c s t` — `t` is `s` with every timestamp later by `c`.
* `Later.insertOrderLog`, `Later.run`, `Later.onComplete` — the operations keep it.
-/

namespace MatchingEngine

namespace CompactOrderLog

/-- The order later by `c`. -/
def delay (c : ℤ) (o : CompactOrderLog) : CompactOrderLog :=
  { o with timestamp := o.timestamp + c }

section delay
variable (c : ℤ) (o : CompactOrderLog)

@[simp] theorem timestamp_delay : (o.delay c).timestamp = o.timestamp + c := rfl
@[simp] theorem volume_delay : (o.delay c).volume = o.volume := rfl
@[simp] theorem price_delay : (o.delay c).price = o.price := rfl
@[simp] theorem type_delay : (o.delay c).type = o.type := rfl
@[simp] theorem direction_delay : (o.delay c).direction = o.direction := rfl
@[simp] theorem twapDirection_delay : (o.delay c).twapDirection = o.twapDirection := rfl
@[simp] theorem reduce_delay (v : ℤ) : (o.delay c).reduce v = (o.reduce v).delay c := rfl

end delay

end CompactOrderLog

/-- The comparators compare timestamps with each other only. -/
theorem cmp_delay (c : ℤ) (d : Direction) (o1 o2 : CompactOrderLog) :
    d.cmp (o1.delay c) (o2.delay c) = d.cmp o1 o2 := by
  have hlt : ((o1.delay c).timestamp < (o2.delay c).timestamp) = (o1.timestamp < o2.timestamp) := by
    simp
  by_cases ht : o1.timestamp = o2.timestamp
  · have ht' : (o1.delay c).timestamp = (o2.delay c).timestamp := by simp [ht]
    cases d <;>
    · simp only [Direction.cmp, minBinaryHeapCmp, maxBinaryHeapCmp, ht, ht', ne_eq, not_true_eq_false,
        if_false]
      rfl
  · have ht' : (o1.delay c).timestamp ≠ (o2.delay c).timestamp := by simp [ht]
    cases d <;>
    · simp only [Direction.cmp, minBinaryHeapCmp, maxBinaryHeapCmp, ne_eq, ht, ht', not_false_eq_true,
        if_true, hlt]
      rfl

/-- The event with its orders later by `c`. -/
def Event.delay (c : ℤ) : Event → Event
  | .insert d o => .insert d (o.delay c)
  | .immediate o => .immediate (o.delay c)
  | .trade saleOrder buyOrder tradePrice tradeVolume position =>
    .trade (saleOrder.delay c) (buyOrder.delay c) tradePrice tradeVolume position
  | .discard o => .discard (o.delay c)

namespace ContractEngine

open BinaryHeap (Image)

/-- The engine with every timestamp later by `c`, and with other heaps. -/
def later (c : ℤ) (heap : (d : Direction) → OrderHeap d) (s : ContractEngine OrderHeap) :
    ContractEngine OrderHeap :=
  { s with
    heap := heap
    twapOrders := s.twapOrders.map (CompactOrderLog.delay c)
    history := s.history.map (Event.delay c) }

/-- `t` is `s` with every timestamp later by `c`. -/
inductive Later (c : ℤ) (s : ContractEngine OrderHeap) : ContractEngine OrderHeap → Prop
  | mk (heap : (d : Direction) → OrderHeap d)
      (himage : ∀ d, Image (CompactOrderLog.delay c) (s.heap d) (heap d)) :
      Later c s (s.later c heap)

theorem later_ite {c : ℤ} {s s' t t' : ContractEngine OrderHeap} {P P' : Prop} [Decidable P]
    [Decidable P'] (hP : P' ↔ P) (h : Later c s t) (h' : Later c s' t') :
    Later c (if P then s else s') (if P' then t else t') := by
  by_cases hs : P
  · rwa [if_pos hs, if_pos (hP.mpr hs)]
  · rwa [if_neg hs, if_neg (mt hP.mp hs)]

theorem later_new (c sessionNum sessionLength : ℤ) (info : CompactPrevTradeInfo)
    (instrument : UInt64) :
    Later c (new sessionNum sessionLength info instrument)
      (new sessionNum sessionLength info instrument) :=
  .mk OrderQueue.new fun _ => BinaryHeap.image_new _ _ _

/-! ## The heaps -/

section heaps
variable {c : ℤ} {s t : ContractEngine OrderHeap} (h : Later c s t)
include h

theorem Later.image (d : Direction) : Image (CompactOrderLog.delay c) (s.heap d) (t.heap d) := by
  cases h with
  | mk heap himage => exact himage d

theorem Later.isEmpty (d : Direction) :
    OrderQueue.isEmpty (t.heap d) = OrderQueue.isEmpty (s.heap d) := (h.image d).isEmpty

theorem Later.size (d : Direction) :
    OrderQueue.size (t.heap d) = OrderQueue.size (s.heap d) := (h.image d).size

theorem Later.top {d : Direction} (hne : OrderQueue.isEmpty (s.heap d) = false) :
    OrderQueue.top (t.heap d) = (OrderQueue.top (s.heap d)).delay c :=
  (h.image d).top (BinaryHeap.size_pos_of_not_isEmpty hne)

theorem Later.setHeap {d : Direction} {q q' : OrderHeap d}
    (hq : Image (CompactOrderLog.delay c) q q') : Later c (s.setHeap d q) (t.setHeap d q') := by
  cases h with
  | mk heap himage =>
    refine Later.mk (s := s.setHeap d q) (Function.update heap d q') fun e => ?_
    by_cases he : e = d
    · subst he
      rwa [heap_setHeap_self, Function.update_self]
    · rw [heap_setHeap_of_ne _ _ he, Function.update_of_ne he]
      exact himage e

theorem Later.log (e : Event) : Later c (s.log e) (t.log (e.delay c)) := by
  cases h with
  | mk heap himage =>
    have hlog : (s.later c heap).log (e.delay c) = (s.log e).later c heap := by
      simp [ContractEngine.log, later]
    rw [hlog]
    exact .mk heap himage

theorem Later.named (o : CompactOrderLog) : t.named (o.delay c) = (s.named o).delay c := by
  cases h with
  | mk heap himage => simp [ContractEngine.named, later, CompactOrderLog.delay]

theorem Later.insertOrder (d : Direction) (o : CompactOrderLog) :
    Later c (s.insertOrder d o) (t.insertOrder d (o.delay c)) := by
  simp only [ContractEngine.insertOrder, h.named]
  exact (h.setHeap ((h.image d).insert (cmp_delay c d) _)).log _

theorem Later.basePrice (direction : Option Direction) :
    t.getCurrentBasePrice direction = s.getCurrentBasePrice direction := by
  have hlast : t.lastPrice = s.lastPrice := by cases h; rfl
  cases direction with
  | none => exact hlast
  | some d =>
    simp only [getCurrentBasePrice, h.isEmpty]
    by_cases hopposite : OrderQueue.isEmpty (s.heap d.opposite) = false
    · rw [if_pos hopposite, if_pos hopposite, h.top hopposite, CompactOrderLog.price_delay]
    · rw [if_neg hopposite, if_neg hopposite]
      by_cases hown : OrderQueue.isEmpty (s.heap d) = false
      · rw [if_pos hown, if_pos hown, h.top hown, CompactOrderLog.price_delay]
      · rw [if_neg hown, if_neg hown, hlast]

end heaps

/-! ## Alphas -/

theorem Later.insertAlpha {c : ℤ} {s t : ContractEngine OrderHeap} (h : Later c s t)
    (alpha : CompactAlpha) :
    Later c (s.insertAlpha alpha) (t.insertAlpha { alpha with timestamp := alpha.timestamp + c }) := by
  cases h with
  | mk heap himage =>
    have hslice : ∀ (n length : ℤ) (d : Direction) (diff : ℤ) (i : ℕ),
        twapSlice n length { alpha with timestamp := alpha.timestamp + c } d diff i =
          (twapSlice n length alpha d diff i).delay c := by
      intro n length d diff i
      simp only [twapSlice, CompactOrderLog.delay, Arithmetic.int_exact, CompactOrderLog.mk.injEq,
        and_true]
      ring
    have hslices : (s.later c heap).slices { alpha with timestamp := alpha.timestamp + c } =
        (s.slices alpha).map (CompactOrderLog.delay c) := by
      by_cases heq : alpha.targetVolume = s.targetVolume
      · simp [slices, later, heq]
      · rw [slices, slices, if_neg heq, if_neg (by exact heq), List.map_map]
        exact List.map_congr_left fun i _ => hslice _ _ _ _ i
    have halpha : (s.later c heap).insertAlpha { alpha with timestamp := alpha.timestamp + c } =
        (s.insertAlpha alpha).later c heap := by
      rw [insertAlpha_eq, insertAlpha_eq, hslices]
      simp only [later, List.map_append]
    rw [halpha]
    refine .mk heap ?_
    rw [insertAlpha_eq]
    exact himage

/-! ## Trades -/

theorem tradePrice_delay (c : ℤ) (a b : CompactOrderLog) :
    tradePrice (a.delay c) (b.delay c) = tradePrice a b := by
  by_cases hgt : a.timestamp > b.timestamp
  · simp [tradePrice, hgt]
  · simp [tradePrice, hgt]

theorem roles_delay (c : ℤ) (o a : CompactOrderLog) :
    roles (o.delay c) (a.delay c) = ((roles o a).1.delay c, (roles o a).2.delay c) := by
  simp only [roles, CompactOrderLog.direction_delay]
  cases o.direction <;> rfl

theorem tradeVolumeWith_delay (c : ℤ) (o a : CompactOrderLog) :
    tradeVolumeWith (o.delay c) (a.delay c) = tradeVolumeWith o a := by
  simp only [tradeVolumeWith, roles_delay]
  rfl

section trades
variable {c : ℤ} {s t : ContractEngine OrderHeap} (h : Later c s t)
include h

theorem Later.tradeOrder (a b : CompactOrderLog) :
    Later c (s.tradeOrder a b) (t.tradeOrder (a.delay c) (b.delay c)) := by
  cases h with
  | mk heap himage =>
    have haccount : (s.later c heap).account (a.delay c) (b.delay c) = s.account a b := by
      rw [account, account, tradePrice_delay]
      rfl
    have htrade : (s.later c heap).tradeOrder (a.delay c) (b.delay c) =
        (s.tradeOrder a b).later c heap := by
      rw [ContractEngine.tradeOrder, haccount, tradePrice_delay]
      simp only [ContractEngine.tradeOrder, later, List.map_append]
      rfl
    rw [htrade]
    exact .mk heap himage

theorem Later.tradeWith (o a : CompactOrderLog) :
    Later c (s.tradeWith o a) (t.tradeWith (o.delay c) (a.delay c)) := by
  rw [ContractEngine.tradeWith, ContractEngine.tradeWith, roles_delay]
  exact h.tradeOrder _ _

theorem Later.decreaseTop {d : Direction} (hne : OrderQueue.isEmpty (s.heap d) = false) (v : ℤ) :
    Later c (s.decreaseTop d v) (t.decreaseTop d v) := by
  have hreduce : Image (CompactOrderLog.delay c) (OrderQueue.reduceTop (s.heap d) v)
      (OrderQueue.reduceTop (t.heap d) v) :=
    (h.image d).modifyTop fun a => CompactOrderLog.reduce_delay c a v
  have htop : OrderQueue.top (OrderQueue.reduceTop (t.heap d) v) =
      (OrderQueue.top (OrderQueue.reduceTop (s.heap d) v)).delay c :=
    hreduce.top (BinaryHeap.size_pos_of_not_isEmpty (isEmpty_reduceTop hne v))
  have hvolume : (OrderQueue.top (OrderQueue.reduceTop (t.heap d) v)).volume =
      (OrderQueue.top (OrderQueue.reduceTop (s.heap d) v)).volume := by
    rw [htop, CompactOrderLog.volume_delay]
  simp only [ContractEngine.decreaseTop, hvolume]
  refine h.setHeap ?_
  split
  · exact hreduce.pop (cmp_delay c d)
  · exact hreduce

/-- The tops cross now just if they cross later, and leave the same volumes. -/
theorem Later.processTradeStep : Option.Rel (Later c) (processTradeStep s) (processTradeStep t) := by
  simp only [ContractEngine.processTradeStep, h.isEmpty]
  by_cases hne : OrderQueue.isEmpty (s.heap .Sale) = false ∧
      OrderQueue.isEmpty (s.heap .Buy) = false
  · rw [if_pos hne, if_pos hne, h.top hne.1, h.top hne.2]
    set a := OrderQueue.top (s.heap .Sale)
    set b := OrderQueue.top (s.heap .Buy)
    by_cases hgt : priceGt a.price b.price
    · rw [if_pos hgt, if_pos (by exact hgt)]
      exact .none
    · rw [if_neg hgt, if_neg (by exact hgt)]
      have hsale := (h.tradeOrder a b).decreaseTop (d := .Sale) hne.1 (tradeVolume a b)
      exact .some (hsale.decreaseTop (d := .Buy) hne.2 (tradeVolume a b))
  · rw [if_neg hne, if_neg hne]
    exact .none

theorem Later.processTrade : Later c s.processTrade t.processTrade := by
  refine Loop.exec_related (fun _ _ h => h.processTradeStep) ?_ h
  rw [h.size, h.size]

/-! ## TWAP release -/

theorem Later.priced (o : CompactOrderLog) : t.priced (o.delay c) = (s.priced o).delay c := by
  rw [ContractEngine.priced, ContractEngine.priced, CompactOrderLog.twapDirection_delay,
    h.basePrice]
  rfl

theorem Later.passTwap (o : CompactOrderLog) :
    Later c (s.passTwap o) (t.passTwap (o.delay c)) := by
  have hpriced := h.priced o
  cases h with
  | mk heap himage =>
    have hpass : (s.later c heap).passTwap (o.delay c) = (s.passTwap o).later c heap := by
      rw [ContractEngine.passTwap, hpriced]
      simp only [ContractEngine.passTwap, later, List.map_set]
    rw [hpass]
    exact .mk heap himage

theorem Later.enterTwap (o : CompactOrderLog) :
    Later c (s.enterTwap o) (t.enterTwap (o.delay c)) := by
  cases hd : o.twapDirection with
  | none =>
    rw [enterTwap_of_none s hd, enterTwap_of_none t (o := o.delay c) hd]
    exact h.passTwap o
  | some d =>
    rw [enterTwap_of_some s hd, enterTwap_of_some t (o := o.delay c) hd, h.priced]
    exact later_ite Iff.rfl ((h.passTwap o).insertOrder d _) (h.passTwap o)

/-- **The releases pass in step**, if the entries due are the same. -/
theorem Later.release {currentTime currentTime' : ℤ}
    (hdue : ∀ x ∈ s.plan.timestamps, x < currentTime ↔ x + c < currentTime') :
    Later c (s.processTwapOrdersIfNecessary currentTime)
      (t.processTwapOrdersIfNecessary currentTime') := by
  have horders : ∀ {u v : ContractEngine OrderHeap}, Later c u v →
      v.twapOrders[v.twapHead]? = (u.twapOrders[u.twapHead]?).map (CompactOrderLog.delay c) := by
    intro u v hl
    cases hl with
    | mk heap himage => exact List.getElem?_map
  have hmeasure : s.twapOrders.length - s.twapHead = t.twapOrders.length - t.twapHead := by
    cases h with
    | mk heap himage => simp only [later, List.length_map]
  refine (Loop.exec_related (R := fun u v => Later c u v ∧
    u.plan.timestamps = s.plan.timestamps) ?_ hmeasure ⟨h, rfl⟩).1
  intro u v ⟨hl, htimes⟩
  simp only [twapStep, horders hl]
  cases ho : u.twapOrders[u.twapHead]? with
  | none => exact .none
  | some o =>
    have hmem : o.timestamp ∈ s.plan.timestamps := by
      rw [← htimes]
      exact List.mem_map_of_mem (List.mem_of_getElem? ho)
    simp only [Option.map_some, CompactOrderLog.timestamp_delay, ← hdue _ hmem]
    split
    · exact .some ⟨(hl.enterTwap o).processTrade, (timestamps_releaseTwap ho).trans htimes⟩
    · exact .none

/-! ## Orders that enter the book -/

theorem Later.insertBestPrice (d : Direction) (o : CompactOrderLog) :
    Later c (s.insertBestPrice d o) (t.insertBestPrice d (o.delay c)) := by
  simp only [ContractEngine.insertBestPrice, h.isEmpty]
  by_cases hne : OrderQueue.isEmpty (s.heap d) = false
  · rw [if_pos hne, if_pos hne, h.top hne]
    exact h.insertOrder _ _
  · rw [if_neg hne, if_neg hne]
    exact h

theorem Later.insertPriceLimit (o : CompactOrderLog) :
    Later c (s.insertPriceLimit o) (t.insertPriceLimit (o.delay c)) := by
  have hband : ∀ d p, t.priceBand d p = s.priceBand d p := by cases h; exact fun d p => rfl
  simp only [ContractEngine.insertPriceLimit, CompactOrderLog.direction_delay,
    CompactOrderLog.price_delay, h.basePrice, hband]
  split
  · exact h
  · exact h.insertOrder _ _

theorem Later.insertBookOrder (o : CompactOrderLog) :
    Later c (s.insertBookOrder o) (t.insertBookOrder (o.delay c)) :=
  later_ite Iff.rfl (h.insertPriceLimit o) <| later_ite Iff.rfl (h.insertBestPrice _ o) <|
    later_ite Iff.rfl (h.insertBestPrice _ o) h

end trades

/-! ## Immediate orders -/

/-- The states of the immediate loops: the engine and what is left of the order. -/
structure LaterFill (c : ℤ) (p q : ContractEngine OrderHeap × CompactOrderLog) : Prop where
  engine : Later c p.1 q.1
  order : q.2 = p.2.delay c

section immediate
variable {c : ℤ} {s t : ContractEngine OrderHeap} (h : Later c s t)
include h

theorem Later.canFill (o : CompactOrderLog) : t.CanFill (o.delay c) ↔ s.CanFill o := by
  simp only [CanFill, CompactOrderLog.volume_delay, CompactOrderLog.direction_delay, h.isEmpty]

theorem Later.fillMeasure (o : CompactOrderLog) :
    fillMeasure t (o.delay c) = fillMeasure s o := by
  rw [ContractEngine.fillMeasure, h.size]
  rfl

theorem Later.fillTop {o : CompactOrderLog} (hcan : s.CanFill o) :
    LaterFill c (s.fillTop o) (t.fillTop (o.delay c)) := by
  have htop : OrderQueue.top (t.heap (o.delay c).direction.opposite) =
      (OrderQueue.top (s.heap o.direction.opposite)).delay c := h.top hcan.2
  have htrade := h.tradeWith o (OrderQueue.top (s.heap o.direction.opposite))
  refine ⟨?_, ?_⟩
  · simp only [ContractEngine.fillTop, htop, tradeVolumeWith_delay]
    refine htrade.setHeap ?_
    by_cases hv : tradeVolumeWith o (OrderQueue.top (s.heap o.direction.opposite)) =
        (OrderQueue.top (s.heap o.direction.opposite)).volume
    · rw [if_pos hv, if_pos (by exact hv)]
      exact (htrade.image _).pop (cmp_delay c _)
    · rw [if_neg hv, if_neg (by exact hv)]
      exact (htrade.image _).modifyTop fun a => CompactOrderLog.reduce_delay c a _
  · simp only [ContractEngine.fillTop, htop, tradeVolumeWith_delay, CompactOrderLog.reduce_delay]

theorem Later.immediateDeal (o : CompactOrderLog) :
    LaterFill c (s.immediateDeal o) (t.immediateDeal (o.delay c)) := by
  refine Loop.exec_related ?_ (h.fillMeasure o).symm ⟨h, rfl⟩
  rintro ⟨u, a⟩ ⟨v, b⟩ ⟨hl, rfl⟩
  simp only at hl
  simp only [immediateDealStep, hl.canFill]
  split
  · next hcan => exact .some (hl.fillTop hcan)
  · exact .none

end immediate

/-- The states of the `BestFivePriceNoLeft` loop. -/
structure LaterLevels (c : ℤ) (p q : FiveLevels OrderHeap) : Prop where
  engine : Later c p.engine q.engine
  order : q.order = p.order.delay c
  levelNum : q.levelNum = p.levelNum
  lastPriceLevel : q.lastPriceLevel = p.lastPriceLevel

theorem LaterLevels.step {c : ℤ} {p q : FiveLevels OrderHeap} (h : LaterLevels c p q) :
    Option.Rel (LaterLevels c) (bestFiveStep p) (bestFiveStep q) := by
  obtain ⟨u, a, levelNum, level⟩ := p
  obtain ⟨v, b, levelNum', level'⟩ := q
  obtain ⟨hl, horder, hnum, hlevel⟩ := h
  simp only at hl horder hnum hlevel
  subst horder hnum hlevel
  simp only [bestFiveStep, hl.canFill]
  by_cases hcan : u.CanFill a
  · have htop : OrderQueue.top (v.heap (a.delay c).direction.opposite) =
        (OrderQueue.top (u.heap a.direction.opposite)).delay c := hl.top hcan.2
    have hfill := hl.fillTop hcan
    rw [if_pos hcan, if_pos hcan, htop, CompactOrderLog.price_delay]
    split
    · split
      · exact .none
      · exact .some ⟨hfill.engine, hfill.order, rfl, rfl⟩
    · exact .some ⟨hfill.engine, hfill.order, rfl, rfl⟩
  · rw [if_neg hcan, if_neg hcan]
    exact .none

/-- The states of the collecting loop of `AllOrNothing`. -/
structure LaterPending (c : ℤ) {d : Direction}
    (p q : OrderHeap d × ℤ × List CompactOrderLog) : Prop where
  image : Image (CompactOrderLog.delay c) p.1 q.1
  volumeSum : q.2.1 = p.2.1
  pendingOrders : q.2.2 = p.2.2.map (CompactOrderLog.delay c)

section immediate
variable {c : ℤ} {s t : ContractEngine OrderHeap} (h : Later c s t)
include h

theorem Later.bestFivePrice (o : CompactOrderLog) :
    LaterFill c (s.bestFivePrice o) (t.bestFivePrice (o.delay c)) := by
  have hstart : LaterLevels c ⟨s, o, 0, -1⟩ ⟨t, o.delay c, 0, -1⟩ := ⟨h, rfl, rfl, rfl⟩
  have hend : LaterLevels c (Loop.exec bestFiveStep (fun p => p.engine.fillMeasure p.order) _)
      (Loop.exec bestFiveStep (fun p => p.engine.fillMeasure p.order) _) :=
    Loop.exec_related (fun _ _ hl => LaterLevels.step hl) (h.fillMeasure o).symm hstart
  exact ⟨hend.engine, hend.order⟩

theorem Later.collect (d : Direction) (volume : ℤ) :
    LaterPending c (collect volume (s.heap d)) (collect volume (t.heap d)) := by
  refine Loop.exec_related ?_ (h.size d).symm ⟨h.image d, rfl, rfl⟩
  intro ⟨q, sum, pending⟩ ⟨q', sum', pending'⟩ ⟨himage, hsum, hpending⟩
  simp only at himage hsum hpending
  subst hsum hpending
  have hempty : OrderQueue.isEmpty q' = OrderQueue.isEmpty q := himage.isEmpty
  simp only [collectStep, hempty]
  by_cases hnext : sum' < volume ∧ OrderQueue.isEmpty q = false
  · have htop : (OrderQueue.pop q').1 = ((OrderQueue.pop q).1).delay c :=
      himage.top (BinaryHeap.size_pos_of_not_isEmpty hnext.2)
    rw [if_pos hnext, if_pos hnext, htop]
    refine .some ⟨himage.pop (cmp_delay c d), rfl, ?_⟩
    rw [List.map_append]
    rfl
  · rw [if_neg hnext, if_neg hnext]
    exact .none

theorem Later.tradePending (pendingOrders : List CompactOrderLog) (o : CompactOrderLog) :
    LaterFill c (s.tradePending o pendingOrders)
      (t.tradePending (o.delay c) (pendingOrders.map (CompactOrderLog.delay c))) := by
  induction pendingOrders generalizing s t o with
  | nil => exact ⟨h, rfl⟩
  | cons a pendingOrders ih =>
    have htrade := h.tradeWith o a
    simp only [List.map_cons, ContractEngine.tradePending, tradeVolumeWith_delay,
      CompactOrderLog.reduce_delay]
    refine ih (later_ite Iff.rfl (htrade.setHeap ?_) htrade) _
    exact (htrade.image _).insert (cmp_delay c _) _

end immediate

theorem image_foldl_insert {c : ℤ} {d : Direction} (l : List CompactOrderLog)
    {q q' : OrderHeap d} (h : Image (CompactOrderLog.delay c) q q') :
    Image (CompactOrderLog.delay c) (l.foldl (OrderQueue.insert (Q := OrderHeap)) q)
      ((l.map (CompactOrderLog.delay c)).foldl (OrderQueue.insert (Q := OrderHeap)) q') := by
  induction l generalizing q q' with
  | nil => exact h
  | cons o l ih => exact ih (h.insert (cmp_delay c d) o)

section runs
variable {c : ℤ} {s t : ContractEngine OrderHeap} (h : Later c s t)
include h

theorem Later.allOrNothing (o : CompactOrderLog) :
    LaterFill c (s.allOrNothing o) (t.allOrNothing (o.delay c)) := by
  have hcollect := h.collect o.direction.opposite o.volume
  simp only [ContractEngine.allOrNothing, CompactOrderLog.volume_delay,
    CompactOrderLog.direction_delay, hcollect.volumeSum, hcollect.pendingOrders]
  split
  · exact (h.setHeap hcollect.image).tradePending _ o
  · exact ⟨h.setHeap (image_foldl_insert _ hcollect.image), rfl⟩

theorem Later.runImmediate
    {fill : ContractEngine OrderHeap → CompactOrderLog → ContractEngine OrderHeap × CompactOrderLog}
    (hfill : ∀ {u v : ContractEngine OrderHeap}, Later c u v →
      ∀ a, LaterFill c (fill u a) (fill v (a.delay c))) (o : CompactOrderLog) :
    Later c (s.runImmediate fill o) (t.runImmediate fill (o.delay c)) := by
  have hend := hfill (h.log (.immediate (s.named o))) (s.named o)
  simp only [ContractEngine.runImmediate, h.named]
  have horder := hend.order
  simp only [Event.delay] at horder hend
  rw [horder]
  exact hend.engine.log _

theorem Later.insertImmediateOrder (o : CompactOrderLog) :
    Later c (s.insertImmediateOrder o) (t.insertImmediateOrder (o.delay c)) :=
  later_ite Iff.rfl (h.runImmediate (fun hl => hl.bestFivePrice) o) <|
    later_ite Iff.rfl (h.runImmediate (fun hl => hl.immediateDeal) o) <|
      later_ite Iff.rfl (h.runImmediate (fun hl => hl.allOrNothing) o) h

/-! ## Runs -/

theorem Later.insertOrderLog (o : CompactOrderLog) :
    Later c (s.insertOrderLog o) (t.insertOrderLog (o.delay c)) := by
  have hrelease : Later c (s.processTwapOrdersIfNecessary o.timestamp)
      (t.processTwapOrdersIfNecessary (o.timestamp + c)) := h.release fun x _ => by omega
  simp only [ContractEngine.insertOrderLog, releaseDue_eq]
  exact later_ite Iff.rfl (hrelease.insertBookOrder o).processTrade
    (hrelease.insertImmediateOrder o)

end runs

/-- The calls of alphas and order logs later by `c`. -/
def Op.delay (c : ℤ) : Op → Op
  | .insertAlpha alpha => .insertAlpha { alpha with timestamp := alpha.timestamp + c }
  | .insertOrderLog o => .insertOrderLog (o.delay c)
  | .onComplete => .onComplete

/-- **A run of later calls is the run, later.** -/
theorem Later.run {c : ℤ} {s t : ContractEngine OrderHeap} (h : Later c s t) {ops : List Op}
    (hops : Op.onComplete ∉ ops) : Later c (s.run ops) (t.run (ops.map (Op.delay c))) := by
  induction ops generalizing s t with
  | nil => exact h
  | cons op ops ih =>
    rw [List.map_cons, run_cons, run_cons]
    refine ih ?_ fun hop => hops (List.mem_cons_of_mem _ hop)
    cases op with
    | insertAlpha alpha => exact h.insertAlpha alpha
    | insertOrderLog o => exact h.insertOrderLog o
    | onComplete => exact absurd List.mem_cons_self hops

/-- **The last release too**, if it finds the same entries due. -/
theorem Later.onComplete {c : ℤ} {s t : ContractEngine OrderHeap} (h : Later c s t)
    (hdue : ∀ x ∈ s.plan.timestamps, x < maxInt ↔ x + c < maxInt) :
    Later c s.onComplete t.onComplete := h.release hdue

/-! ## What a later engine answers -/

section answers
variable {c : ℤ} {s t : ContractEngine OrderHeap} (h : Later c s t)
include h

theorem Later.getPosition : t.getPosition = s.getPosition := by cases h; rfl

theorem Later.getPNL : t.getPNL = s.getPNL := by cases h; rfl

theorem Later.instrument : t.instrument = s.instrument := by cases h; rfl

theorem Later.twapOrders : t.twapOrders = s.twapOrders.map (CompactOrderLog.delay c) := by
  cases h
  rfl

theorem Later.timestamps : t.plan.timestamps = s.plan.timestamps.map (· + c) := by
  rw [Plan.timestamps, Plan.timestamps, List.map_map]
  exact (congrArg (List.map _) h.twapOrders).trans (List.map_map ..)

end answers

end ContractEngine
end MatchingEngine
