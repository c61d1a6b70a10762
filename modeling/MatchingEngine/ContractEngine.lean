import Mathlib
import MatchingEngine.Lib.Loop
import MatchingEngine.Common
import MatchingEngine.OrderQueue

/-!
# The contract engine

`contract_engine.h` and `contract_engine.cpp`: the matching engine of one instrument.
The two heaps are the family `heap` of queues, one per direction; the engine of the
source is `ContractEngine OrderHeap`.  It computes in the arithmetic `A`, which is exact where
it is not named.  Loops are `Loop.exec` of the step written next to them.

`history` is a history variable: the engine appends to it and never reads it, save that
the position of an arrival names the arriving order.  It records which orders entered a
heap, which immediate orders arrived, the arguments of every call of `tradeOrder` with
the price, the volume and the own position before it, and what an immediate order left
unfilled.

The debug log of the source is off and is left out.

## Main definitions

* `ContractEngine Q A` — the state, `ContractEngine.new` the constructor.
* `insertAlpha`, `insertOrderLog`, `onComplete` — the public operations.
* `getCurrentBasePrice`, `tradeOrder`, `processTrade`, `processTwapOrdersIfNecessary` —
  the private ones.
* `Op`, `run` — a run of public operations.
-/

namespace MatchingEngine

/-- What happened to the orders of an engine. -/
inductive Event
  /-- An arriving order, or a released TWAP order, entered the heap of direction `d`. -/
  | insert (d : Direction) (o : CompactOrderLog)
  /-- An immediate order arrived. -/
  | immediate (o : CompactOrderLog)
  /-- `tradeOrder` was called; `position` is the own position before it. -/
  | trade (saleOrder buyOrder : CompactOrderLog) (tradePrice : ℚ) (tradeVolume position : ℤ)
  /-- An immediate order finished, with the volume it did not trade. -/
  | discard (o : CompactOrderLog)
  deriving DecidableEq, Repr

/-- The state of an engine, which computes in the arithmetic `A`. -/
structure ContractEngine (Q : Direction → Type) (A : Arithmetic := Arithmetic.exact) where
  income : ℚ
  lastPrice : ℚ
  upLimit : ℚ
  downLimit : ℚ
  volume : ℤ
  targetVolume : ℤ
  sessionNum : ℤ
  sessionLength : ℤ
  instrument : UInt64
  prevTradeInfo : CompactPrevTradeInfo
  heap : (d : Direction) → Q d
  /-- The first `twapSize` entries of the array of that name. -/
  twapOrders : List CompactOrderLog
  twapHead : ℕ
  history : List Event

namespace ContractEngine

open Arithmetic

variable {Q : Direction → Type} [OrderQueue Q] {A : Arithmetic}

/-- The constructor. -/
def new (sessionNum sessionLength : ℤ) (prevTradeInfo : CompactPrevTradeInfo)
    (instrument : UInt64) : ContractEngine Q A where
  income := 0
  lastPrice := prevTradeInfo.prevClosePrice
  upLimit := highPrecisionRound2 (double (prevTradeInfo.prevClosePrice * double (11 / 10)))
  downLimit := highPrecisionRound2 (double (prevTradeInfo.prevClosePrice * double (9 / 10)))
  volume := prevTradeInfo.prevPosition
  targetVolume := prevTradeInfo.prevPosition
  sessionNum := sessionNum
  sessionLength := sessionLength
  instrument := instrument
  prevTradeInfo := prevTradeInfo
  heap := OrderQueue.new
  twapOrders := []
  twapHead := 0
  history := []

omit [OrderQueue Q] in
/-- `twapSize` -/
def twapSize (s : ContractEngine Q A) : ℕ := s.twapOrders.length

/-- Replace the heap of direction `d`. -/
def setHeap (s : ContractEngine Q A) (d : Direction) (q : Q d) : ContractEngine Q A :=
  { s with heap := Function.update s.heap d q }

/-- Append to the history. -/
def log (s : ContractEngine Q A) (e : Event) : ContractEngine Q A :=
  { s with history := s.history ++ [e] }

/-- The name an order gets when it arrives: its place in the history. -/
def named (s : ContractEngine Q A) (o : CompactOrderLog) : CompactOrderLog :=
  { o with id := s.history.length }

/-- `heap->insert(orderLog)` for an order that arrives. -/
def insertOrder (s : ContractEngine Q A) (d : Direction) (o : CompactOrderLog) :
    ContractEngine Q A :=
  (s.setHeap d (OrderQueue.insert (s.heap d) (s.named o))).log (.insert d (s.named o))

/-! ## Alphas -/

/-- The TWAP order of slice `i`, for a change of the target by `diff` lots. -/
def twapSlice [A : Arithmetic] (sessionNum sessionLength : ℤ) (alpha : CompactAlpha)
    (direction : Direction) (diff : ℤ) (i : ℕ) : CompactOrderLog where
  timestamp := int (alpha.timestamp + int (int (i * sessionLength) * 1000))
  volume := int ((int (diff * (i + 1))).tdiv sessionNum - (int (diff * i)).tdiv sessionNum)
  price := 0
  directionAndType := direction.code <<< directionOffset ||| UInt8.ofNat ContractType.MyContract.code

/-- Plan the TWAP orders that move the target volume to that of `alpha`. -/
def insertAlpha (s : ContractEngine Q A) (alpha : CompactAlpha) : ContractEngine Q A :=
  let diff := int (alpha.targetVolume - s.targetVolume)
  if diff = 0 then s
  else
    let direction := if 0 < diff then Direction.Buy else .Sale
    let diff := if diff < 0 then int (-diff) else diff
    { s with
      targetVolume := alpha.targetVolume
      twapOrders := s.twapOrders ++ (List.range s.sessionNum.toNat).map
        (twapSlice s.sessionNum s.sessionLength alpha direction diff) }

/-! ## Trades -/

/-- The reference price of an order: the best price of the other side, else of its own,
else the last trade price. -/
def getCurrentBasePrice (s : ContractEngine Q A) (direction : Option Direction) : ℚ :=
  match direction with
  | some d =>
    if OrderQueue.isEmpty (s.heap d.opposite) = false then
      (OrderQueue.top (s.heap d.opposite)).price
    else if OrderQueue.isEmpty (s.heap d) = false then (OrderQueue.top (s.heap d)).price
    else s.lastPrice
  | none => s.lastPrice

/-- The price of a trade, rule 3.4.4. -/
def tradePrice [A : Arithmetic] (saleOrder buyOrder : CompactOrderLog) : ℚ :=
  if priceEq saleOrder.price buyOrder.price then saleOrder.price
  else if saleOrder.timestamp > buyOrder.timestamp then buyOrder.price
  else saleOrder.price

/-- The volume of a trade. -/
def tradeVolume (saleOrder buyOrder : CompactOrderLog) : ℤ := min saleOrder.volume buyOrder.volume

/-- The income and the own position after a trade, which moves them if it has an own order. -/
def account (s : ContractEngine Q A) (saleOrder buyOrder : CompactOrderLog) : ℚ × ℤ :=
  let v := tradeVolume saleOrder buyOrder
  let amount := highPrecisionRound2 (double (tradePrice saleOrder buyOrder * v))
  if saleOrder.IsOwn then (double (s.income + amount), int (s.volume - v))
  else if buyOrder.IsOwn then (double (s.income - amount), int (s.volume + v))
  else (s.income, s.volume)

/-- Trade the two orders: set `lastPrice`, and account for the trade.  The heaps are left
to the caller. -/
def tradeOrder (s : ContractEngine Q A) (saleOrder buyOrder : CompactOrderLog) :
    ContractEngine Q A :=
  { s with
    lastPrice := tradePrice saleOrder buyOrder
    income := (s.account saleOrder buyOrder).1
    volume := (s.account saleOrder buyOrder).2
    history := s.history ++ [.trade saleOrder buyOrder (tradePrice saleOrder buyOrder)
      (tradeVolume saleOrder buyOrder) s.volume] }

/-- Take `v` off the volume of the top of a heap; the top leaves when it has no volume. -/
def decreaseTop (s : ContractEngine Q A) (d : Direction) (v : ℤ) : ContractEngine Q A :=
  let q := OrderQueue.reduceTop (s.heap d) v
  s.setHeap d (if (OrderQueue.top q).volume = 0 then (OrderQueue.pop q).2 else q)

/-- One pass of `processTrade`: trade the two tops if they cross. -/
def processTradeStep (s : ContractEngine Q A) : Option (ContractEngine Q A) :=
  if OrderQueue.isEmpty (s.heap .Sale) = false ∧ OrderQueue.isEmpty (s.heap .Buy) = false then
    let saleOrder := OrderQueue.top (s.heap .Sale)
    let buyOrder := OrderQueue.top (s.heap .Buy)
    if priceGt saleOrder.price buyOrder.price then none
    else
      let v := tradeVolume saleOrder buyOrder
      some (((s.tradeOrder saleOrder buyOrder).decreaseTop .Sale v).decreaseTop .Buy v)
  else none

/-- Trade while the best sale and the best buy cross. -/
def processTrade : ContractEngine Q A → ContractEngine Q A :=
  Loop.exec processTradeStep fun s =>
    OrderQueue.size (s.heap .Sale) + OrderQueue.size (s.heap .Buy)

/-! ## TWAP release -/

/-- Take the TWAP order `o` at the head: price it, and insert it unless it is empty. -/
def enterTwap (s : ContractEngine Q A) (o : CompactOrderLog) : ContractEngine Q A :=
  let direction := o.twapDirection
  let o := { o with price := s.getCurrentBasePrice direction }
  let s := { s with twapHead := s.twapHead + 1, twapOrders := s.twapOrders.set s.twapHead o }
  if o.volume ≠ 0 then
    match direction with
    | some d => s.insertOrder d o
    | none => s
  else s

/-- One pass of `processTwapOrdersIfNecessary`. -/
def twapStep (currentTime : ℤ) (s : ContractEngine Q A) : Option (ContractEngine Q A) :=
  match s.twapOrders[s.twapHead]? with
  | some o => if o.timestamp < currentTime then some (s.enterTwap o).processTrade else none
  | none => none

/-- Release the TWAP orders from the head on whose timestamp is before `currentTime`. -/
def processTwapOrdersIfNecessary (currentTime : ℤ) : ContractEngine Q A → ContractEngine Q A :=
  Loop.exec (twapStep currentTime) fun s => s.twapOrders.length - s.twapHead

/-! ## Orders that enter the book -/

/-- The lower and the upper price limit of a `PriceLimit` order, rules 3.3.13 and 3.3.16. -/
def priceBand (s : ContractEngine Q A) (direction : Direction) (basePrice : ℚ) : ℚ × ℚ :=
  match direction with
  | .Buy => (s.downLimit, highPrecisionRound2 (min (max (double (basePrice * double (102 / 100)))
      (double (basePrice + double (1 / 10)))) s.upLimit))
  | .Sale => (highPrecisionRound2 (max (min (double (basePrice * double (98 / 100)))
      (double (basePrice - double (1 / 10)))) s.downLimit), s.upLimit)

/-- A `PriceLimit` order: its price field is an offset from the base price. -/
def insertPriceLimit (s : ContractEngine Q A) (o : CompactOrderLog) : ContractEngine Q A :=
  let basePrice := s.getCurrentBasePrice (some o.direction)
  let price := double (basePrice + o.price)
  let band := s.priceBand o.direction basePrice
  if priceLe price band.1 ∨ priceLe band.2 price then s
  else s.insertOrder o.direction { o with price := price }

/-- A best-price order takes the best price of side `d`, if that side holds an order. -/
def insertBestPrice (s : ContractEngine Q A) (d : Direction) (o : CompactOrderLog) :
    ContractEngine Q A :=
  if OrderQueue.isEmpty (s.heap d) = false then
    s.insertOrder o.direction { o with price := (OrderQueue.top (s.heap d)).price }
  else s

/-- The first `switch` of `insertOrderLog`: the types up to `OurBestPrice`. -/
def insertBookOrder (s : ContractEngine Q A) (o : CompactOrderLog) : ContractEngine Q A :=
  if o.type = ContractType.PriceLimit.code then s.insertPriceLimit o
  else if o.type = ContractType.OppositeBestPrice.code then
    s.insertBestPrice o.direction.opposite o
  else if o.type = ContractType.OurBestPrice.code then s.insertBestPrice o.direction o
  else s

/-! ## Immediate orders -/

/-- The sale and the buy order of a trade of the incoming order `o` with `topOrder`. -/
def roles (o topOrder : CompactOrderLog) : CompactOrderLog × CompactOrderLog :=
  match o.direction with
  | .Sale => (o, topOrder)
  | .Buy => (topOrder, o)

/-- Trade the incoming order `o` with `topOrder`. -/
def tradeWith (s : ContractEngine Q A) (o topOrder : CompactOrderLog) : ContractEngine Q A :=
  s.tradeOrder (roles o topOrder).1 (roles o topOrder).2

/-- The volume of a trade of the incoming order `o` with `topOrder`. -/
def tradeVolumeWith (o topOrder : CompactOrderLog) : ℤ :=
  tradeVolume (roles o topOrder).1 (roles o topOrder).2

/-- The body that `BestFivePriceNoLeft` and `ImmediateDealNoLeft` share: trade the incoming
order with the top of the opposite heap. -/
def fillTop (s : ContractEngine Q A) (o : CompactOrderLog) :
    ContractEngine Q A × CompactOrderLog :=
  let d := o.direction.opposite
  let topOrder := OrderQueue.top (s.heap d)
  let v := tradeVolumeWith o topOrder
  let t := s.tradeWith o topOrder
  (t.setHeap d (if v = topOrder.volume then (OrderQueue.pop (t.heap d)).2
    else OrderQueue.reduceTop (t.heap d) v), o.reduce v)

/-- The guard of the immediate loops. -/
def CanFill (s : ContractEngine Q A) (o : CompactOrderLog) : Prop :=
  0 < o.volume ∧ OrderQueue.isEmpty (s.heap o.direction.opposite) = false

instance (s : ContractEngine Q A) (o : CompactOrderLog) : Decidable (s.CanFill o) :=
  inferInstanceAs (Decidable (_ ∧ _))

/-- How far the immediate loops are from their end. -/
def fillMeasure (s : ContractEngine Q A) (o : CompactOrderLog) : ℕ :=
  OrderQueue.size (s.heap o.direction.opposite) + if 0 < o.volume then 1 else 0

/-- One pass of `ImmediateDealNoLeft`. -/
def immediateDealStep :
    ContractEngine Q A × CompactOrderLog → Option (ContractEngine Q A × CompactOrderLog)
  | (s, o) => if s.CanFill o then some (s.fillTop o) else none

/-- `ImmediateDealNoLeft`: trade down the opposite heap. -/
def immediateDeal (s : ContractEngine Q A) (o : CompactOrderLog) :
    ContractEngine Q A × CompactOrderLog :=
  Loop.exec immediateDealStep (fun p => fillMeasure p.1 p.2) (s, o)

/-- The state of the `BestFivePriceNoLeft` loop, with its two local variables. -/
structure FiveLevels (Q : Direction → Type) (A : Arithmetic := Arithmetic.exact) where
  engine : ContractEngine Q A
  order : CompactOrderLog
  levelNum : ℕ
  lastPriceLevel : ℚ

/-- One pass of `BestFivePriceNoLeft`: a new price counts a level, the sixth one breaks. -/
def bestFiveStep (p : FiveLevels Q A) : Option (FiveLevels Q A) :=
  if p.engine.CanFill p.order then
    let topOrder := OrderQueue.top (p.engine.heap p.order.direction.opposite)
    let t := p.engine.fillTop p.order
    if priceNeq topOrder.price p.lastPriceLevel then
      if 5 < p.levelNum + 1 then none
      else some ⟨t.1, t.2, p.levelNum + 1, topOrder.price⟩
    else some ⟨t.1, t.2, p.levelNum, p.lastPriceLevel⟩
  else none

/-- `BestFivePriceNoLeft`: trade with the five best prices of the opposite heap. -/
def bestFivePrice (s : ContractEngine Q A) (o : CompactOrderLog) :
    ContractEngine Q A × CompactOrderLog :=
  let p := Loop.exec bestFiveStep (fun p => fillMeasure p.engine p.order) ⟨s, o, 0, -1⟩
  (p.engine, p.order)

/-- One pass of the collecting loop of `AllOrNothing`: the top goes to the pending orders. -/
def collectStep [A : Arithmetic] {d : Direction} (volume : ℤ) :
    Q d × ℤ × List CompactOrderLog → Option (Q d × ℤ × List CompactOrderLog)
  | (heap, volumeSum, pendingOrders) =>
    if volumeSum < volume ∧ OrderQueue.isEmpty heap = false then
      let p := OrderQueue.pop heap
      some (p.2, int (volumeSum + p.1.volume), pendingOrders ++ [p.1])
    else none

/-- Pop orders until their volumes cover `volume` or the heap is empty. -/
def collect [A : Arithmetic] {d : Direction} (volume : ℤ) (heap : Q d) :
    Q d × ℤ × List CompactOrderLog :=
  Loop.exec (collectStep volume) (fun p => OrderQueue.size p.1) (heap, 0, [])

/-- Trade the incoming order with all pending orders; what is left of one goes back. -/
def tradePending : ContractEngine Q A → CompactOrderLog → List CompactOrderLog →
    ContractEngine Q A × CompactOrderLog
  | s, o, [] => (s, o)
  | s, o, topOrder :: pendingOrders =>
    let d := o.direction.opposite
    let v := tradeVolumeWith o topOrder
    let t := s.tradeWith o topOrder
    let topOrder := topOrder.reduce v
    tradePending
      (if topOrder.volume ≠ 0 then t.setHeap d (OrderQueue.insert (t.heap d) topOrder) else t)
      (o.reduce v) pendingOrders

/-- `AllOrNothing`: collect enough orders, then trade them all or put them all back. -/
def allOrNothing (s : ContractEngine Q A) (o : CompactOrderLog) :
    ContractEngine Q A × CompactOrderLog :=
  let d := o.direction.opposite
  let p := collect o.volume (s.heap d)
  if o.volume ≤ p.2.1 then tradePending (s.setHeap d p.1) o p.2.2
  else (s.setHeap d (p.2.2.foldl OrderQueue.insert p.1), o)

/-- The record of an immediate order around the loop `fill` that handles it. -/
def runImmediate
    (fill : ContractEngine Q A → CompactOrderLog → ContractEngine Q A × CompactOrderLog)
    (s : ContractEngine Q A) (o : CompactOrderLog) : ContractEngine Q A :=
  let p := fill (s.log (.immediate (s.named o))) (s.named o)
  p.1.log (.discard p.2)

/-- The second `switch` of `insertOrderLog`: the types above `OurBestPrice`. -/
def insertImmediateOrder (s : ContractEngine Q A) (o : CompactOrderLog) : ContractEngine Q A :=
  if o.type = ContractType.BestFivePriceNoLeft.code then s.runImmediate bestFivePrice o
  else if o.type = ContractType.ImmediateDealNoLeft.code then s.runImmediate immediateDeal o
  else if o.type = ContractType.AllOrNothing.code then s.runImmediate allOrNothing o
  else s

/-! ## Public operations -/

/-- The release of due TWAP orders at the start of `insertOrderLog`. -/
def releaseDue (s : ContractEngine Q A) (timestamp : ℤ) : ContractEngine Q A :=
  match s.twapOrders[s.twapHead]? with
  | some o => if o.timestamp < timestamp then s.processTwapOrdersIfNecessary timestamp else s
  | none => s

def insertOrderLog (s : ContractEngine Q A) (o : CompactOrderLog) : ContractEngine Q A :=
  let s := s.releaseDue o.timestamp
  if o.type ≤ ContractType.OurBestPrice.code then (s.insertBookOrder o).processTrade
  else s.insertImmediateOrder o

/-- Release all remaining TWAP orders. -/
def onComplete (s : ContractEngine Q A) : ContractEngine Q A :=
  s.processTwapOrdersIfNecessary maxInt

def getPosition (s : ContractEngine Q A) : ℤ := s.volume

def getPNL (s : ContractEngine Q A) : ℚ :=
  highPrecisionRound2CoverNegative
    (double (double (double (s.lastPrice * s.volume) -
      double (s.prevTradeInfo.prevClosePrice * s.prevTradeInfo.prevPosition)) + s.income))

/-- A call of a public operation. -/
inductive Op
  | insertAlpha (alpha : CompactAlpha)
  | insertOrderLog (orderLog : CompactOrderLog)
  | onComplete
  deriving DecidableEq, Repr

def apply (s : ContractEngine Q A) : Op → ContractEngine Q A
  | .insertAlpha alpha => s.insertAlpha alpha
  | .insertOrderLog orderLog => s.insertOrderLog orderLog
  | .onComplete => s.onComplete

/-- The state after a list of calls. -/
def run (s : ContractEngine Q A) (ops : List Op) : ContractEngine Q A := ops.foldl apply s

end ContractEngine
end MatchingEngine
