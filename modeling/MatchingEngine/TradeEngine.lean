import Mathlib
import MatchingEngine.Lib.Loop
import MatchingEngine.ContractEngine

/-!
# The trade engine

`trade_engine.h` and `trade_engine.cpp`: the engines of one session, one per instrument,
behind an open-addressing table from instruments to indices.  An access outside of an
array and a call on an engine that was never made are undefined in the source: the
operations answer `none` there.

## Main definitions

* `InstrumentTable`, `getOrInsertInstrument` — the table of the instruments.
* `TradeEngine`, `initContract`, `insertAlpha`, `insertOrderLog` — the engine.
* `Call`, `run` — a run of calls.
* `getTWAPOrders`, `getPNLAndPos`, `onComplete` — the results of a session.
-/

namespace MatchingEngine

/-- `MOD`, the number of slots of the table. -/
def mod : ℕ := 20021

/-- `MAX_CONTRACT_NUM` -/
def maxContractNum : ℕ := 256

/-! ## The table of the instruments -/

/-- `lastContract` and `contractPairs` of a trade engine: the slots hold an instrument and its
index, and the instrument 0 marks a free slot. -/
structure InstrumentTable where
  lastContract : ℕ
  contractPairs : Fin mod → UInt64 × ℕ

namespace InstrumentTable

/-- The table of the constructor, which clears the slots. -/
def new : InstrumentTable := ⟨0, fun _ => (0, 0)⟩

/-- The slot an instrument is looked up in first. -/
def home (instrument : UInt64) : ℕ := instrument.toNat % mod

/-- `contractPairs[index]` -/
def pair? (t : InstrumentTable) (index : ℕ) : Option (UInt64 × ℕ) :=
  if h : index < mod then some (t.contractPairs ⟨index, h⟩) else none

/-- `contractPairs[index] = p` -/
def setPair (t : InstrumentTable) (index : ℕ) (p : UInt64 × ℕ) : Option InstrumentTable :=
  if h : index < mod then
    some { t with contractPairs := Function.update t.contractPairs ⟨index, h⟩ p }
  else none

/-- One pass of the probe loop, which ends at a free slot or one of the instrument. -/
def probeStep (t : InstrumentTable) (instrument : UInt64) (index : ℕ) : Option ℕ :=
  match t.pair? index with
  | some p =>
    if p.1 ≠ 0 ∧ p.1 ≠ instrument then some (if index < mod then index + 1 else 0) else none
  | none => none

/-- The slot at which the probe loop ends; from `mod` on it has left the array. -/
def probe (t : InstrumentTable) (instrument : UInt64) : ℕ → ℕ :=
  Loop.exec (t.probeStep instrument) fun index => mod - index

/-- The index of an instrument: that of its home slot if the slot holds the instrument, else a
new one, written where the probe loop ends. -/
def getOrInsertInstrument (t : InstrumentTable) (instrument : UInt64) :
    Option (ℕ × InstrumentTable) :=
  (t.pair? (home instrument)).bind fun p =>
    if p.1 = instrument then some (p.2, t)
    else
      (t.setPair (t.probe instrument (home instrument)) (instrument, t.lastContract)).map fun t =>
        (t.lastContract, { t with lastContract := t.lastContract + 1 })

/-- A list of calls of `getOrInsertInstrument`, each with the index it returns. -/
def getOrInsertAll (t : InstrumentTable) :
    List UInt64 → Option (List (UInt64 × ℕ) × InstrumentTable)
  | [] => some ([], t)
  | instrument :: instruments =>
    (t.getOrInsertInstrument instrument).bind fun r =>
      (r.2.getOrInsertAll instruments).map fun rs => ((instrument, r.1) :: rs.1, rs.2)

end InstrumentTable

/-! ## The engine -/

/-- A trade engine, without the path its results are sent under; its engines compute in the
arithmetic `A`. -/
structure TradeEngine (A : Arithmetic := Arithmetic.exact) extends InstrumentTable where
  session : ℤ × ℤ
  timestampOffset : ℤ
  /-- A slot that was never written is `none`. -/
  contractEngines : Fin maxContractNum → Option (ContractEngine (OrderHeap (A := A)) A)

/-- The offset after an alpha: the first alpha sets it. -/
def alphaOffset (timestampOffset timestamp : ℤ) : ℤ :=
  if timestampOffset = -1 then timestamp else timestampOffset

/-- The alpha that the engine of the instrument gets. -/
def compactAlpha (timestampOffset timestamp targetVolume : ℤ) : CompactAlpha :=
  ⟨toInt (timestamp - timestampOffset), targetVolume⟩

/-- The order log that the engine of the instrument gets. -/
def compactOrderLog (timestampOffset timestamp type direction volume : ℤ) (priceOff : ℚ) :
    CompactOrderLog where
  timestamp := toInt (timestamp - timestampOffset)
  volume := volume
  price := priceOff
  directionAndType := (if direction = -1 then Direction.Sale else .Buy).code <<< directionOffset |||
    UInt8.ofInt type

namespace TradeEngine

/-- The constructor, with the debug log off. -/
def new [A : Arithmetic] (session : ℤ × ℤ) : TradeEngine A where
  toInstrumentTable := InstrumentTable.new
  session := session
  timestampOffset := -1
  contractEngines _ := none

variable {A : Arithmetic}

/-- `contractEngines[index]` -/
def engine? (t : TradeEngine A) (index : ℕ) : Option (ContractEngine OrderHeap A) :=
  if h : index < maxContractNum then t.contractEngines ⟨index, h⟩ else none

/-- Look the instrument up and let `f` act on the engine at its index. -/
def serve (t : TradeEngine A) (instrument : UInt64)
    (f : Option (ContractEngine OrderHeap A) → Option (ContractEngine OrderHeap A)) :
    Option (TradeEngine A) :=
  (t.getOrInsertInstrument instrument).bind fun r =>
    if h : r.1 < maxContractNum then
      (f (t.contractEngines ⟨r.1, h⟩)).map fun e =>
        { t with
          toInstrumentTable := r.2
          contractEngines := Function.update t.contractEngines ⟨r.1, h⟩ (some e) }
    else none

def initContract (t : TradeEngine A) (instrument : UInt64) (prevClosePrice : ℚ)
    (prevPosition : ℤ) : Option (TradeEngine A) :=
  t.serve instrument fun _ =>
    some (.new t.session.1 t.session.2 ⟨prevClosePrice, prevPosition⟩ instrument)

def insertAlpha (t : TradeEngine A) (instrument : UInt64) (timestamp targetVolume : ℤ) :
    Option (TradeEngine A) :=
  let t := { t with timestampOffset := alphaOffset t.timestampOffset timestamp }
  t.serve instrument fun e =>
    e.map fun e => e.insertAlpha (compactAlpha t.timestampOffset timestamp targetVolume)

def insertOrderLog (t : TradeEngine A) (instrument : UInt64)
    (timestamp type direction volume : ℤ) (priceOff : ℚ) : Option (TradeEngine A) :=
  t.serve instrument fun e =>
    e.map fun e =>
      e.insertOrderLog (compactOrderLog t.timestampOffset timestamp type direction volume priceOff)

end TradeEngine

/-- A call that names an instrument. -/
inductive Call
  | initContract (instrument : UInt64) (prevClosePrice : ℚ) (prevPosition : ℤ)
  | insertAlpha (instrument : UInt64) (timestamp targetVolume : ℤ)
  | insertOrderLog (instrument : UInt64) (timestamp type direction volume : ℤ) (priceOff : ℚ)
  deriving DecidableEq, Repr

/-- The instrument a call names. -/
def Call.instrument : Call → UInt64
  | .initContract instrument .. => instrument
  | .insertAlpha instrument .. => instrument
  | .insertOrderLog instrument .. => instrument

namespace TradeEngine
variable {A : Arithmetic}

def apply (t : TradeEngine A) : Call → Option (TradeEngine A)
  | .initContract instrument prevClosePrice prevPosition =>
    t.initContract instrument prevClosePrice prevPosition
  | .insertAlpha instrument timestamp targetVolume =>
    t.insertAlpha instrument timestamp targetVolume
  | .insertOrderLog instrument timestamp type direction volume priceOff =>
    t.insertOrderLog instrument timestamp type direction volume priceOff

/-- The state after a list of calls. -/
def run (t : TradeEngine A) : List Call → Option (TradeEngine A)
  | [] => some t
  | call :: calls => (t.apply call).bind fun t => t.run calls

end TradeEngine

/-! ## The results -/

/-- `twap_order` -/
structure TwapOrder where
  instrumentId : UInt64
  timestamp : ℤ
  direction : ℤ
  volume : ℤ
  price : ℚ
  deriving DecidableEq, Repr

/-- `twap_order::operator<` -/
def TwapOrder.lt (a b : TwapOrder) : Bool :=
  if a.timestamp ≠ b.timestamp then a.timestamp < b.timestamp else a.instrumentId < b.instrumentId

/-- `pnl_and_pos` -/
structure PnlAndPos where
  instrumentId : UInt64
  position : ℤ
  pnl : ℚ
  deriving DecidableEq, Repr

/-- `pnl_and_pos::operator<` -/
def PnlAndPos.lt (a b : PnlAndPos) : Bool := a.instrumentId < b.instrumentId

/-- `std::sort` by `operator<`, which may leave equals in any order. -/
def sort {α : Type} (lt : α → α → Bool) (l : List α) : List α :=
  l.insertionSort fun a b => lt b a = false

/-- One pass of `reverseInstrumentId`: the lowest byte of `instrumentId` goes to `result`. -/
def reverseStep (p : UInt64 × UInt64) : UInt64 × UInt64 :=
  (p.1 <<< 8 ||| p.2 &&& 0xff, p.2 >>> 8)

/-- The eight bytes of an instrument in the other order. -/
def reverseInstrumentId (instrumentId : UInt64) : UInt64 := (reverseStep^[8] (0, instrumentId)).1

/-- The rows that `getTWAPOrders` makes of one engine, with the instrument reversed. -/
def contractTwapOrders {A : Arithmetic} (timestampOffset : ℤ)
    (contractEngine : ContractEngine OrderHeap A) : List TwapOrder :=
  contractEngine.twapOrders.map fun orderLog =>
    { instrumentId := reverseInstrumentId contractEngine.instrument
      timestamp := orderLog.timestamp + timestampOffset
      direction := if orderLog.directionAndType >>> directionOffset = Direction.Sale.code then -1
        else 1
      volume := orderLog.volume
      price := orderLog.price }

/-- The row that `getPNLAndPos` makes of one engine, with the instrument reversed. -/
def contractPnlAndPos {A : Arithmetic} (contractEngine : ContractEngine OrderHeap A) :
    PnlAndPos where
  instrumentId := reverseInstrumentId contractEngine.instrument
  position := contractEngine.getPosition
  pnl := contractEngine.getPNL

/-- What a session sends: the name of the file and the two lists of rows. -/
structure Report where
  fileName : String
  twapOrders : List TwapOrder
  pnlAndPos : List PnlAndPos
  deriving DecidableEq, Repr

namespace TradeEngine
variable {A : Arithmetic}

/-- The engines of the contracts, in the order of their indices. -/
def contracts (t : TradeEngine A) : Option (List (ContractEngine OrderHeap A)) :=
  (List.range t.lastContract).mapM t.engine?

def getTWAPOrders (t : TradeEngine A) : Option (List TwapOrder) :=
  t.contracts.map fun engines =>
    (sort TwapOrder.lt (engines.flatMap (contractTwapOrders t.timestampOffset))).map fun o =>
      { o with instrumentId := reverseInstrumentId o.instrumentId }

def getPNLAndPos (t : TradeEngine A) : Option (List PnlAndPos) :=
  t.contracts.map fun engines =>
    (sort PnlAndPos.lt (engines.map contractPnlAndPos)).map fun p =>
      { p with instrumentId := reverseInstrumentId p.instrumentId }

/-- `contractEngines[i]->onComplete()` -/
def completeContract (t : TradeEngine A) (i : ℕ) : Option (TradeEngine A) :=
  if h : i < maxContractNum then
    (t.contractEngines ⟨i, h⟩).map fun e =>
      { t with contractEngines := Function.update t.contractEngines ⟨i, h⟩ (some e.onComplete) }
  else none

/-- The loop of `onComplete` over the contracts. -/
def completeContracts (t : TradeEngine A) : Option (TradeEngine A) :=
  (List.range t.lastContract).foldlM completeContract t

/-- Complete every contract and send the results: the state after it and what is sent. -/
def onComplete (t : TradeEngine A) (path : String) : Option (TradeEngine A × Report) :=
  t.completeContracts.bind fun t =>
    t.getTWAPOrders.bind fun twapOrders =>
      t.getPNLAndPos.map fun pnlAndPos =>
        (t, ⟨path ++ "_" ++ toString t.session.1 ++ "_" ++ toString t.session.2, twapOrders,
          pnlAndPos⟩)

end TradeEngine
end MatchingEngine
