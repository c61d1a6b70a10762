import Mathlib
import MatchingEngine.Lib.Layout
import MatchingEngine.TradeEngine
import MatchingEngine.Entrance.Files

/-!
# The records of the files

The packed structures of `common.h` in memory, as the loader finds them in the files of a day
and as the results are sent and written.  Numbers are rounded to `double` where they are stored;
where one that is loaded is infinite or not a number there is no record.

## Main definitions

* `prevTradeInfoLayout`, `alphaLayout`, `orderLogLayout` — the records of the input.
* `twapOrderLayout`, `pnlAndPosLayout` — the records of the output.
* `RecordCall.call?` — the call that the fields of a record make.
* `DayFiles.calls` — the calls of a day.
* `calls_storeAll` — they are those of what was stored in its files.
-/

namespace MatchingEngine

/-! ## Input -/

/-- `prev_trade_info`: `instrument_id`, `prev_close_price` and `prev_position`. -/
def prevTradeInfoLayout : Layout (UInt64 × ℚ × ℤ) := .prod .ulong (.prod .double (.signed 4))

/-- `alpha`: `instrument_id`, `timestamp` and `target_volume`. -/
def alphaLayout : Layout (UInt64 × ℤ × ℤ) := .prod .ulong (.prod (.signed 8) (.signed 4))

/-- `order_log`: `instrument_id`, `timestamp`, `type`, `direction`, `volume` and `price_off`. -/
def orderLogLayout : Layout (UInt64 × ℤ × ℤ × ℤ × ℤ × ℚ) :=
  .prod .ulong (.prod (.signed 8) (.prod (.signed 4) (.prod (.signed 4)
    (.prod (.signed 4) .double))))

theorem size_prevTradeInfoLayout : prevTradeInfoLayout.size = prevTradeInfoSize := rfl

theorem size_alphaLayout : alphaLayout.size = alphaSize := rfl

theorem size_orderLogLayout : orderLogLayout.size = orderLogSize := rfl

def prevTradeInfoCall : UInt64 × ℚ × ℤ → Call
  | (instrumentId, prevClosePrice, prevPosition) =>
    .initContract instrumentId prevClosePrice prevPosition

def alphaCall : UInt64 × ℤ × ℤ → Call
  | (instrumentId, timestamp, targetVolume) => .insertAlpha instrumentId timestamp targetVolume

def orderLogCall : UInt64 × ℤ × ℤ × ℤ × ℤ × ℚ → Call
  | (instrumentId, timestamp, type, direction, volume, priceOff) =>
    .insertOrderLog instrumentId timestamp type direction volume priceOff

/-- The call that a matching thread makes with the fields of a record. -/
def RecordCall.call? : RecordCall → Option Call
  | .initContract record => (prevTradeInfoLayout.load record).map prevTradeInfoCall
  | .insertAlpha record => (alphaLayout.load record).map alphaCall
  | .insertOrderLog record => (orderLogLayout.load record).map orderLogCall
  | .onComplete => none

/-- The calls that the records of a day make. -/
def DayFiles.calls (day : DayFiles) : Option (List Call) :=
  (prevTradeInfoLayout.loadAll day.prevTradeInfo).bind fun prevs =>
    (alphaLayout.loadAll day.alpha).bind fun alphas =>
      (orderLogLayout.loadAll day.orderLog).map fun orderLogs =>
        prevs.map prevTradeInfoCall ++ alphas.map alphaCall ++ orderLogs.map orderLogCall

/-- **The files of a day** make the calls of what was stored in them, as it was stored. -/
theorem calls_storeAll (path : String) (prevs : List (UInt64 × ℚ × ℤ))
    (alphas : List (UInt64 × ℤ × ℤ)) (orderLogs : List (UInt64 × ℤ × ℤ × ℤ × ℤ × ℚ)) :
    DayFiles.calls ⟨path, prevTradeInfoLayout.storeAll prevs, alphaLayout.storeAll alphas,
      orderLogLayout.storeAll orderLogs⟩ =
        (prevs.mapM prevTradeInfoLayout.stored).bind fun prevs =>
          (alphas.mapM alphaLayout.stored).bind fun alphas =>
            (orderLogs.mapM orderLogLayout.stored).map fun orderLogs =>
              prevs.map prevTradeInfoCall ++ alphas.map alphaCall ++
                orderLogs.map orderLogCall := by
  have hload : ∀ {α : Type} (a : Layout α) (values : List α), 0 < a.size →
      a.loadAll (a.storeAll values) = values.mapM a.stored := by
    intro α a values hsize
    rw [← List.append_nil (a.storeAll values)]
    exact a.loadAll_storeAll hsize values hsize
  rw [DayFiles.calls, hload _ prevs (by decide), hload _ alphas (by decide),
    hload _ orderLogs (by decide)]

/-! ## Output -/

/-- `twap_order`: `instrumentId`, `timestamp`, `direction`, `volume` and `price`. -/
def twapOrderLayout : Layout TwapOrder :=
  (Layout.prod .ulong (.prod (.signed 8) (.prod (.signed 4) (.prod (.signed 4) .double)))).map
    (fun p => ⟨p.1, p.2.1, p.2.2.1, p.2.2.2.1, p.2.2.2.2⟩)
    fun o => (o.instrumentId, o.timestamp, o.direction, o.volume, o.price)

/-- `pnl_and_pos`: `instrumentId`, `position` and `pnl`. -/
def pnlAndPosLayout : Layout PnlAndPos :=
  (Layout.prod .ulong (.prod (.signed 4) .double)).map (fun p => ⟨p.1, p.2.1, p.2.2⟩)
    fun p => (p.instrumentId, p.position, p.pnl)

end MatchingEngine
