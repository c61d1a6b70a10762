import Mathlib
import MatchingEngine.Lib.MarkToMarket
import MatchingEngine.Contract.Volume

/-!
# The profit is marked to market

`getPNL` values the own position at `lastPrice` and adds the income of the own trades.  On
the price grid no rounding loses anything, so every trade exchanges position for income at
its price, and the profit is the sum of the price changes, each times the position held.

## Main definitions

* `trades` — the prices of the trades, with the own position before each.
* `Marked` — the account is balanced, as long as the prices are on the grid.
* `getPNL_eq_gains` — the profit of a run.
-/

namespace MatchingEngine

/-- The price of a trade, with the own position before it. -/
def Event.priced? : Event → Option (ℚ × ℚ)
  | .trade _ _ tradePrice _ position => some (tradePrice, position)
  | _ => none

/-- The prices of the trades, in order, with the own position before each. -/
def trades (history : List Event) : List (ℚ × ℚ) := history.filterMap Event.priced?

theorem trades_append (history history' : List Event) :
    trades (history ++ history') = trades history ++ trades history' :=
  List.filterMap_append ..

/-- The prices of all trades are on the part of the grid that is not negative. -/
def PricesOk (history : List Event) : Prop :=
  ∀ trade ∈ trades history, OnGrid trade.1 ∧ 0 ≤ trade.1

instance (history : List Event) : Decidable (PricesOk history) :=
  inferInstanceAs (Decidable (∀ trade ∈ trades history, _))

theorem PricesOk.of_append {history history' : List Event} (h : PricesOk (history ++ history')) :
    PricesOk history :=
  fun trade ht => h trade (by rw [trades_append]; exact List.mem_append_left _ ht)

namespace ContractEngine

open MarkToMarket

variable {Q : Direction → Type}

/-! ## The account -/

/-- The account of the engine that was made for `info`. -/
structure Marked (info : CompactPrevTradeInfo) (s : ContractEngine Q) : Prop where
  prevTradeInfo : s.prevTradeInfo = info
  account : PricesOk s.history → OnGrid s.lastPrice ∧ OnGrid s.income ∧
    Balanced info.prevClosePrice info.prevPosition (trades s.history) s.lastPrice s.volume s.income

section steps
variable {info : CompactPrevTradeInfo} {s t : ContractEngine Q} (h : Marked info s)
include h

/-- Steps that do not trade keep the account. -/
theorem Marked.of_eq (hinfo : t.prevTradeInfo = s.prevTradeInfo) (hprice : t.lastPrice = s.lastPrice)
    (hincome : t.income = s.income) (hvolume : t.volume = s.volume) {events : List Event}
    (hhist : t.history = s.history ++ events) (htrades : trades events = []) : Marked info t := by
  refine ⟨hinfo.trans h.prevTradeInfo, fun hok => ?_⟩
  rw [hhist] at hok
  rw [hhist, trades_append, htrades, List.append_nil, hprice, hincome, hvolume]
  exact h.account hok.of_append

/-- A trade exchanges position for income at its price. -/
theorem Marked.traded {a b : CompactOrderLog} (htrade : Traded s t a b)
    (hpos : 0 ≤ tradeVolume a b) : Marked info t := by
  have hinfo : t.prevTradeInfo = s.prevTradeInfo := congrArg Plan.prevTradeInfo htrade.plan
  refine ⟨hinfo.trans h.prevTradeInfo, fun hok => ?_⟩
  rw [htrade.history] at hok
  obtain ⟨-, hincome, hbalanced⟩ := h.account hok.of_append
  have hprices : trades (s.history ++
      [.trade a b (tradePrice a b) (tradeVolume a b) s.volume]) =
      trades s.history ++ [(tradePrice a b, (s.volume : ℚ))] := trades_append ..
  obtain ⟨hgrid, hnonneg⟩ : OnGrid (tradePrice a b) ∧ 0 ≤ tradePrice a b :=
    hok _ (by rw [hprices]; exact List.mem_append_right _ List.mem_cons_self)
  have hamount : OnGrid (tradePrice a b * tradeVolume a b) := hgrid.mul_int _
  have hround : highPrecisionRound2 (tradePrice a b * tradeVolume a b) =
      tradePrice a b * tradeVolume a b :=
    highPrecisionRound2_of_onGrid hamount (mul_nonneg hnonneg (by exact_mod_cast hpos))
  rw [htrade.history, hprices, htrade.lastPrice, htrade.income, htrade.volume,
    ContractEngine.account]
  simp only [Arithmetic.double_exact, Arithmetic.int_exact, hround]
  split
  · refine ⟨hgrid, hincome.add hamount, hbalanced.mark ?_⟩
    push_cast
    ring
  · split
    · refine ⟨hgrid, ?_, hbalanced.mark ?_⟩
      · rw [sub_eq_add_neg, ← mul_neg, ← Int.cast_neg]
        exact hincome.add (hgrid.mul_int _)
      · push_cast
        ring
    · exact ⟨hgrid, hincome, hbalanced.mark (by ring)⟩

end steps

/-- On the grid the last rounding loses nothing either. -/
theorem Marked.getPNL_eq {info : CompactPrevTradeInfo} {s : ContractEngine Q} (h : Marked info s)
    (hinfo : OnGrid info.prevClosePrice) (hok : PricesOk s.history) :
    s.getPNL = gains info.prevClosePrice (trades s.history) := by
  obtain ⟨hprice, hincome, hbalanced⟩ := h.account hok
  have hgrid : OnGrid (s.lastPrice * s.volume - info.prevClosePrice * info.prevPosition +
      s.income) := by
    rw [sub_eq_add_neg, ← mul_neg, ← Int.cast_neg]
    exact ((hprice.mul_int _).add (hinfo.mul_int _)).add hincome
  rw [getPNL, h.prevTradeInfo]
  simp only [Arithmetic.double_exact]
  rw [highPrecisionRound2CoverNegative_of_onGrid hgrid, ← hbalanced.value_eq]
  ring

variable [OrderQueue Q]

theorem marked_new (sessionNum sessionLength : ℤ) {info : CompactPrevTradeInfo}
    (hinfo : OnGrid info.prevClosePrice) (instrument : UInt64) :
    Marked info (new sessionNum sessionLength info instrument : ContractEngine Q) :=
  ⟨rfl, fun _ => ⟨hinfo, ⟨0, by simp [new]⟩, balanced_nil _ _⟩⟩

variable [LawfulOrderQueue Q]

theorem marked_kept (info : CompactPrevTradeInfo) :
    Kept (fun s : ContractEngine Q => Sound s ∧ Marked info s) (fun o => 0 < o.volume)
      fun s o => Sound.With s o ∧ Marked info s where
  alpha s alpha hs := ⟨hs.1.insertAlpha alpha, by
    rw [insertAlpha_eq]
    exact hs.2.of_eq rfl rfl rfl rfl (List.append_nil _).symm rfl⟩
  enter s o hs ho := by
    refine ⟨hs.1.enterTwap ho, ?_⟩
    obtain ⟨d, -, henter⟩ := enterTwap_eq hs.1.valid ho
    rw [henter]
    split
    · exact hs.2.of_eq rfl rfl rfl rfl (history_insertOrder ..) rfl
    · exact hs.2.of_eq rfl rfl rfl rfl (List.append_nil _).symm rfl
  insert s o p hs hvol _ := ⟨hs.1.insertOrder hvol rfl,
    hs.2.of_eq rfl rfl rfl rfl (history_insertOrder ..) rfl⟩
  cross _ _ _ _ hs h := ⟨hs.1.cross h, hs.2.traded h.traded (h.tradeVolume_pos hs.1).le⟩
  arrive _ _ hs hvol _ htype := ⟨hs.1.arrive hvol htype,
    hs.2.of_eq rfl rfl rfl rfl (history_log ..) rfl⟩
  fill := {
    fill := fun s o t a hs h => ⟨hs.1.fill h, hs.2.traded h.traded
      (h.tradeVolume_pos hs.1.sound).le⟩
    same := fun s o t hs h => ⟨hs.1.same h, by
      rw [h.scalars]
      exact hs.2.of_eq rfl rfl rfl rfl (List.append_nil _).symm rfl⟩ }
  finish _ o hs := ⟨hs.1.sound.log (.discard o),
    hs.2.of_eq rfl rfl rfl rfl (history_log ..) rfl⟩

/-! ## The profit -/

/-- **The profit is exact mark to market**: the sum of the price changes from trade to trade,
each times the own position before the trade. -/
theorem getPNL_eq_gains (sessionNum sessionLength : ℤ) {info : CompactPrevTradeInfo}
    (hinfo : OnGrid info.prevClosePrice) (instrument : UInt64) {ops : List Op}
    (hok : LogsSatisfy (fun o => 0 < o.volume) ops) :
    let s := (new sessionNum sessionLength info instrument : ContractEngine OrderHeap).run ops
    PricesOk s.history → s.getPNL = gains info.prevClosePrice (trades s.history) := by
  intro s hprices
  have hmarked : Sound s ∧ Marked info s :=
    (marked_kept info).run ⟨sound_new .., marked_new sessionNum sessionLength hinfo instrument⟩ hok
  exact hmarked.2.getPNL_eq hinfo hprices

/-- Three lots bought at 10.00 gain when the price moves to 10.05. -/
theorem getPNL_of_rise :
    let s := (new 3 1 ⟨10, 0⟩ 1 : ContractEngine OrderHeap).run
      [.insertAlpha ⟨0, 3⟩, .insertOrderLog ⟨5000, 3, -1 / 100, 0, 0⟩,
        .insertOrderLog ⟨6000, 1, 5 / 100, 0, 0⟩, .insertOrderLog ⟨7000, 1, 0, 8, 0⟩]
    s.getPNL = 15 / 100 ∧ s.getPNL = gains 10 (trades s.history) := by
  intro s
  have hinfo : OnGrid (⟨10, 0⟩ : CompactPrevTradeInfo).prevClosePrice := by decide +kernel
  have hok : LogsSatisfy (fun o => 0 < o.volume)
      [.insertAlpha ⟨0, 3⟩, .insertOrderLog ⟨5000, 3, -1 / 100, 0, 0⟩,
        .insertOrderLog ⟨6000, 1, 5 / 100, 0, 0⟩, .insertOrderLog ⟨7000, 1, 0, 8, 0⟩] := by decide
  have hprices : PricesOk s.history := by decide +kernel
  exact ⟨by decide +kernel, getPNL_eq_gains 3 1 hinfo 1 hok hprices⟩

end ContractEngine
end MatchingEngine
