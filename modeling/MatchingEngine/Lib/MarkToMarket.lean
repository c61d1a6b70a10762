import Mathlib

/-!
# Mark to market

The value of a position and its cash moves in two ways: a trade exchanges one for the other
at the price of the trade, which leaves the value, and a change of the price moves the value
by the position held.  What an account has gained is therefore the sum of the price changes,
each times the position held when it happens, whatever was traded.

## Main definitions

* `lastPrice`, `gains` — the last of a list of prices, and the sum over their changes.
* `Balanced` — the account has gained what the prices did for its positions.
* `Balanced.mark` — a trade keeps the account balanced.
-/

namespace MatchingEngine.MarkToMarket

variable {R : Type*} [CommRing R]

/-- The last price, after the price `p` and the prices of `trades`. -/
def lastPrice (p : R) : List (R × R) → R
  | [] => p
  | trade :: trades => lastPrice trade.1 trades

/-- The sum of the price changes, each times the position held at it: a trade is its price
and the position held before it. -/
def gains (p : R) : List (R × R) → R
  | [] => 0
  | trade :: trades => (trade.1 - p) * trade.2 + gains trade.1 trades

omit [CommRing R] in
theorem lastPrice_concat (p : R) (trades : List (R × R)) (trade : R × R) :
    lastPrice p (trades ++ [trade]) = trade.1 := by
  induction trades generalizing p with
  | nil => rfl
  | cons _ trades ih => exact ih _

theorem gains_concat (p : R) (trades : List (R × R)) (trade : R × R) :
    gains p (trades ++ [trade]) = gains p trades + (trade.1 - lastPrice p trades) * trade.2 := by
  induction trades generalizing p with
  | nil => simp [gains, lastPrice]
  | cons head trades ih => rw [List.cons_append, gains, gains, ih, lastPrice, add_assoc]

/-- From the price `p`, the position `start` and no cash on, the account has traded `trades`. -/
structure Balanced (p start : R) (trades : List (R × R)) (price position cash : R) : Prop where
  price_eq : price = lastPrice p trades
  value_eq : price * position + cash - p * start = gains p trades

theorem balanced_nil (p start : R) : Balanced p start [] p start 0 :=
  ⟨rfl, by rw [gains, add_zero, sub_self]⟩

/-- **A trade keeps the account balanced**: it exchanges cash at its price. -/
theorem Balanced.mark {p start price position cash : R} {trades : List (R × R)}
    (h : Balanced p start trades price position cash) {price' position' cash' : R}
    (hexchange : cash' - cash = price' * (position - position')) :
    Balanced p start (trades ++ [(price', position)]) price' position' cash' := by
  refine ⟨(lastPrice_concat p trades (price', position)).symm, ?_⟩
  have hcash : cash' = cash + price' * (position - position') := by rw [← hexchange]; ring
  rw [gains_concat, ← h.value_eq, ← h.price_eq, hcash]
  ring

end MatchingEngine.MarkToMarket
