import Mathlib
import MatchingEngine.Floating.Near

/-!
# Trades in floating point

A trade has the same volume and a price near the exact one.  The amount of an own trade is
rounded to two decimals, so the `double` that is added to the income is the one nearest to the
exact amount, and the income is off by the rounding of the sums.

## Main definitions

* `near_amount` — the amount of a trade is the nearest `double`.
* `NearEngine.tradeOrder`, `NearEngine.processTrade` — trades keep the engines near.
* `NearEngine.release` — so do the releases of TWAP orders.
-/

namespace MatchingEngine.Floating

open Arithmetic (double_exact int_exact)
open ContractEngine

/-! ## The amount of a trade -/

/-- Rounding to two decimals does not go away from zero on the grid. -/
theorem abs_highPrecisionRound2_le {x : ℚ} (hx : OnGrid x) :
    |highPrecisionRound2 x| ≤ |x| := by
  obtain ⟨k, rfl⟩ := hx
  have hcut : toLongLong ((k : ℚ) / 100 * 100 + (1 / 2 + eps)) = if 0 ≤ k then k else k + 1 := by
    refine toLongLong_of_between ?_ ?_
    · norm_num [eps]
    · norm_num [eps]
  rw [highPrecisionRound2_eq, hcut, abs_div, abs_div]
  refine div_le_div_of_nonneg_right ?_ (by norm_num)
  split
  · exact le_rfl
  · have hneg : |k + 1| ≤ |k| := by
      rw [abs_of_nonpos (by omega), abs_of_neg (by omega)]
      omega
    exact_mod_cast hneg

/-- A price times a number of lots. -/
theorem near_value {S : Scale} {δ : ℚ} (hδ : Fine S δ) {x x' : ℚ} (hx : NearPrice S δ x x') {v : ℤ}
    (hv : |v| ≤ S.size) :
    Near (3 / 2 ^ 13) (x * v) (double (x' * v)) ∧ |x * v| ≤ S.amount := by
  have hv' : |(v : ℚ)| ≤ S.size := by exact_mod_cast hv
  have hamount := S.one_le_amount
  have hle := S.amount_le'
  have hsmall := hδ.mul_size_le
  have hpos : 0 ≤ δ * S.size := mul_nonneg hx.near.nonneg S.size_pos.le
  have hmul : Near (δ * S.size + S.price * 0) (x * v) (x' * v) :=
    hx.near.mul (near_refl le_rfl _) hx.bounded hv'
  have hsize : |x * v| ≤ S.amount := by
    rw [abs_mul]
    exact mul_le_mul hx.bounded hv' (abs_nonneg _) (by linarith [S.one_le_price])
  refine ⟨(hmul.double hsize (by linarith)).mono ?_, hsize⟩
  norm_num at hle hsmall ⊢
  linarith

/-- **The amount of a trade** is the `double` nearest to the exact one. -/
theorem near_amount {S : Scale} {δ : ℚ} (hδ : Fine S δ) {x x' : ℚ} (hx : NearPrice S δ x x') {v : ℤ}
    (hv : |v| ≤ S.size) :
    highPrecisionRound2 (A := arithmetic) (double (x' * v)) =
      double (highPrecisionRound2 (x * v)) := by
  obtain ⟨hvalue, hsize⟩ := near_value hδ hx hv
  have hle := S.amount_le'
  refine highPrecisionRound2_of_grid hvalue hsize S.one_le_amount (hle.trans (by norm_num))
    (hx.onGrid.mul_int v) ?_
  norm_num at hle ⊢
  linarith

/-- The price of a trade is near the exact one. -/
theorem near_tradePrice {S : Scale} {δ : ℚ} (hδ : Fine S δ) {a a' b b' : CompactOrderLog}
    (ha : NearOrder S δ a a') (hb : NearOrder S δ b b') :
    NearPrice S δ (tradePrice a b) (tradePrice (A := arithmetic) a' b') := by
  unfold tradePrice
  rw [ha.timestamp, hb.timestamp]
  have heq := (ha.price.compared hδ hb.price).1
  by_cases h : priceEq a.price b.price
  · rw [if_pos h, if_pos (heq.mpr h)]
    exact ha.price
  · rw [if_neg h, if_neg (mt heq.mp h)]
    split
    · exact hb.price
    · exact ha.price

theorem tradeVolume_nearOrder {S : Scale} {δ : ℚ} {a a' b b' : CompactOrderLog}
    (ha : NearOrder S δ a a') (hb : NearOrder S δ b b') : tradeVolume a' b' = tradeVolume a b := by
  rw [tradeVolume, ha.volume, hb.volume, tradeVolume]

/-- **The income after an own trade**: it is off by the rounding of one more sum. -/
theorem near_income {S : Scale} {total : ℕ} {income income' amount : ℚ} {v : ℤ}
    (hincome : Near (incomeError S total) income income') (hB : |income| ≤ S.price * total)
    (hamount : |amount| ≤ S.price * |(v : ℚ)|) (htotal : total + (v.natAbs + 1) ≤ S.size) :
    Near (incomeError S (total + (v.natAbs + 1))) (income + amount)
      (double (income' + double amount)) := by
  have hprice : 0 ≤ S.price := by linarith [S.one_le_price]
  have hone := S.one_le_amount
  have hcast : (total : ℚ) + (|(v : ℚ)| + 1) ≤ S.size := by
    have hnat : ((total + (v.natAbs + 1) : ℕ) : ℚ) ≤ S.size := by exact_mod_cast htotal
    push_cast [Nat.cast_natAbs] at hnat
    exact hnat
  have htotal0 : (0 : ℚ) ≤ total := Nat.cast_nonneg _
  have hv0 := abs_nonneg (v : ℚ)
  have hsum : |income + amount| ≤ S.amount :=
    calc |income + amount| ≤ |income| + |amount| := abs_add_le _ _
      _ ≤ S.price * total + S.price * |(v : ℚ)| := add_le_add hB hamount
      _ = S.price * (total + |(v : ℚ)|) := by ring
      _ ≤ S.price * S.size := mul_le_mul_of_nonneg_left (by linarith) hprice
  have hamount' : |amount| ≤ S.amount :=
    hamount.trans (mul_le_mul_of_nonneg_left (by linarith) hprice)
  -- the error so far is small against the largest amount
  have herror : incomeError S total ≤ S.amount / 2 := by
    have hle : (total : ℚ) ≤ S.size := by linarith
    have hmul : S.amount * total ≤ S.amount * S.size :=
      mul_le_mul_of_nonneg_left hle (by linarith)
    have hbound := S.amount_mul_size_le
    rw [incomeError]
    norm_num at hbound ⊢
    linarith
  have hnonneg := hincome.nonneg
  have hnear := (hincome.add (near_double hamount' hone)).double hsum (by linarith)
  refine hnear.mono ?_
  have hgrow : incomeError S (total + (v.natAbs + 1)) ≥
      incomeError S total + 3 * S.amount / 2 ^ 53 := by
    have hpos : 0 ≤ S.amount * |(v : ℚ)| := mul_nonneg (by linarith) hv0
    rw [incomeError, incomeError]
    push_cast [Nat.cast_natAbs]
    norm_num
    linarith
  norm_num at hgrow herror ⊢
  linarith

namespace NearEngine

section
variable {S : Scale} {δ : ℚ} (hδ : Fine S δ) {s : ContractEngine OrderHeap} {t : Engine}
  (h : NearEngine S δ s t) {a a' b b' : CompactOrderLog} (ha : NearOrder S δ a a')
  (hb : NearOrder S δ b b')
include hδ h ha hb

/-- What an own trade does to the income and the position. -/
theorem account :
    let own := ownSize (.trade a b (tradePrice a b) (tradeVolume a b) s.volume)
    OnGrid (s.account a b).1 ∧
      |(s.account a b).1| ≤ S.price * (ownTotal s.history + own) ∧
      |(s.account a b).2| ≤ |s.prevTradeInfo.prevPosition| + ownTotal s.history + own ∧
      (ownTotal s.history + own ≤ S.size →
        Near (incomeError S (ownTotal s.history + own)) (s.account a b).1 (t.account a' b').1) ∧
      (|s.prevTradeInfo.prevPosition| + ownTotal s.history + own ≤ S.size →
        (t.account a' b').2 = (s.account a b).2) := by
  intro own
  have hprice := near_tradePrice hδ ha hb
  have hvolume := tradeVolume_nearOrder ha hb
  set p := tradePrice a b
  set v := tradeVolume a b
  set amount := highPrecisionRound2 (p * v) with hamountEq
  have hamount : |amount| ≤ S.price * |(v : ℚ)| := by
    refine (abs_highPrecisionRound2_le (hprice.onGrid.mul_int v)).trans ?_
    rw [abs_mul]
    exact mul_le_mul_of_nonneg_right hprice.bounded (abs_nonneg _)
  have hgrid : OnGrid amount := onGrid_highPrecisionRound2 _
  have habs : ((v.natAbs : ℕ) : ℚ) = |(v : ℚ)| := by push_cast [Nat.cast_natAbs]; rfl
  have hprice0 : 0 ≤ S.price := by linarith [S.one_le_price]
  have hcomputed : |v| ≤ S.size →
      highPrecisionRound2 (A := arithmetic) (double (tradePrice (A := arithmetic) a' b' * v)) =
        double amount := fun hv => near_amount hδ hprice hv
  have hincome := h.abs_income
  have hposition := h.abs_volume
  -- an own sale or an own purchase moves the income by the amount, either way
  have hmoved : ∀ (x : ℚ), |x| = |amount| → OnGrid x → own = v.natAbs + 1 →
      OnGrid (s.income + x) ∧ |s.income + x| ≤ S.price * (ownTotal s.history + own) ∧
        (ownTotal s.history + own ≤ S.size →
          Near (incomeError S (ownTotal s.history + own)) (s.income + x)
            (double (t.income + double x))) := by
    intro x hx hxgrid hown
    have hxle : |x| ≤ S.price * |(v : ℚ)| := hx.trans_le hamount
    refine ⟨h.onGrid_income.add hxgrid, ?_, fun htotal => ?_⟩
    · refine (abs_add_le _ _).trans ((add_le_add hincome hxle).trans ?_)
      rw [hown]
      push_cast [habs]
      linarith
    · rw [hown] at htotal ⊢
      exact near_income (h.income (by omega)) hincome hxle htotal
  have hsmall : ownTotal s.history + own ≤ S.size → own = v.natAbs + 1 → |v| ≤ S.size := by
    intro htotal hown
    rw [Int.abs_eq_natAbs]
    omega
  have hmovedPosition : ∀ w : ℤ, |w| = |v| → own = v.natAbs + 1 →
      |s.volume + w| ≤ |s.prevTradeInfo.prevPosition| + ownTotal s.history + own := by
    intro w hw hown
    refine (abs_add_le _ _).trans ((add_le_add hposition hw.le).trans ?_)
    rw [Int.abs_eq_natAbs v, hown]
    push_cast
    linarith
  -- a position that is not too large does not wrap around
  have hwrap : ∀ w : ℤ,
      |s.volume + w| ≤ |s.prevTradeInfo.prevPosition| + ownTotal s.history + own →
        |s.prevTradeInfo.prevPosition| + ownTotal s.history + own ≤ S.size →
          toInt (t.volume + w) = s.volume + w := by
    intro w hw hsize
    have hscale := S.size_le
    rw [h.volume (by omega)]
    exact toInt_of_abs_lt (by omega)
  simp only [ContractEngine.account, double_exact, int_exact, double_arithmetic, int_arithmetic,
    hvolume, ha.isOwn, hb.isOwn]
  by_cases hsale : a.IsOwn
  · have hown : own = v.natAbs + 1 := if_pos (.inl hsale)
    obtain ⟨hgrid', hbound, hnear⟩ := hmoved amount rfl hgrid hown
    have hnext := hmovedPosition (-v) (abs_neg v) hown
    simp only [hsale, if_true]
    refine ⟨hgrid', hbound, hnext, fun htotal => ?_, hwrap (-v) hnext⟩
    rw [hcomputed (hsmall htotal hown)]
    exact hnear htotal
  · by_cases hbuy : b.IsOwn
    · have hown : own = v.natAbs + 1 := if_pos (.inr hbuy)
      have hneg : OnGrid (-amount) := by
        obtain ⟨k, hk⟩ := hgrid
        exact ⟨-k, by rw [hk]; push_cast; ring⟩
      obtain ⟨hgrid', hbound, hnear⟩ := hmoved (-amount) (abs_neg _) hneg hown
      have hnext := hmovedPosition v rfl hown
      simp only [hsale, hbuy, if_true, if_false]
      rw [← hamountEq, sub_eq_add_neg s.income]
      refine ⟨hgrid', hbound, hnext, fun htotal => ?_, hwrap v hnext⟩
      rw [hcomputed (hsmall htotal hown), sub_eq_add_neg, ← double_neg]
      exact hnear htotal
    · have hown : own = 0 := if_neg (not_or.mpr ⟨hsale, hbuy⟩)
      simp only [hsale, hbuy, if_false, hown, Nat.cast_zero, add_zero]
      exact ⟨h.onGrid_income, hincome, hposition, h.income, h.volume⟩

/-- **A trade** keeps the engines near. -/
theorem tradeOrder : NearEngine S δ (s.tradeOrder a b) (t.tradeOrder a' b') := by
  have hprice := near_tradePrice hδ ha hb
  have hvolume := tradeVolume_nearOrder ha hb
  obtain ⟨hgrid, hbound, hsize, hincome, hposition⟩ := h.account hδ ha hb
  have hown : ownTotal (s.tradeOrder a b).history = ownTotal s.history +
      ownSize (.trade a b (tradePrice a b) (tradeVolume a b) s.volume) := by
    rw [ContractEngine.tradeOrder, ownTotal_append]
  exact
    { h with
      lastPrice := hprice
      history := by
        rw [ContractEngine.tradeOrder, ContractEngine.tradeOrder, hvolume]
        exact List.rel_append h.history (.cons (.trade _ _ _ ha hb hprice) .nil)
      onGrid_income := hgrid
      abs_income := by
        rw [hown]
        push_cast
        exact hbound
      abs_volume := by
        rw [hown]
        push_cast
        rw [← add_assoc]
        exact hsize
      income := by rw [hown]; exact hincome
      volume := by
        rw [hown]
        push_cast
        rw [← add_assoc]
        exact hposition }

end

section
variable {S : Scale} {δ : ℚ} (hδ : Fine S δ) {s : ContractEngine OrderHeap} {t : Engine}
  (h : NearEngine S δ s t)
include hδ h

theorem decreaseTop {d : Direction} (hne : OrderQueue.isEmpty (s.heap d) = false) {v : ℤ}
    (hv0 : 0 ≤ v) (hv : v ≤ (OrderQueue.top (s.heap d)).volume) :
    NearEngine S δ (s.decreaseTop d v) (t.decreaseTop d v) := by
  have hreduce : BinaryHeap.Related (NearOrder S δ) (OrderQueue.reduceTop (s.heap d) v)
      (OrderQueue.reduceTop (t.heap d) v) := (h.heap d).modifyTop fun ho => ho.reduce hv0 hv
  have htop : NearOrder S δ (OrderQueue.top (OrderQueue.reduceTop (s.heap d) v))
      (OrderQueue.top (OrderQueue.reduceTop (t.heap d) v)) :=
    hreduce.top (BinaryHeap.size_pos_of_not_isEmpty (isEmpty_reduceTop hne v))
  simp only [ContractEngine.decreaseTop, htop.volume]
  refine h.setHeap ?_
  split
  · exact hreduce.pop (cmp_nearOrder hδ d)
  · exact hreduce

/-- The tops cross in both engines or in neither, and leave the same volumes. -/
theorem processTradeStep :
    Option.Rel (NearEngine S δ) (ContractEngine.processTradeStep s) (t.processTradeStep) := by
  simp only [ContractEngine.processTradeStep, h.isEmpty]
  by_cases hne : OrderQueue.isEmpty (s.heap .Sale) = false ∧
      OrderQueue.isEmpty (s.heap .Buy) = false
  · have ha := h.top hne.1
    have hb := h.top hne.2
    have hgt := (ha.price.compared hδ hb.price).2.2
    rw [if_pos hne, if_pos hne]
    set a := OrderQueue.top (s.heap .Sale)
    set b := OrderQueue.top (s.heap .Buy)
    by_cases hab : priceGt a.price b.price
    · rw [if_pos hab, if_pos (hgt.mpr hab)]
      exact .none
    · rw [if_neg hab, if_neg (mt hgt.mp hab), tradeVolume_nearOrder ha hb]
      have hv0 : 0 ≤ tradeVolume a b := le_min ha.volume_nonneg hb.volume_nonneg
      have hsale := (h.tradeOrder hδ ha hb).decreaseTop hδ (d := .Sale) hne.1 hv0 (min_le_left _ _)
      exact .some (hsale.decreaseTop hδ (d := .Buy) hne.2 hv0 (min_le_right _ _))
  · rw [if_neg hne, if_neg hne]
    exact .none

/-- **The matching loop** makes the same trades. -/
theorem processTrade : NearEngine S δ s.processTrade (t.processTrade) := by
  refine Loop.exec_related (fun _ _ h => h.processTradeStep hδ) ?_ h
  rw [h.size, h.size]

/-- **The releases** of TWAP orders pass in step. -/
theorem release (currentTime : ℤ) :
    NearEngine S δ (s.processTwapOrdersIfNecessary currentTime)
      (t.processTwapOrdersIfNecessary currentTime) := by
  refine Loop.exec_related ?_ (by rw [h.twapHead, h.twapOrders.length_eq]) h
  intro u v hn
  have horder := Traverse.forall₂_getElem? hn.twapOrders u.twapHead
  simp only [ContractEngine.twapStep, hn.twapHead]
  generalize u.twapOrders[u.twapHead]? = a, v.twapOrders[u.twapHead]? = b at horder
  cases horder with
  | none => exact .none
  | some ho =>
    simp only [ho.timestamp]
    split
    · exact .some ((hn.enterTwap hδ ho).processTrade hδ)
    · exact .none

theorem releaseDue (timestamp : ℤ) :
    NearEngine S δ (s.releaseDue timestamp) (t.releaseDue timestamp) := by
  have horder := Traverse.forall₂_getElem? h.twapOrders s.twapHead
  simp only [ContractEngine.releaseDue, h.twapHead]
  generalize s.twapOrders[s.twapHead]? = a, t.twapOrders[s.twapHead]? = b at horder
  cases horder with
  | none => exact h
  | some ho =>
    simp only [ho.timestamp]
    split
    · exact h.release hδ timestamp
    · exact h

end

end NearEngine
end MatchingEngine.Floating
