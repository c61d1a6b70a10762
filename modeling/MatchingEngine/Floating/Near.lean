import Mathlib
import MatchingEngine.Lib.Traverse
import MatchingEngine.BinaryHeap.Related
import MatchingEngine.Floating.Arithmetic
import MatchingEngine.Contract.Release

/-!
# An engine in floating point near an exact one

The prices of the exact engine are multiples of `0.01`, and those of the engine in floating
point are near them.  As long as they are near, both make the same comparisons, so they hold
the same orders in the same slots of their heaps and make the same trades.  A `PriceLimit` order
adds to the distance, since its price is rounded when it is added to the base price; nothing else
does.  The income is rounded with every own trade.  No volume wraps around, and neither does the
position as long as the own trades are not too large.

## Main definitions

* `Engine` — the engine of the source with the arithmetic of floating point.
* `Scale`, `Fine` — how large prices and volumes may be, and how near the prices must be.
* `NearPrice`, `NearOrder`, `NearEvent`, `NearEngine` — what is near what.
* `AlphaWithin`, `SessionWithin` — how large the other numbers may be.
* `NearEngine.insertAlpha`, `NearEngine.insertOrder`, `NearEngine.enterTwap` — what enters keeps it.
-/

namespace MatchingEngine.Floating

open Arithmetic (double_exact int_exact)
open ContractEngine

/-- The engine, of which all prices are `double` and the other numbers `int`. -/
abbrev Engine := ContractEngine (OrderHeap (A := arithmetic)) arithmetic

/-- How large prices and volumes may be. -/
structure Scale where
  price : ℚ
  size : ℕ
  one_le_price : 1 ≤ price
  price_le : price ≤ 2 ^ 20
  one_le_size : 1 ≤ size
  amount_le : price * size * size ≤ 2 ^ 40

namespace Scale
variable (S : Scale)

/-- By how much a price is off that is rounded. -/
def unit : ℚ := S.price / 2 ^ 53

theorem unit_le : S.unit ≤ 1 / 2 ^ 33 := by
  have h := S.price_le
  rw [unit]
  norm_num at h ⊢
  linarith

theorem unit_pos : 0 < S.unit := div_pos (by linarith [S.one_le_price]) (by norm_num)

theorem one_le_size' : (1 : ℚ) ≤ S.size := by exact_mod_cast S.one_le_size

theorem size_pos : (0 : ℚ) < S.size := by linarith [S.one_le_size']

/-- The largest amount. -/
def amount : ℚ := S.price * S.size

theorem one_le_amount : 1 ≤ S.amount := one_le_mul_of_one_le_of_one_le S.one_le_price S.one_le_size'

theorem amount_mul_size_le : S.amount * S.size ≤ 2 ^ 40 := S.amount_le

theorem amount_le' : S.amount ≤ 2 ^ 40 :=
  le_trans (le_mul_of_one_le_right (by linarith [S.one_le_amount]) S.one_le_size')
    S.amount_mul_size_le

theorem size_le : S.size ≤ 2 ^ 20 := by
  have hsquare : (S.size : ℚ) * S.size ≤ 2 ^ 40 := by
    refine le_trans ?_ S.amount_mul_size_le
    rw [amount, mul_assoc]
    exact le_mul_of_one_le_left (mul_self_nonneg _) S.one_le_price
  have hnat : S.size * S.size ≤ 2 ^ 20 * 2 ^ 20 := by exact_mod_cast hsquare
  exact Nat.mul_self_le_mul_self_iff.mp hnat

end Scale

/-! ## Integers -/

theorem toInt_of_abs_lt {x : ℤ} (h : |x| < 2 ^ 31) : toInt x = x := by
  have hbounds := abs_lt.mp h
  exact Int.bmod_eq_of_le_mul_two (by omega) (by omega)

/-- How large an alpha may be. -/
structure AlphaWithin (alpha : CompactAlpha) : Prop where
  targetVolume : |alpha.targetVolume| ≤ 2 ^ 27
  timestamp : |alpha.timestamp| ≤ 2 ^ 30

instance (alpha : CompactAlpha) : Decidable (AlphaWithin alpha) :=
  decidable_of_iff (|alpha.targetVolume| ≤ 2 ^ 27 ∧ |alpha.timestamp| ≤ 2 ^ 30)
    ⟨fun h => ⟨h.1, h.2⟩, fun h => ⟨h.targetVolume, h.timestamp⟩⟩

/-- How large a session may be. -/
structure SessionWithin (sessionNum sessionLength : ℤ) : Prop where
  sessionNum_pos : 0 < sessionNum
  sessionNum_le : sessionNum ≤ 7
  sessionLength_nonneg : 0 ≤ sessionLength
  span_lt : sessionNum * sessionLength * 1000 < 2 ^ 30

section alphas
variable {sessionNum diff : ℤ} (hdiff : 0 ≤ diff) {i : ℕ} (hi : (i : ℤ) < sessionNum)
include hdiff hi

theorem volume_twapSlice_bounds (sessionLength : ℤ) (alpha : CompactAlpha) (d : Direction) :
    let o := twapSlice sessionNum sessionLength alpha d diff i
    0 ≤ o.volume ∧ o.volume ≤ diff := by
  have hpos : 0 < sessionNum := by omega
  intro o
  rw [volume_twapSlice i hdiff]
  refine ⟨FairSplit.share_nonneg hpos i hdiff, ?_⟩
  have hlast : diff * (i + 1) / sessionNum ≤ diff :=
    Int.ediv_le_of_le_mul hpos (mul_le_mul_of_nonneg_left (by omega) hdiff)
  have hfirst : 0 ≤ diff * i / sessionNum := Int.ediv_nonneg (by positivity) hpos.le
  rw [FairSplit.share]
  omega

/-- No slice of an alpha wraps around. -/
theorem twapSlice_eq {sessionLength : ℤ} (hsession : SessionWithin sessionNum sessionLength)
    {alpha : CompactAlpha} (halpha : AlphaWithin alpha) (hle : diff ≤ 2 ^ 28) (d : Direction) :
    twapSlice (A := arithmetic) sessionNum sessionLength alpha d diff i =
      twapSlice sessionNum sessionLength alpha d diff i := by
  obtain ⟨-, hnum, hlength, hspan⟩ := hsession
  have hvolume := volume_twapSlice_bounds hdiff hi sessionLength alpha d
  have htime := abs_le.mp halpha.timestamp
  have hspan0 : 0 ≤ i * sessionLength := by positivity
  have hspani : i * sessionLength * 1000 ≤ sessionNum * sessionLength * 1000 :=
    mul_le_mul_of_nonneg_right (mul_le_mul_of_nonneg_right hi.le hlength) (by norm_num)
  have hlast : diff * (i + 1) ≤ 2 ^ 28 * 7 :=
    mul_le_mul hle (by omega) (by omega) (by norm_num)
  have hfirst : diff * i ≤ diff * (i + 1) := mul_le_mul_of_nonneg_left (by omega) hdiff
  have hfirst0 : 0 ≤ diff * i := by positivity
  have hslice : toInt (diff * (i + 1)) = diff * (i + 1) ∧ toInt (diff * i) = diff * i :=
    ⟨toInt_of_abs_lt (by rw [abs_lt]; omega), toInt_of_abs_lt (by rw [abs_lt]; omega)⟩
  have hoffset : toInt (i * sessionLength) = i * sessionLength :=
    toInt_of_abs_lt (by rw [abs_lt]; omega)
  have hoffset' : toInt (i * sessionLength * 1000) = i * sessionLength * 1000 :=
    toInt_of_abs_lt (by rw [abs_lt]; omega)
  simp only [twapSlice, int_exact] at hvolume
  simp only [twapSlice, int_exact, int_arithmetic, hslice, hoffset, hoffset']
  rw [toInt_of_abs_lt (by rw [abs_lt]; omega), toInt_of_abs_lt (by rw [abs_lt]; omega)]

end alphas

/-- How near the prices must be. -/
structure Fine (S : Scale) (δ : ℚ) : Prop where
  unit_le : S.unit ≤ δ
  le : δ ≤ 1 / 2 ^ 27
  mul_size_le : δ * S.size ≤ 1 / 2 ^ 13

theorem Fine.tolerance {S : Scale} {δ : ℚ} (h : Fine S δ) : δ ≤ tolerance :=
  h.le.trans (by norm_num [Floating.tolerance])

/-- A price of the grid and a number near it. -/
structure NearPrice (S : Scale) (δ x x' : ℚ) : Prop where
  onGrid : OnGrid x
  bounded : |x| ≤ S.price
  near : Near δ x x'

/-- The same order, with a price near it. -/
structure NearOrder (S : Scale) (δ : ℚ) (o o' : CompactOrderLog) : Prop where
  fields : o' = { o with price := o'.price }
  price : NearPrice S δ o.price o'.price
  volume_nonneg : 0 ≤ o.volume
  volume_le : o.volume ≤ 2 ^ 30

/-- The same event, with orders and a price near it; the position is not compared here. -/
inductive NearEvent (S : Scale) (δ : ℚ) : Event → Event → Prop
  | insert (d : Direction) {o o' : CompactOrderLog} (h : NearOrder S δ o o') :
    NearEvent S δ (.insert d o) (.insert d o')
  | immediate {o o' : CompactOrderLog} (h : NearOrder S δ o o') :
    NearEvent S δ (.immediate o) (.immediate o')
  | trade {saleOrder saleOrder' buyOrder buyOrder' : CompactOrderLog} {tradePrice tradePrice' : ℚ}
    (tradeVolume position position' : ℤ) (hsale : NearOrder S δ saleOrder saleOrder')
    (hbuy : NearOrder S δ buyOrder buyOrder') (hprice : NearPrice S δ tradePrice tradePrice') :
    NearEvent S δ (.trade saleOrder buyOrder tradePrice tradeVolume position)
      (.trade saleOrder' buyOrder' tradePrice' tradeVolume position')
  | discard {o o' : CompactOrderLog} (h : NearOrder S δ o o') :
    NearEvent S δ (.discard o) (.discard o')

section order
variable {S : Scale} {δ ε : ℚ}

theorem NearPrice.mono {x x' : ℚ} (h : NearPrice S δ x x') (hle : δ ≤ ε) : NearPrice S ε x x' :=
  ⟨h.onGrid, h.bounded, h.near.mono hle⟩

variable {o o' : CompactOrderLog} (h : NearOrder S δ o o')
include h

theorem NearOrder.mono (hle : δ ≤ ε) : NearOrder S ε o o' := { h with price := h.price.mono hle }

theorem NearOrder.timestamp : o'.timestamp = o.timestamp := by rw [h.fields]

theorem NearOrder.volume : o'.volume = o.volume := by rw [h.fields]

theorem NearOrder.directionAndType : o'.directionAndType = o.directionAndType := by rw [h.fields]

theorem NearOrder.type : o'.type = o.type := by
  rw [CompactOrderLog.type, h.directionAndType, CompactOrderLog.type]

theorem NearOrder.direction : o'.direction = o.direction := by
  rw [CompactOrderLog.direction, h.directionAndType, CompactOrderLog.direction]

theorem NearOrder.twapDirection : o'.twapDirection = o.twapDirection := by
  rw [CompactOrderLog.twapDirection, h.directionAndType, CompactOrderLog.twapDirection]

theorem NearOrder.isOwn : o'.IsOwn ↔ o.IsOwn := by
  rw [CompactOrderLog.IsOwn, h.type, CompactOrderLog.IsOwn]

theorem NearOrder.reduce {v : ℤ} (hv0 : 0 ≤ v) (hv : v ≤ o.volume) :
    NearOrder S δ (o.reduce v) (o'.reduce (A := arithmetic) v) := by
  have hle := h.volume_le
  refine ⟨?_, h.price, sub_nonneg.mpr hv, (sub_le_self _ hv0).trans hle⟩
  have hvolume : toInt (o'.volume - v) = o.volume - v := by
    rw [h.volume]
    exact toInt_of_abs_lt (abs_lt.mpr ⟨by omega, by omega⟩)
  unfold CompactOrderLog.reduce
  rw [int_arithmetic, hvolume]
  conv_lhs => rw [h.fields]
  rfl

theorem NearOrder.withPrice {x x' : ℚ} (hx : NearPrice S ε x x') :
    NearOrder S ε { o with price := x } { o' with price := x' } := by
  refine ⟨?_, hx, h.volume_nonneg, h.volume_le⟩
  conv_lhs => rw [h.fields]

end order

section compare
variable {S : Scale} {δ : ℚ} (hδ : Fine S δ)
include hδ

theorem NearPrice.compared {x x' y y' : ℚ} (hx : NearPrice S δ x x') (hy : NearPrice S δ y y') :
    (priceEq (A := arithmetic) x' y' ↔ priceEq x y) ∧
      (priceNeq (A := arithmetic) x' y' ↔ priceNeq x y) ∧
      (priceGt (A := arithmetic) x' y' ↔ priceGt x y) := by
  have hbound : S.price ≤ bound := S.price_le.trans (by norm_num [bound])
  have hxB := hx.bounded.trans hbound
  have hyB := hy.bounded.trans hbound
  have hx' := hx.near.mono hδ.tolerance
  have hy' := hy.near.mono hδ.tolerance
  exact ⟨priceEq_near hx.onGrid hy.onGrid hxB hyB hx' hy',
    priceNeq_near hx.onGrid hy.onGrid hxB hyB hx' hy',
    priceGt_near hx.onGrid hy.onGrid hxB hyB hx' hy'⟩

/-- The comparators answer the same on orders that are near. -/
theorem cmp_nearOrder (d : Direction) (a a' b b' : CompactOrderLog) (ha : NearOrder S δ a a')
    (hb : NearOrder S δ b b') : d.cmp (A := arithmetic) a' b' = d.cmp a b := by
  have hbound : S.price ≤ bound := S.price_le.trans (by norm_num [bound])
  exact cmp_near d ha.price.onGrid hb.price.onGrid (ha.price.bounded.trans hbound)
    (hb.price.bounded.trans hbound) (ha.price.near.mono hδ.tolerance)
    (hb.price.near.mono hδ.tolerance) ha.timestamp hb.timestamp ha.type hb.type

end compare

/-! ## The engines -/

/-- How much the own trades of an event count. -/
def ownSize : Event → ℕ
  | .trade saleOrder buyOrder _ tradeVolume _ =>
    if saleOrder.IsOwn ∨ buyOrder.IsOwn then tradeVolume.natAbs + 1 else 0
  | _ => 0

/-- The own trades of a history: their number and their volumes. -/
def ownTotal (history : List Event) : ℕ := (history.map ownSize).sum

@[simp] theorem ownTotal_append (history : List Event) (e : Event) :
    ownTotal (history ++ [e]) = ownTotal history + ownSize e := by
  simp [ownTotal]

/-- By how much the income is off after own trades. -/
def incomeError (S : Scale) (total : ℕ) : ℚ := 3 * (S.amount * total) / 2 ^ 53

/-- The engine `t` in floating point does what the exact engine `s` does. -/
structure NearEngine (S : Scale) (δ : ℚ) (s : ContractEngine OrderHeap) (t : Engine) : Prop where
  heap : ∀ d, BinaryHeap.Related (NearOrder S δ) (s.heap d) (t.heap d)
  lastPrice : NearPrice S δ s.lastPrice t.lastPrice
  upLimit : OnGrid s.upLimit ∧ 0 ≤ s.upLimit ∧ s.upLimit ≤ S.price ∧ t.upLimit = double s.upLimit
  downLimit : OnGrid s.downLimit ∧ 0 ≤ s.downLimit ∧ s.downLimit ≤ S.price ∧
    t.downLimit = double s.downLimit
  prevClosePrice : NearPrice S S.unit s.prevTradeInfo.prevClosePrice t.prevTradeInfo.prevClosePrice
  prevPosition : t.prevTradeInfo.prevPosition = s.prevTradeInfo.prevPosition
  targetVolume : t.targetVolume = s.targetVolume ∧ |s.targetVolume| ≤ 2 ^ 27
  session : SessionWithin s.sessionNum s.sessionLength
  sessionNum : t.sessionNum = s.sessionNum
  sessionLength : t.sessionLength = s.sessionLength
  instrument : t.instrument = s.instrument
  twapHead : t.twapHead = s.twapHead
  twapOrders : List.Forall₂ (NearOrder S δ) s.twapOrders t.twapOrders
  history : List.Forall₂ (NearEvent S δ) s.history t.history
  onGrid_income : OnGrid s.income
  abs_income : |s.income| ≤ S.price * ownTotal s.history
  abs_volume : |s.volume| ≤ |s.prevTradeInfo.prevPosition| + ownTotal s.history
  /-- As long as the own trades are not too large. -/
  income : ownTotal s.history ≤ S.size →
    Near (incomeError S (ownTotal s.history)) s.income t.income
  volume : |s.prevTradeInfo.prevPosition| + ownTotal s.history ≤ S.size → t.volume = s.volume

namespace NearEngine

section
variable {S : Scale} {δ ε : ℚ} {s : ContractEngine OrderHeap} {t : Engine}
  (h : NearEngine S δ s t)
include h

theorem mono (hle : δ ≤ ε) : NearEngine S ε s t :=
  { h with
    heap := fun d => (h.heap d).mono fun _ _ ho => ho.mono hle
    lastPrice := h.lastPrice.mono hle
    twapOrders := h.twapOrders.imp fun _ _ ho => ho.mono hle
    history := h.history.imp fun _ _ he => by
      cases he with
      | insert d ho => exact .insert d (ho.mono hle)
      | immediate ho => exact .immediate (ho.mono hle)
      | trade v position position' hsale hbuy hprice =>
        exact .trade v position position' (hsale.mono hle) (hbuy.mono hle) (hprice.mono hle)
      | discard ho => exact .discard (ho.mono hle) }

theorem isEmpty (d : Direction) :
    OrderQueue.isEmpty (t.heap d) = OrderQueue.isEmpty (s.heap d) := (h.heap d).isEmpty

theorem size (d : Direction) :
    OrderQueue.size (t.heap d) = OrderQueue.size (s.heap d) := (h.heap d).size

theorem top {d : Direction} (hne : OrderQueue.isEmpty (s.heap d) = false) :
    NearOrder S δ (OrderQueue.top (s.heap d)) (OrderQueue.top (t.heap d)) :=
  (h.heap d).top (BinaryHeap.size_pos_of_not_isEmpty hne)

theorem setHeap {d : Direction} {q : OrderHeap d} {q' : OrderHeap (A := arithmetic) d}
    (hq : BinaryHeap.Related (NearOrder S δ) q q') :
    NearEngine S δ (s.setHeap d q) (t.setHeap d q') :=
  { h with
    heap := fun e => by
      change BinaryHeap.Related _ (Function.update s.heap d q e) (Function.update t.heap d q' e)
      by_cases he : e = d
      · subst he
        rwa [Function.update_self, Function.update_self]
      · rw [Function.update_of_ne he, Function.update_of_ne he]
        exact h.heap e }

/-- An event that is no own trade. -/
theorem log {e e' : Event} (he : NearEvent S δ e e') (hown : ownSize e = 0) :
    NearEngine S δ (s.log e) (t.log e') := by
  have htotal : ownTotal (s.log e).history = ownTotal s.history := by
    rw [ContractEngine.log, ownTotal_append, hown, Nat.add_zero]
  exact
    { h with
      history := List.rel_append h.history (.cons he .nil)
      abs_income := by rw [htotal]; exact h.abs_income
      abs_volume := by rw [htotal]; exact h.abs_volume
      income := by rw [htotal]; exact h.income
      volume := by rw [htotal]; exact h.volume }

theorem named {o o' : CompactOrderLog} (ho : NearOrder S δ o o') :
    NearOrder S δ (s.named o) (t.named o') := by
  refine ⟨?_, ho.price, ho.volume_nonneg, ho.volume_le⟩
  rw [ContractEngine.named, ContractEngine.named, h.history.length_eq]
  conv_lhs => rw [ho.fields]

/-- The base prices are near. -/
theorem basePrice (direction : Option Direction) :
    NearPrice S δ (s.getCurrentBasePrice direction) (t.getCurrentBasePrice direction) := by
  cases direction with
  | none => exact h.lastPrice
  | some d =>
    simp only [getCurrentBasePrice, h.isEmpty]
    by_cases hopposite : OrderQueue.isEmpty (s.heap d.opposite) = false
    · rw [if_pos hopposite, if_pos hopposite]
      exact (h.top hopposite).price
    · rw [if_neg hopposite, if_neg hopposite]
      by_cases hown : OrderQueue.isEmpty (s.heap d) = false
      · rw [if_pos hown, if_pos hown]
        exact (h.top hown).price
      · rw [if_neg hown, if_neg hown]
        exact h.lastPrice

/-! ## Alphas -/

theorem insertAlpha {alpha : CompactAlpha} (halpha : AlphaWithin alpha) :
    NearEngine S δ (s.insertAlpha alpha) (t.insertAlpha alpha) := by
  have htarget := abs_le.mp h.targetVolume.2
  have halphaTarget := abs_le.mp halpha.targetVolume
  have hdiff : toInt (alpha.targetVolume - s.targetVolume) = alpha.targetVolume - s.targetVolume :=
    toInt_of_abs_lt (by rw [abs_lt]; omega)
  have hsmall : -2 ^ 28 ≤ alpha.targetVolume - s.targetVolume ∧
      alpha.targetVolume - s.targetVolume ≤ 2 ^ 28 := by omega
  simp only [ContractEngine.insertAlpha, int_exact, int_arithmetic, h.targetVolume.1, h.sessionNum,
    h.sessionLength, hdiff]
  generalize alpha.targetVolume - s.targetVolume = diff at hsmall
  by_cases hzero : diff = 0
  · rw [if_pos hzero, if_pos hzero]
    exact h
  · rw [if_neg hzero, if_neg hzero]
    have hneg : toInt (-diff) = -diff := toInt_of_abs_lt (by rw [abs_lt]; omega)
    rw [hneg]
    generalize (if 0 < diff then Direction.Buy else .Sale) = d
    have hsize : 0 ≤ (if diff < 0 then -diff else diff) ∧
        (if diff < 0 then -diff else diff) ≤ 2 ^ 28 := by
      split <;> omega
    generalize (if diff < 0 then -diff else diff) = size at hsize
    have hslices : (List.range s.sessionNum.toNat).map
        (twapSlice (A := arithmetic) s.sessionNum s.sessionLength alpha d size) =
          (List.range s.sessionNum.toNat).map
            (twapSlice s.sessionNum s.sessionLength alpha d size) :=
      List.map_congr_left fun i hi =>
        twapSlice_eq hsize.1 (Int.lt_toNat.mp (List.mem_range.mp hi)) h.session halpha hsize.2 d
    rw [hslices]
    exact
      { h with
        targetVolume := ⟨rfl, halpha.targetVolume⟩
        sessionNum := rfl
        sessionLength := rfl
        twapOrders := by
          refine List.rel_append h.twapOrders ?_
          rw [List.forall₂_map_left_iff, List.forall₂_map_right_iff, List.forall₂_same]
          intro i hi
          have hvolume := volume_twapSlice_bounds hsize.1
            (Int.lt_toNat.mp (List.mem_range.mp hi)) s.sessionLength alpha d
          refine ⟨rfl, ⟨⟨0, by simp [twapSlice]⟩, ?_, ?_⟩, hvolume.1, ?_⟩
          · simpa [twapSlice] using zero_le_one.trans S.one_le_price
          · exact near_refl h.lastPrice.near.nonneg _
          · exact hvolume.2.trans (hsize.2.trans (by norm_num)) }

end

/-! ## Orders that enter a heap -/

section
variable {S : Scale} {δ : ℚ} (hδ : Fine S δ) {s : ContractEngine OrderHeap} {t : Engine}
  (h : NearEngine S δ s t)
include hδ h

theorem insertOrder (d : Direction) {o o' : CompactOrderLog} (ho : NearOrder S δ o o') :
    NearEngine S δ (s.insertOrder d o) (t.insertOrder d o') :=
  (h.setHeap ((h.heap d).insert (cmp_nearOrder hδ d) (h.named ho))).log
    (.insert d (h.named ho)) rfl

theorem insertBestPrice (d : Direction) {o o' : CompactOrderLog} (ho : NearOrder S δ o o') :
    NearEngine S δ (s.insertBestPrice d o) (t.insertBestPrice d o') := by
  simp only [ContractEngine.insertBestPrice, h.isEmpty, ho.direction]
  by_cases hne : OrderQueue.isEmpty (s.heap d) = false
  · rw [if_pos hne, if_pos hne]
    exact h.insertOrder hδ _ (ho.withPrice (h.top hne).price)
  · rw [if_neg hne, if_neg hne]
    exact h

omit hδ in
theorem priced {o o' : CompactOrderLog} (ho : NearOrder S δ o o') :
    NearOrder S δ (s.priced o) (t.priced o') := by
  have hprice := h.basePrice o.twapDirection
  rw [← ho.twapDirection] at hprice
  rw [ContractEngine.priced, ContractEngine.priced, ← ho.twapDirection]
  exact ho.withPrice hprice

omit hδ in
theorem passTwap {o o' : CompactOrderLog} (ho : NearOrder S δ o o') :
    NearEngine S δ (s.passTwap o) (t.passTwap o') :=
  { h with
    twapHead := congrArg (· + 1) h.twapHead
    twapOrders := by
      simp only [ContractEngine.passTwap, h.twapHead]
      exact Traverse.forall₂_set h.twapOrders (h.priced ho) _ }

theorem enterTwap {o o' : CompactOrderLog} (ho : NearOrder S δ o o') :
    NearEngine S δ (s.enterTwap o) (t.enterTwap o') := by
  cases hd : o.twapDirection with
  | none =>
    rw [enterTwap_of_none s hd, enterTwap_of_none t (ho.twapDirection.trans hd)]
    exact h.passTwap ho
  | some d =>
    rw [enterTwap_of_some s hd, enterTwap_of_some t (ho.twapDirection.trans hd), ho.volume]
    split
    · exact (h.passTwap ho).insertOrder hδ d (h.priced ho)
    · exact h.passTwap ho

end

end NearEngine
end MatchingEngine.Floating
