import Mathlib
import MatchingEngine.Floating.Trades

/-!
# Price limits in floating point

The limits of the day and those of a `PriceLimit` order are rounded to two decimals.  What is
rounded is a multiple of `0.0002`, which is by `EPS` away from where rounding goes the other way,
so the `double` that is computed is the one nearest to the exact limit.  An order is refused in
floating point just if it is refused, and an accepted one is at most `3` roundings further off than
the price it is relative to.

## Main definitions

* `Rounded` — the numbers that are rounded.
* `nearEngine_new` — the constructor.
* `NearEngine.insertPriceLimit` — an order that adds to the distance.
* `Scale.error`, `NearEngine.insertBookOrder` — how far off the prices are.
-/

namespace MatchingEngine.Floating

open Arithmetic (double_exact int_exact)
open ContractEngine

/-! ## Rounding to two decimals -/

/-- Cutting does not go away from zero. -/
theorem abs_toLongLong_le (y : ℚ) : |(toLongLong y : ℚ)| ≤ |y| := by
  have hcut : ∀ {z : ℚ}, 0 ≤ z → |(toLongLong z : ℚ)| ≤ |z| := by
    intro z hz
    have hfloor : (0 : ℚ) ≤ ⌊z⌋ := by exact_mod_cast Int.floor_nonneg.mpr hz
    rw [toLongLong_of_nonneg hz, abs_of_nonneg hfloor, abs_of_nonneg hz]
    exact Int.floor_le z
  rcases le_total 0 y with hy | hy
  · exact hcut hy
  · have hneg := hcut (neg_nonneg.mpr hy)
    rwa [toLongLong_neg, Int.cast_neg, abs_neg, abs_neg] at hneg

theorem abs_highPrecisionRound2_le_add (x : ℚ) :
    |highPrecisionRound2 x| ≤ |x| + 1 / 100 := by
  have hcut := abs_toLongLong_le (x * 100 + (1 / 2 + eps))
  have hsum : |x * 100 + (1 / 2 + eps)| ≤ |x| * 100 + 1 := by
    refine (abs_add_le _ _).trans (add_le_add ?_ (by norm_num [eps, abs_of_nonneg]))
    rw [abs_mul, abs_of_pos (by norm_num : (0 : ℚ) < 100)]
  rw [highPrecisionRound2_eq, abs_div, abs_of_pos (by norm_num : (0 : ℚ) < 100)]
  linarith

/-- Rounding does not exceed a price of the grid. -/
theorem highPrecisionRound2_le {x y : ℚ} (hle : x ≤ y) (hy : OnGrid y) (h0 : 0 ≤ y) :
    highPrecisionRound2 x ≤ y := by
  rcases le_total 0 x with hx | hx
  · calc highPrecisionRound2 x ≤ highPrecisionRound2 y :=
        highPrecisionRound2_mono hx hle
      _ = y := highPrecisionRound2_of_onGrid hy h0
  · have hcut : toLongLong (x * 100 + (1 / 2 + eps)) ≤ 0 := by
      rcases le_total 0 (x * 100 + (1 / 2 + eps)) with hz | hz
      · rw [toLongLong_of_nonneg hz, Int.floor_le_iff]
        norm_num [eps]
        linarith
      · have hfloor := Int.floor_nonneg.mpr (neg_nonneg.mpr hz)
        have hneg := toLongLong_neg (x * 100 + (1 / 2 + eps))
        rw [toLongLong_of_nonneg (neg_nonneg.mpr hz)] at hneg
        omega
    have hcast : (toLongLong (x * 100 + (1 / 2 + eps)) : ℚ) ≤ 0 := by exact_mod_cast hcut
    rw [highPrecisionRound2_eq]
    linarith

/-! ## The numbers that are rounded -/

theorem fine_unit (S : Scale) : Fine S S.unit := by
  refine ⟨le_rfl, S.unit_le.trans (by norm_num), ?_⟩
  have hamount := S.amount_le'
  rw [Scale.amount] at hamount
  rw [Scale.unit]
  norm_num at hamount ⊢
  linarith

/-- A number that is rounded to two decimals, and the computed one. -/
structure Rounded (S : Scale) (x x' : ℚ) : Prop where
  near : Near (93 / 10 ^ 10) x x'
  bounded : |x| ≤ 2 * S.price
  fine : ∃ j : ℤ, x = j / 5000

section rounded
variable {S : Scale} {x x' y y' : ℚ}

theorem Rounded.min (hx : Rounded S x x') (hy : Rounded S y y') :
    Rounded S (min x y) (min x' y') := by
  refine ⟨hx.near.min hy.near, abs_min_le_max_abs_abs.trans (max_le hx.bounded hy.bounded), ?_⟩
  rcases min_choice x y with h | h <;> rw [h]
  · exact hx.fine
  · exact hy.fine

theorem Rounded.max (hx : Rounded S x x') (hy : Rounded S y y') :
    Rounded S (max x y) (max x' y') := by
  refine ⟨hx.near.max hy.near, abs_max_le_max_abs_abs.trans (max_le hx.bounded hy.bounded), ?_⟩
  rcases max_choice x y with h | h <;> rw [h]
  · exact hx.fine
  · exact hy.fine

/-- **A limit** is rounded to the `double` nearest to the exact one. -/
theorem Rounded.eq (hx : Rounded S x x') :
    highPrecisionRound2 (A := arithmetic) x' = double (highPrecisionRound2 x) := by
  have hprice := S.price_le
  have hone := S.one_le_price
  refine highPrecisionRound2_of_fine hx.near hx.bounded (by linarith) (by linarith) hx.fine ?_
  norm_num [eps] at hprice ⊢
  linarith

theorem Rounded.abs_le (hx : Rounded S x x') :
    |highPrecisionRound2 x| ≤ bound := by
  have hround := abs_highPrecisionRound2_le_add x
  have hprice := S.price_le
  have hsize := hx.bounded
  norm_num [bound] at hprice ⊢
  linarith

theorem rounded_onGrid (hx : OnGrid x) (hsize : |x| ≤ S.price) : Rounded S x (double x) := by
  have hprice := S.one_le_price
  have hunit := S.unit_le
  refine ⟨(near_double hsize hprice).mono ?_, by linarith, ?_⟩
  · rw [Scale.unit] at hunit
    norm_num at hunit ⊢
    linarith
  · obtain ⟨k, rfl⟩ := hx
    exact ⟨50 * k, by push_cast; ring⟩

variable {δ : ℚ} (hδ : Fine S δ) (hx : NearPrice S δ x x')
include hδ hx

/-- A share of a price. -/
theorem rounded_mul {c : ℚ} (hc : |c| ≤ 11 / 10) (hfine : ∃ j : ℤ, c = j / 50) :
    Rounded S (x * c) (double (x' * double c)) := by
  have hprice := S.one_le_price
  have hunit := S.unit_le
  have hδ0 := hx.near.nonneg
  have hle := hδ.le
  have hc' := near_double hc (by norm_num)
  have hsize : |x * c| ≤ 2 * S.price := by
    rw [abs_mul]
    refine (mul_le_mul hx.bounded hc (abs_nonneg c) (by linarith)).trans ?_
    linarith
  have hmul := (hx.near.mul hc' hx.bounded (hc'.abs_le hc)).double hsize
    (by norm_num; linarith)
  refine ⟨hmul.mono ?_, hsize, ?_⟩
  · rw [Scale.unit] at hunit
    norm_num at hunit hle ⊢
    linarith
  · obtain ⟨j, rfl⟩ := hfine
    obtain ⟨k, rfl⟩ := hx.onGrid
    exact ⟨j * k, by push_cast; ring⟩

/-- A tenth above a price, or below it. -/
theorem rounded_add {c : ℚ} (hc : |c| ≤ 1) (hfine : ∃ j : ℤ, c = j / 10) :
    Rounded S (x + c) (double (x' + double c)) := by
  have hprice := S.one_le_price
  have hunit := S.unit_le
  have hδ0 := hx.near.nonneg
  have hle := hδ.le
  have hsize : |x + c| ≤ 2 * S.price :=
    (abs_add_le _ _).trans (by linarith [hx.bounded])
  have hadd := (hx.near.add (near_double hc le_rfl)).double hsize (by norm_num; linarith)
  refine ⟨hadd.mono ?_, hsize, ?_⟩
  · rw [Scale.unit] at hunit
    norm_num at hunit hle ⊢
    linarith
  · obtain ⟨j, rfl⟩ := hfine
    obtain ⟨k, rfl⟩ := hx.onGrid
    exact ⟨50 * k + 500 * j, by push_cast; ring⟩

end rounded

/-! ## The limits of the day -/

/-- The same information, with the previous closing price as it is stored. -/
def storedInfo (info : CompactPrevTradeInfo) : CompactPrevTradeInfo :=
  { info with prevClosePrice := double info.prevClosePrice }

section day
variable {S : Scale} {info : CompactPrevTradeInfo} (hgrid : OnGrid info.prevClosePrice)
  (h0 : 0 ≤ info.prevClosePrice) (hle : 2 * info.prevClosePrice ≤ S.price)
include hgrid h0 hle

theorem nearPrice_prevClosePrice :
    NearPrice S S.unit info.prevClosePrice (double info.prevClosePrice) := by
  have habs : |info.prevClosePrice| ≤ S.price := by
    rw [abs_of_nonneg h0]
    linarith
  exact ⟨hgrid, habs, near_double habs S.one_le_price⟩

/-- A limit of the day: a share of the previous closing price. -/
theorem limit_of_day {c : ℚ} (hc0 : 0 ≤ c) (hc : c ≤ 11 / 10) (hfine : ∃ j : ℤ, c = j / 50) :
    let limit := highPrecisionRound2 (info.prevClosePrice * c)
    OnGrid limit ∧ 0 ≤ limit ∧ limit ≤ S.price ∧
      highPrecisionRound2 (A := arithmetic) (double (double info.prevClosePrice * double c)) =
        double limit := by
  have hone := S.one_le_price
  have habs : |c| ≤ 11 / 10 := by rwa [abs_of_nonneg hc0]
  have hrounded := rounded_mul (fine_unit S) (nearPrice_prevClosePrice hgrid h0 hle) habs hfine
  have hround := abs_highPrecisionRound2_le_add (info.prevClosePrice * c)
  have hmul : |info.prevClosePrice * c| ≤ info.prevClosePrice * (11 / 10) := by
    rw [abs_of_nonneg (mul_nonneg h0 hc0)]
    exact mul_le_mul_of_nonneg_left hc h0
  refine ⟨onGrid_highPrecisionRound2 _, highPrecisionRound2_nonneg (mul_nonneg h0 hc0),
    (le_abs_self _).trans (by linarith), hrounded.eq⟩

/-- **The constructor** makes engines that are near. -/
theorem nearEngine_new {sessionNum sessionLength : ℤ} (hsession : SessionWithin sessionNum sessionLength)
    (hposition : |info.prevPosition| ≤ 2 ^ 27) (instrument : UInt64) :
    NearEngine S S.unit (new sessionNum sessionLength info instrument)
      (new sessionNum sessionLength (storedInfo info) instrument) where
  heap d := BinaryHeap.related_new _ _ _
  lastPrice := nearPrice_prevClosePrice hgrid h0 hle
  upLimit := limit_of_day hgrid h0 hle (by norm_num) le_rfl ⟨55, by norm_num⟩
  downLimit := limit_of_day hgrid h0 hle (by norm_num) (by norm_num) ⟨45, by norm_num⟩
  prevClosePrice := nearPrice_prevClosePrice hgrid h0 hle
  prevPosition := rfl
  targetVolume := ⟨rfl, hposition⟩
  session := hsession
  sessionNum := rfl
  sessionLength := rfl
  instrument := rfl
  twapHead := rfl
  twapOrders := .nil
  history := .nil
  onGrid_income := ⟨0, by simp [new]⟩
  abs_income := by simp [new, ownTotal]
  abs_volume := by simp [new, ownTotal]
  income _ := by simp [new, ownTotal, incomeError, Near]
  volume _ := rfl

end day

/-! ## The limits of an order -/

namespace NearEngine

section
variable {S : Scale} {δ : ℚ} (hδ : Fine S δ) {s : ContractEngine OrderHeap} {t : Engine}
  (h : NearEngine S δ s t) {x x' : ℚ} (hx : NearPrice S δ x x')
include hδ h hx

/-- The ends of the price band before they are rounded; an end that is a limit of the day is not. -/
theorem priceBand (d : Direction) :
    t.priceBand d x' = (double (s.priceBand d x).1, double (s.priceBand d x).2) ∧
      |(s.priceBand d x).1| ≤ bound ∧ |(s.priceBand d x).2| ≤ bound ∧
      OnGrid (s.priceBand d x).1 ∧ OnGrid (s.priceBand d x).2 ∧
      s.downLimit ≤ (s.priceBand d x).1 ∧ (s.priceBand d x).2 ≤ s.upLimit := by
  obtain ⟨hupGrid, hup0, hup, hup'⟩ := h.upLimit
  obtain ⟨hdownGrid, hdown0, hdown, hdown'⟩ := h.downLimit
  have hprice := S.price_le
  have hupAbs : |s.upLimit| ≤ S.price := by rwa [abs_of_nonneg hup0]
  have hdownAbs : |s.downLimit| ≤ S.price := by rwa [abs_of_nonneg hdown0]
  have hbound : S.price ≤ bound := hprice.trans (by norm_num [bound])
  cases d with
  | Buy =>
    have hmul := rounded_mul hδ hx (c := 102 / 100) (by norm_num [abs_of_nonneg])
      ⟨51, by norm_num⟩
    have hadd := rounded_add hδ hx (c := 1 / 10) (by norm_num [abs_of_nonneg]) ⟨1, by norm_num⟩
    have hend := (hmul.max hadd).min (rounded_onGrid hupGrid hupAbs)
    simp only [ContractEngine.priceBand, double_exact, double_arithmetic]
    rw [hup', hdown', hend.eq]
    exact ⟨rfl, hdownAbs.trans hbound, hend.abs_le, hdownGrid, onGrid_highPrecisionRound2 _, le_rfl,
      highPrecisionRound2_le (min_le_right _ _) hupGrid hup0⟩
  | Sale =>
    have hmul := rounded_mul hδ hx (c := 98 / 100) (by norm_num [abs_of_nonneg])
      ⟨49, by norm_num⟩
    have hadd := rounded_add hδ hx (c := -(1 / 10)) (by norm_num [abs_of_nonneg]) ⟨-1, by norm_num⟩
    rw [double_neg, ← sub_eq_add_neg, ← sub_eq_add_neg] at hadd
    have hend := (hmul.min hadd).max (rounded_onGrid hdownGrid hdownAbs)
    have hround : s.downLimit ≤ highPrecisionRound2
        (max (min (x * (98 / 100)) (x - 1 / 10)) s.downLimit) :=
      calc s.downLimit = highPrecisionRound2 s.downLimit :=
            (highPrecisionRound2_of_onGrid hdownGrid hdown0).symm
        _ ≤ _ := highPrecisionRound2_mono hdown0 (le_max_right _ _)
    simp only [ContractEngine.priceBand, double_exact, double_arithmetic]
    rw [hup', hdown', hend.eq]
    exact ⟨rfl, hend.abs_le, hupAbs.trans hbound, onGrid_highPrecisionRound2 _, hupGrid, hround,
      le_rfl⟩

end

section
variable {S : Scale} {δ : ℚ} {s : ContractEngine OrderHeap} {t : Engine}
  (h : NearEngine S δ s t) {o o' : CompactOrderLog} (ho : NearOrder S S.unit o o')
include h ho

/-- **A `PriceLimit` order** is refused in both engines or in neither, and its price is at most `3`
roundings further off than the prices so far. -/
theorem insertPriceLimit (hδ : Fine S (δ + 3 * S.unit)) :
    NearEngine S (δ + 3 * S.unit) (s.insertPriceLimit o) (t.insertPriceLimit o') := by
  have hunit0 := S.unit_pos
  have hunit := S.unit_le
  have hone := S.one_le_price
  have hpriceLe := S.price_le
  have hδle := hδ.le
  have hδ0 := h.lastPrice.near.nonneg
  have hmono : δ ≤ δ + 3 * S.unit := by linarith
  simp only [ContractEngine.insertPriceLimit, double_exact, double_arithmetic, ho.direction]
  have hbase := (h.mono hmono).basePrice (some o.direction)
  have hnear := h.basePrice (some o.direction)
  set base := s.getCurrentBasePrice (some o.direction)
  set base' := t.getCurrentBasePrice (some o.direction)
  obtain ⟨hband, hlow, hhigh, hlowGrid, hhighGrid, hdown, hup⟩ :=
    (h.mono hmono).priceBand hδ hbase o.direction
  have hgrid : OnGrid (base + o.price) := hnear.onGrid.add ho.price.onGrid
  have hsum := hnear.near.add ho.price.near
  have hsize : |base + o.price| ≤ 2 * S.price :=
    (abs_add_le _ _).trans (by linarith [hnear.bounded, ho.price.bounded])
  -- near enough for the comparisons with the ends of the band
  have hprice : Near tolerance (base + o.price) (double (base' + o'.price)) := by
    refine (hsum.double hsize (by linarith)).mono ?_
    norm_num [tolerance] at hunit hδle hpriceLe ⊢
    linarith
  have hbound : |base + o.price| ≤ bound := by
    norm_num [bound] at hpriceLe ⊢
    linarith
  have hend : ∀ {y : ℚ}, |y| ≤ bound → Near tolerance y (double y) := fun hy =>
    (near_double hy (by norm_num [bound])).mono (by norm_num [bound, tolerance])
  have hlower := priceLe_near hgrid hlowGrid hbound hlow hprice (hend hlow)
  have hupper := priceLe_near hhighGrid hgrid hhigh hbound (hend hhigh) hprice
  simp only [hband, hlower, hupper]
  split
  · exact h.mono hmono
  · next haccepted =>
    rw [not_or, priceLe_iff hgrid hlowGrid, priceLe_iff hhighGrid hgrid, not_lt, not_lt] at haccepted
    have habs : |base + o.price| ≤ S.price := by
      rw [abs_of_nonneg (h.downLimit.2.1.trans (hdown.trans haccepted.1))]
      exact (haccepted.2.trans hup).trans h.upLimit.2.2.1
    have hentered : NearPrice S (δ + 3 * S.unit) (base + o.price) (double (base' + o'.price)) := by
      refine ⟨hgrid, habs, (hsum.double habs (by linarith)).mono ?_⟩
      rw [Scale.unit] at *
      norm_num at hunit hδle ⊢
      linarith
    exact (h.mono hmono).insertOrder hδ _ (ho.withPrice hentered)

end

end NearEngine

/-- How many orders have a price that is added to the base price. -/
def limitOrders (o : CompactOrderLog) : ℕ := if o.type = ContractType.PriceLimit.code then 1 else 0

/-- How far off the prices are after `n` such orders. -/
def Scale.error (S : Scale) (n : ℕ) : ℚ := (3 * n + 1) * S.unit

theorem Scale.error_le_error (S : Scale) {m n : ℕ} (hle : m ≤ n) : S.error m ≤ S.error n := by
  have hcast : (m : ℚ) ≤ n := by exact_mod_cast hle
  exact mul_le_mul_of_nonneg_right (by linarith) S.unit_pos.le

theorem Scale.error_succ (S : Scale) (n : ℕ) : S.error (n + 1) = S.error n + 3 * S.unit := by
  rw [Scale.error, Scale.error]
  push_cast
  ring

/-- **An order that enters the book** is refused in both engines or in neither. -/
theorem NearEngine.insertBookOrder {S : Scale} {n : ℕ}
    {s : ContractEngine OrderHeap} {t : Engine} (h : NearEngine S (S.error n) s t)
    {o o' : CompactOrderLog} (ho : NearOrder S S.unit o o')
    (hδ : Fine S (S.error (n + limitOrders o))) :
    NearEngine S (S.error (n + limitOrders o)) (s.insertBookOrder o)
      (t.insertBookOrder o') := by
  have hmono := h.mono (S.error_le_error (Nat.le_add_right n (limitOrders o)))
  have ho' := ho.mono hδ.unit_le
  simp only [ContractEngine.insertBookOrder, ho.type, ho.direction]
  by_cases hlimit : o.type = ContractType.PriceLimit.code
  · have hone : limitOrders o = 1 := if_pos hlimit
    rw [if_pos hlimit, if_pos hlimit]
    rw [hone, S.error_succ] at hδ ⊢
    exact h.insertPriceLimit ho hδ
  · rw [if_neg hlimit, if_neg hlimit]
    split
    · exact hmono.insertBestPrice hδ _ ho'
    · split
      · exact hmono.insertBestPrice hδ _ ho'
      · exact hmono

end MatchingEngine.Floating
