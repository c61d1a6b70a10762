import Mathlib
import MatchingEngine.Entrance.Reports
import MatchingEngine.FileComparator
import MatchingEngine.Floating.TradeEngine

/-!
# What a day reports in floating point

From the files of a day, which hold the `double` nearest to the exact prices, to the files of the
results: those of the engine in floating point pass the comparison with those of the exact one.

## Main definitions

* `sameRecord_nearTwapOrder`, `sameRecord_nearPnlAndPos` — rows that are near are equal.
* `report_accepted` — the result files pass the comparison.
-/

namespace MatchingEngine.Floating

open FileComparator

/-! ## Rows -/

theorem double_double (x : ℚ) : double (double x) = double x :=
  Rounding.binary64.round_of_represents (Rounding.binary64.represents_round (by decide) x)

theorem priceEq_self (x : ℚ) : priceEq (A := arithmetic) x x := by
  have heps := abs_le.mp near_eps
  unfold priceEq
  rw [sub_self, double_arithmetic, double_arithmetic, double_zero, if_neg (lt_irrefl 0)]
  norm_num [eps] at heps ⊢
  linarith

/-- Numbers that are not too large are finite. -/
theorem abs_double_lt {x : ℚ} (hx : |x| ≤ 2 ^ 43) : |double x| < 2 ^ (1024 : ℤ) := by
  have hle := (near_double hx (by norm_num)).abs_le hx
  calc |double x| ≤ 2 ^ 43 + 2 ^ 43 / 2 ^ 53 := hle
    _ < 2 ^ (44 : ℤ) := by norm_num
    _ ≤ 2 ^ (1024 : ℤ) := zpow_le_zpow_right₀ one_le_two (by decide)

theorem stored_twapOrder {o : TwapOrder} (h : |double o.price| < 2 ^ (1024 : ℤ)) :
    twapOrderLayout.stored o = some
      { o with
        timestamp := o.timestamp.bmod (256 ^ 8)
        direction := o.direction.bmod (256 ^ 4)
        volume := o.volume.bmod (256 ^ 4)
        price := double o.price } := by
  rw [double] at h
  simp only [twapOrderLayout, Layout.map, Layout.prod, Layout.ulong, Layout.signed, Layout.double,
    Option.bind_some, Option.map_some, if_pos h]
  rfl

theorem stored_pnlAndPos {p : PnlAndPos} (h : |double p.pnl| < 2 ^ (1024 : ℤ)) :
    pnlAndPosLayout.stored p =
      some { p with position := p.position.bmod (256 ^ 4), pnl := double p.pnl } := by
  rw [double] at h
  simp only [pnlAndPosLayout, Layout.map, Layout.prod, Layout.ulong, Layout.signed, Layout.double,
    Option.bind_some, Option.map_some, if_pos h]
  rfl

/-- Rows whose prices are near are equal in the files. -/
theorem sameRecord_nearTwapOrder {S : Scale} {δ : ℚ} (hδ : Fine S δ) {o o' : TwapOrder}
    (h : NearTwapOrder S δ o o') :
    sameRecord twapOrderLayout TwapOrder.equals (twapOrderLayout.store o')
      (twapOrderLayout.store o) = true := by
  have hprice := S.price_le
  have hone := S.one_le_price
  have hle := hδ.le
  have hδ0 := h.price.near.nonneg
  have habs := h.price.bounded
  have habs' := h.price.near.abs_le habs
  have hbound : |o.price| ≤ bound := habs.trans (hprice.trans (by norm_num [bound]))
  have hstored := (near_double habs hone).mono (show S.price / 2 ^ 53 ≤ tolerance by
    norm_num [tolerance] at hprice ⊢
    linarith)
  have hstored' := (h.price.near.double habs (by linarith)).mono
    (show δ + (S.price + δ) / 2 ^ 53 ≤ tolerance by
      norm_num [tolerance] at hprice hle ⊢
      linarith)
  have heq : priceEq (A := arithmetic) (double o'.price) (double o.price) :=
    (priceEq_near h.price.onGrid h.price.onGrid hbound hbound hstored' hstored).mpr
      ((priceEq_iff h.price.onGrid h.price.onGrid).mpr rfl)
  have hfinite : |double o.price| < 2 ^ (1024 : ℤ) := abs_double_lt (by linarith)
  have hfinite' : |double o'.price| < 2 ^ (1024 : ℤ) := abs_double_lt (by linarith)
  have hfields := h.fields
  rw [sameRecord, twapOrderLayout.load_store, twapOrderLayout.load_store, stored_twapOrder hfinite,
    stored_twapOrder hfinite']
  simp only [TwapOrder.equals, heq, and_true, decide_eq_true_eq]
  rw [hfields]
  exact ⟨rfl, rfl, rfl, rfl⟩

theorem sameRecord_nearPnlAndPos {p p' : PnlAndPos} (h : NearPnlAndPos p p') :
    sameRecord pnlAndPosLayout PnlAndPos.equals (pnlAndPosLayout.store p')
      (pnlAndPosLayout.store p) = true := by
  have hfinite : |double p.pnl| < 2 ^ (1024 : ℤ) :=
    abs_double_lt (h.bounded.trans (by norm_num))
  have hfinite' : |double p'.pnl| < 2 ^ (1024 : ℤ) := by
    rw [h.fields, double_double]
    exact hfinite
  rw [sameRecord, pnlAndPosLayout.load_store, pnlAndPosLayout.load_store, stored_pnlAndPos hfinite,
    stored_pnlAndPos hfinite', h.fields]
  simp [PnlAndPos.equals, double_double, priceEq_self]

/-! ## Days -/

theorem NearReport.accepted {S : Scale} {δ : ℚ} (hδ : Fine S δ) {r r' : Report}
    (h : NearReport S δ r r') :
    compareTWAPFiles (twapOrderLayout.storeAll r'.twapOrders)
        (twapOrderLayout.storeAll r.twapOrders) = true ∧
      comparePNLFiles (pnlAndPosLayout.storeAll r'.pnlAndPos)
        (pnlAndPosLayout.storeAll r.pnlAndPos) = true :=
  ⟨compareFiles_storeAll (by decide) (h.twapOrders.flip.imp fun _ _ ho =>
      sameRecord_nearTwapOrder hδ ho),
    compareFiles_storeAll (by decide) (h.pnlAndPos.flip.imp fun _ _ hp =>
      sameRecord_nearPnlAndPos hp)⟩

/-- **The result files pass the comparison.**  Where the files of a day hold the `double` nearest
to prices of the grid, a session reports in floating point what it reports exactly, and files with
the exact answers accept the files with its rows, which have the same sizes. -/
theorem report_accepted (S : Scale) {session : ℤ × ℤ}
    (hsession : SessionWithin session.1 session.2) {day : DayFiles} {calls : List Call}
    (hday : day.calls = some (calls.map storedCall)) {n : ℕ} {start : ℤ}
    (hwithin : DayWithin S n start calls) (hprice : (3 * n + 1) * S.price ≤ 2 ^ 26)
    (hamount : (3 * n + 1) * S.price * S.size ≤ 2 ^ 40) :
    Option.Rel (fun r r' => r'.fileName = r.fileName ∧
        r'.twapOrders.length = r.twapOrders.length ∧ r'.pnlAndPos.length = r.pnlAndPos.length ∧
        compareTWAPFiles (twapOrderLayout.storeAll r'.twapOrders)
          (twapOrderLayout.storeAll r.twapOrders) = true ∧
        comparePNLFiles (pnlAndPosLayout.storeAll r'.pnlAndPos)
          (pnlAndPosLayout.storeAll r.pnlAndPos) = true)
      (((TradeEngine.new session).run calls).bind fun t =>
        (t.onComplete (dateName day.path)).map Prod.snd)
      (day.report (A := arithmetic) session) := by
  have hδ := fine_error hprice hamount
  have hrun := nearTradeEngine_run hwithin hsession hδ
  unfold DayFiles.report
  rw [hday, Option.bind_some]
  generalize (TradeEngine.new session).run calls = t,
    (TradeEngine.new (A := arithmetic) session).run (calls.map storedCall) = t' at hrun
  cases hrun with
  | none => exact .none
  | some hnear =>
    exact Traverse.optionRel_mono (fun _ _ hr => ⟨hr.fileName, hr.twapOrders.length_eq.symm,
      hr.pnlAndPos.length_eq.symm, hr.accepted hδ⟩)
      (hnear.onComplete hδ (dateName day.path))

/-- A day of two instruments, with prices that are no `double`. -/
def twoInstruments : DayFiles where
  path := "/mnt/final_data/20230829"
  prevTradeInfo := prevTradeInfoLayout.storeAll [(1, 1013 / 100, 0), (2, 2001 / 100, 5)]
  alpha := alphaLayout.storeAll [(2, 100000, 8), (1, 100500, 4)]
  orderLog := orderLogLayout.storeAll
    [(2, 100700, 0, -1, 5, 7 / 100), (1, 101600, 0, 1, 5, 3 / 100), (2, 102700, 4, 1, 1, 0)]

/-- Prices up to `64`, and own trades up to `1000`. -/
def largeScale : Scale := ⟨64, 1000, by norm_num, by norm_num, by norm_num, by norm_num⟩

/-- The result files of the first session pass. -/
theorem report_accepted_of_twoInstruments :
    let calls : List Call := [.initContract 1 (1013 / 100) 0, .initContract 2 (2001 / 100) 5,
      .insertAlpha 2 100000 8, .insertAlpha 1 100500 4,
      .insertOrderLog 2 100700 0 (-1) 5 (7 / 100), .insertOrderLog 1 101600 0 1 5 (3 / 100),
      .insertOrderLog 2 102700 4 1 1 0]
    Option.Rel (fun r r' => r'.fileName = r.fileName ∧
        r'.twapOrders.length = r.twapOrders.length ∧ r'.pnlAndPos.length = r.pnlAndPos.length ∧
        compareTWAPFiles (twapOrderLayout.storeAll r'.twapOrders)
          (twapOrderLayout.storeAll r.twapOrders) = true ∧
        comparePNLFiles (pnlAndPosLayout.storeAll r'.pnlAndPos)
          (pnlAndPosLayout.storeAll r.pnlAndPos) = true)
      (((TradeEngine.new (3, 1)).run calls).bind fun t =>
        (t.onComplete (dateName twoInstruments.path)).map Prod.snd)
      (twoInstruments.report (A := arithmetic) (3, 1)) := by
  intro calls
  have hwithin : DayWithin largeScale 1 100000 calls := by decide +kernel
  have hcalls : twoInstruments.calls = some (calls.map storedCall) := by
    rw [twoInstruments, calls_storeAll]
    decide +kernel
  exact report_accepted largeScale ⟨by decide, by decide, by decide, by decide⟩ hcalls hwithin
    (by decide +kernel) (by decide +kernel)

end MatchingEngine.Floating
