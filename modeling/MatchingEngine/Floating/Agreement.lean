import Mathlib
import MatchingEngine.Contract.Turnover
import MatchingEngine.Floating.Immediate

/-!
# The two engines agree

The engine in floating point gets prices that are the `double` nearest to prices of the grid.  As
long as the prices, the volumes and the number of `PriceLimit` orders are not too large, it makes
the trades of the exact engine in the same order, with the same volumes, and at the end of a run it
answers the same position and the `double` nearest to the exact profit, if the alphas do not move
the target too much.

## Main definitions

* `storedOp`, `OpWithin` — the calls as they are read from the files, and how large they may be.
* `limitCount` — their `PriceLimit` orders.
* `ownTotal_run_le` — the own trades are no larger than what the alphas ask for.
* `NearEngine.run` — a run keeps the engines near.
* `run_agrees` — what the engine in floating point answers.
-/

namespace MatchingEngine.Floating

open Arithmetic (double_exact int_exact)
open ContractEngine

/-- The call with the price as it is stored. -/
def storedOp : Op → Op
  | .insertOrderLog o => .insertOrderLog { o with price := double o.price }
  | op => op

/-- How large an order may be. -/
structure OrderWithin (S : Scale) (o : CompactOrderLog) : Prop where
  volume_pos : 0 < o.volume
  volume_le : o.volume ≤ 2 ^ 30
  onGrid : OnGrid o.price
  bounded : |o.price| ≤ S.price

instance (S : Scale) (o : CompactOrderLog) : Decidable (OrderWithin S o) :=
  decidable_of_iff ((0 < o.volume ∧ o.volume ≤ 2 ^ 30) ∧ OnGrid o.price ∧ |o.price| ≤ S.price)
    ⟨fun h => ⟨h.1.1, h.1.2, h.2.1, h.2.2⟩,
      fun h => ⟨⟨h.volume_pos, h.volume_le⟩, h.onGrid, h.bounded⟩⟩

/-- How large what a call brings may be. -/
def OpWithin (S : Scale) : Op → Prop
  | .insertAlpha alpha => AlphaWithin alpha
  | .insertOrderLog o => OrderWithin S o
  | .onComplete => True

instance (S : Scale) (op : Op) : Decidable (OpWithin S op) :=
  match op with
  | .insertAlpha alpha => inferInstanceAs (Decidable (AlphaWithin alpha))
  | .insertOrderLog o => inferInstanceAs (Decidable (OrderWithin S o))
  | .onComplete => inferInstanceAs (Decidable True)

/-- How many of the orders have a price that is added to the base price. -/
def limitCount : List Op → ℕ
  | [] => 0
  | .insertOrderLog o :: ops => limitOrders o + limitCount ops
  | _ :: ops => limitCount ops

/-- Few enough `PriceLimit` orders, or small enough prices and volumes. -/
theorem fine_error {S : Scale} {n : ℕ} (hprice : (3 * n + 1) * S.price ≤ 2 ^ 26)
    (hamount : (3 * n + 1) * S.price * S.size ≤ 2 ^ 40) : Fine S (S.error n) := by
  refine ⟨?_, ?_, ?_⟩
  · exact le_mul_of_one_le_left S.unit_pos.le (by linarith [Nat.cast_nonneg (α := ℚ) n])
  · rw [Scale.error, Scale.unit]
    norm_num at hprice ⊢
    linarith
  · rw [Scale.error, Scale.unit]
    norm_num at hamount ⊢
    linarith

theorem Fine.mono {S : Scale} {m n : ℕ} (h : Fine S (S.error n)) (hle : m ≤ n) :
    Fine S (S.error m) := by
  have herror := S.error_le_error hle
  refine ⟨?_, herror.trans h.le, ?_⟩
  · exact le_mul_of_one_le_left S.unit_pos.le (by linarith [Nat.cast_nonneg (α := ℚ) m])
  · exact (mul_le_mul_of_nonneg_right herror S.size_pos.le).trans h.mul_size_le

namespace NearEngine

section
variable {S : Scale} {n : ℕ} {s : ContractEngine OrderHeap} {t : Engine}
  (h : NearEngine S (S.error n) s t)
include h

theorem insertOrderLog {o : CompactOrderLog} (hwithin : OrderWithin S o)
    (hδ : Fine S (S.error (n + limitOrders o))) :
    NearEngine S (S.error (n + limitOrders o)) (s.insertOrderLog o)
      (t.insertOrderLog { o with price := double o.price }) := by
  have hle : n ≤ n + limitOrders o := Nat.le_add_right _ _
  have ho : NearOrder S S.unit o { o with price := double o.price } :=
    ⟨rfl, ⟨hwithin.onGrid, hwithin.bounded, near_double hwithin.bounded S.one_le_price⟩,
      hwithin.volume_pos.le, hwithin.volume_le⟩
  have hdue := h.releaseDue (hδ.mono hle) o.timestamp
  simp only [ContractEngine.insertOrderLog, ho.type]
  split
  · exact (hdue.insertBookOrder ho hδ).processTrade hδ
  · exact (hdue.mono (S.error_le_error hle)).insertImmediateOrder hδ (ho.mono hδ.unit_le)

/-- **A run** keeps the engines near. -/
theorem run {ops : List Op} (hops : ∀ op ∈ ops, OpWithin S op)
    (hδ : Fine S (S.error (n + limitCount ops))) :
    NearEngine S (S.error (n + limitCount ops)) (s.run ops)
      (t.run (ops.map storedOp)) := by
  induction ops generalizing n s t with
  | nil => exact h
  | cons op ops ih =>
    have htail : ∀ op ∈ ops, OpWithin S op := fun op hop => hops op (List.mem_cons_of_mem _ hop)
    have hwithin := hops op List.mem_cons_self
    cases op with
    | insertAlpha alpha => exact ih (h.insertAlpha hwithin) htail hδ
    | onComplete => exact ih (h.release (hδ.mono (Nat.le_add_right _ _)) maxInt) htail hδ
    | insertOrderLog o =>
      rw [limitCount, ← add_assoc] at hδ ⊢
      exact ih (h.insertOrderLog hwithin (hδ.mono (Nat.le_add_right _ _))) htail hδ

end

/-- **The profit** is the `double` nearest to the exact one. -/
theorem getPNL {S : Scale} {δ : ℚ} (hδ : Fine S δ) {s : ContractEngine OrderHeap}
    {t : Engine} (h : NearEngine S δ s t)
    (hsize : |s.prevTradeInfo.prevPosition| + ownTotal s.history ≤ S.size) :
    t.getPNL = double s.getPNL ∧ |s.getPNL| ≤ 3 * S.amount := by
  have htotal : ownTotal s.history ≤ S.size := by
    have := abs_nonneg s.prevTradeInfo.prevPosition
    omega
  have hposition : |s.prevTradeInfo.prevPosition| ≤ S.size := by omega
  obtain ⟨hlast, hlastSize⟩ := near_value hδ h.lastPrice (h.abs_volume.trans hsize)
  obtain ⟨hprev, hprevSize⟩ := near_value (fine_unit S) h.prevClosePrice hposition
  have hone := S.one_le_amount
  have hamount := S.amount_le'
  have htotal' : (ownTotal s.history : ℚ) ≤ S.size := by exact_mod_cast htotal
  have hincomeSize : |s.income| ≤ S.amount :=
    h.abs_income.trans (mul_le_mul_of_nonneg_left htotal' (by linarith [S.one_le_price]))
  have hincomeError : incomeError S (ownTotal s.history) ≤ 3 / 2 ^ 13 := by
    have hmul := mul_le_mul_of_nonneg_left htotal' (by linarith : 0 ≤ S.amount)
    have hbound := S.amount_mul_size_le
    rw [incomeError]
    norm_num at hbound ⊢
    linarith
  have hincome := (h.income htotal).mono hincomeError
  -- the value, without and with the income
  set last := s.lastPrice * s.volume
  set prev := s.prevTradeInfo.prevClosePrice * s.prevTradeInfo.prevPosition
  have hvalueSize : |last - prev| ≤ 2 * S.amount := (abs_sub _ _).trans (by linarith)
  have hvalue := (hlast.sub hprev).double hvalueSize (by linarith)
  have htotalSize : |last - prev + s.income| ≤ 3 * S.amount :=
    (abs_add_le _ _).trans (by linarith)
  have hpnl := (hvalue.add hincome).double htotalSize (by norm_num; linarith)
  have hgrid : OnGrid (last - prev + s.income) := by
    obtain ⟨j, hj⟩ := h.lastPrice.onGrid.mul_int s.volume
    obtain ⟨k, hk⟩ := h.prevClosePrice.onGrid.mul_int s.prevTradeInfo.prevPosition
    obtain ⟨l, hl⟩ := h.onGrid_income
    exact ⟨j - k + l, by simp only [last, prev, hj, hk, hl]; push_cast; ring⟩
  have hexact : s.getPNL = last - prev + s.income :=
    highPrecisionRound2CoverNegative_of_onGrid hgrid
  rw [hexact, ContractEngine.getPNL, h.volume hsize, h.prevPosition]
  refine ⟨highPrecisionRound2CoverNegative_of_grid hpnl htotalSize (by linarith)
    (by norm_num at hamount ⊢; linarith) hgrid ?_, htotalSize⟩
  norm_num at hamount ⊢
  linarith

end NearEngine

/-- No call changes the information about the previous day. -/
theorem prevTradeInfo_run (ops : List Op) (s : ContractEngine OrderHeap) :
    (s.run ops).prevTradeInfo = s.prevTradeInfo := by
  have hrelease : ∀ (u : ContractEngine OrderHeap) (time : ℤ),
      (u.processTwapOrdersIfNecessary time).prevTradeInfo = u.prevTradeInfo :=
    fun u time => congrArg Plan.prevTradeInfo (plan_release time u)
  induction ops generalizing s with
  | nil => rfl
  | cons op ops ih =>
    rw [run_cons, ih]
    cases op with
    | insertAlpha alpha => rw [ContractEngine.apply, insertAlpha_eq]
    | insertOrderLog o =>
      exact (congrArg Plan.prevTradeInfo (plan_insertOrderLog s o)).trans (hrelease s o.timestamp)
    | onComplete => exact hrelease s maxInt

/-! ## The own trades -/

/-- An own trade counts for no more than twice its volume. -/
theorem ownTotal_le_ownFilled {history : List Event}
    (hpos : ∀ e ∈ history, ∀ a b p v n, e = .trade a b p v n → 0 < v) :
    (ownTotal history : ℤ) ≤ 2 * (ownFilled history .Sale + ownFilled history .Buy) := by
  induction history with
  | nil => exact le_rfl
  | cons e history ih =>
    have hrest := ih fun e' he' => hpos e' (List.mem_cons_of_mem _ he')
    have hfirst : (ownSize e : ℤ) ≤ 2 * (e.ownFilled .Sale + e.ownFilled .Buy) := by
      cases e with
      | trade a b p v n =>
        have hv : 0 < v := hpos _ List.mem_cons_self a b p v n rfl
        simp only [ownSize, Event.ownFilled, portion]
        by_cases ha : a.IsOwn <;> by_cases hb : b.IsOwn <;>
          simp [ha, hb, abs_of_pos hv] <;> omega
      | insert | immediate | discard => exact le_rfl
    have htotal : ownTotal (e :: history) = ownSize e + ownTotal history := rfl
    have hfilled : ∀ d, ownFilled (e :: history) d = e.ownFilled d + ownFilled history d :=
      fun _ => rfl
    rw [htotal, hfilled, hfilled]
    push_cast
    omega

/-- The own trades are no larger than what is planned. -/
theorem ownTotal_le {s : ContractEngine OrderHeap} (hsound : Sound s)
    (hfilled : Filled s) :
    (ownTotal s.history : ℤ) ≤ 2 * (s.plannedVolume .Sale + s.plannedVolume .Buy) := by
  have hside : ∀ d, ownFilled s.history d ≤ s.plannedVolume d := fun d => by
    have hbalance := hfilled.balance d
    have hreleased := hsound.releasedVolume_le d
    have hrest : 0 ≤ s.ownVolume d :=
      volumeOf_nonneg _ fun o ho => (hsound.resting _ o ho).volume_pos.le
    omega
  have hsale := hside .Sale
  have hbuy := hside .Buy
  exact (ownTotal_le_ownFilled hfilled.volume_pos).trans (by omega)

/-- **The own trades are no larger than what the alphas ask for.** -/
theorem ownTotal_run_le {sessionNum : ℤ} (hn : 0 < sessionNum) (sessionLength : ℤ)
    (info : CompactPrevTradeInfo) (instrument : UInt64) {ops : List Op}
    (hok : LogsSatisfy (fun o => 0 < o.volume) ops) :
    (ownTotal ((new sessionNum sessionLength info instrument :
      ContractEngine OrderHeap).run ops).history : ℤ) ≤
        2 * turnover info.prevPosition (targets ops) := by
  obtain ⟨hsound, hfilled⟩ := filled_run (Q := OrderHeap) sessionNum sessionLength
    info instrument hok
  have hplanned := fun d => plannedVolume_run ops
    (s := (new sessionNum sessionLength info instrument :
      ContractEngine OrderHeap)) hn d
  have hempty : ∀ d, (new sessionNum sessionLength info instrument :
      ContractEngine OrderHeap).plannedVolume d = 0 := fun _ => rfl
  have htotal := ownTotal_le hsound hfilled
  rw [hplanned, hplanned, hempty, hempty, zero_add, zero_add, moved_add_moved] at htotal
  exact htotal

/-- **The engine in floating point** releases and trades the same orders with the same volumes,
at prices that are near, and as long as the alphas do not move the target too much it answers the
same position and the nearest profit. -/
theorem run_agrees (S : Scale) {sessionNum sessionLength : ℤ}
    (hsession : SessionWithin sessionNum sessionLength) {info : CompactPrevTradeInfo}
    (hgrid : OnGrid info.prevClosePrice) (h0 : 0 ≤ info.prevClosePrice)
    (hle : 2 * info.prevClosePrice ≤ S.price) (hposition : |info.prevPosition| ≤ 2 ^ 27)
    (instrument : UInt64) {ops : List Op} (hops : ∀ op ∈ ops, OpWithin S op)
    (hprice : (3 * limitCount ops + 1) * S.price ≤ 2 ^ 26)
    (hamount : (3 * limitCount ops + 1) * S.price * S.size ≤ 2 ^ 40) :
    let s := (new sessionNum sessionLength info instrument : ContractEngine OrderHeap).run ops
    let t := (new sessionNum sessionLength (storedInfo info) instrument : Engine).run
      (ops.map storedOp)
    List.Forall₂ (NearEvent S (S.error (limitCount ops))) s.history t.history ∧
      List.Forall₂ (NearOrder S (S.error (limitCount ops))) s.twapOrders t.twapOrders ∧
      (|info.prevPosition| + 2 * turnover info.prevPosition (targets ops) ≤ S.size →
        t.getPosition = s.getPosition ∧ t.getPNL = double s.getPNL) := by
  intro s t
  have hδ := fine_error hprice hamount
  have hnew : NearEngine S (S.error 0)
      (new sessionNum sessionLength info instrument)
      (new sessionNum sessionLength (storedInfo info) instrument) := by
    rw [Scale.error, Nat.cast_zero, mul_zero, zero_add, one_mul]
    exact nearEngine_new hgrid h0 hle hsession hposition instrument
  have hrun : NearEngine S (S.error (limitCount ops)) s t := by
    have hfrom := hnew.run hops (by rwa [Nat.zero_add])
    rwa [Nat.zero_add] at hfrom
  have hinfo : s.prevTradeInfo = info := prevTradeInfo_run _ _
  refine ⟨hrun.history, hrun.twapOrders, fun hturnover => ?_⟩
  have hsize : |s.prevTradeInfo.prevPosition| + ownTotal s.history ≤ S.size := by
    have htotal : (ownTotal s.history : ℤ) ≤ 2 * turnover info.prevPosition (targets ops) :=
      ownTotal_run_le hsession.sessionNum_pos sessionLength info instrument fun o ho =>
        (hops _ ho).volume_pos
    rw [hinfo]
    omega
  exact ⟨hrun.volume hsize, (hrun.getPNL hδ hsize).1⟩

/-- Prices up to `24`, and own trades up to `100`. -/
def dayScale : Scale := ⟨24, 100, by norm_num, by norm_num, by norm_num, by norm_num⟩

/-- An own buy is filled at the offset of a sale. -/
theorem run_agrees_of_day :
    let ops : List Op := [.insertAlpha ⟨0, 3⟩, .insertOrderLog ⟨5, 2, 7 / 100, 0, 0⟩,
      .insertOrderLog ⟨6, 1, 0, 4, 0⟩, .onComplete]
    let s := (new 3 1 ⟨1013 / 100, 2⟩ 1 : ContractEngine OrderHeap).run ops
    let t := (new 3 1 (storedInfo ⟨1013 / 100, 2⟩) 1 : Engine).run (ops.map storedOp)
    t.getPosition = s.getPosition ∧ t.getPNL = double s.getPNL := by
  intro ops s t
  have hops : ∀ op ∈ ops, OpWithin dayScale op := by decide +kernel
  have hgrid : OnGrid (⟨1013 / 100, 2⟩ : CompactPrevTradeInfo).prevClosePrice := by decide +kernel
  have hrun := run_agrees dayScale (⟨by decide, by decide, by decide, by decide⟩ : SessionWithin 3 1) hgrid
    (by norm_num) (by decide +kernel) (by decide) 1 hops (by decide +kernel) (by decide +kernel)
  exact hrun.2.2 (by decide +kernel)

end MatchingEngine.Floating
