import Mathlib
import MatchingEngine.Contract.Lots

/-!
# The loops by lots

Seen by lots, every trade is a run of the unit trades of `Lots`, and a loop of the engine
stops where no unit trade is left.  The invariant that carries this is that the state is
sound, its heaps are in order and no price is negative, so that the rounding of amounts
is exact.

## Main definitions

* `NonNeg`, `Good`, `Good.With` — the invariant.
* `abs` — the state of an engine by lots.
* `Cross.unitCross`, `Fill.unitFill` — a trade is a run of unit trades.
* `refines_processTrade`, `refines_immediateDeal`, `refines_bestFivePrice` — the loops.
-/

namespace MatchingEngine.ContractEngine

open Relation

variable {Q : Direction → Type} [OrderQueue Q] [LawfulOrderQueue Q]

/-! ## No price is negative -/

/-- What the caller promises of an order log: volume, a price on the grid, and for the types
that trade at it a price that is not negative. -/
def Placed (o : CompactOrderLog) : Prop :=
  0 < o.volume ∧ OnGrid o.price ∧ (ContractType.BestFivePriceNoLeft.code ≤ o.type → 0 ≤ o.price)

instance : DecidablePred Placed := fun _ => inferInstanceAs (Decidable (_ ∧ _ ∧ (_ → _)))

/-- No price is negative. -/
structure NonNeg (s : ContractEngine Q) : Prop where
  book : ∀ d, ∀ o ∈ s.book d, 0 ≤ o.price
  lastPrice : 0 ≤ s.lastPrice
  downLimit : OnGrid s.plan.downLimit ∧ 0 ≤ s.plan.downLimit

theorem tradePrice_nonneg {a b : CompactOrderLog} (ha : 0 ≤ a.price) (hb : 0 ≤ b.price) :
    0 ≤ tradePrice a b := by
  unfold tradePrice
  split
  · exact ha
  · split
    · exact hb
    · exact ha

theorem tradePrice_roles_nonneg {o a : CompactOrderLog} (ho : 0 ≤ o.price) (ha : 0 ≤ a.price) :
    0 ≤ tradePrice (roles o a).1 (roles o a).2 := by
  unfold roles
  cases o.direction with
  | Sale => exact tradePrice_nonneg ho ha
  | Buy => exact tradePrice_nonneg ha ho

section NonNeg
variable {s t : ContractEngine Q} (hs : NonNeg s)
include hs

theorem NonNeg.top {d : Direction} (h : OrderQueue.isEmpty (s.heap d) = false) :
    0 ≤ (OrderQueue.top (s.heap d)).price := hs.book d _ (mem_book_top h)

theorem NonNeg.basePrice (direction : Option Direction) :
    0 ≤ s.getCurrentBasePrice direction := by
  unfold getCurrentBasePrice
  split
  · split
    · next h => exact hs.top h
    · split
      · next h => exact hs.top h
      · exact hs.lastPrice
  · exact hs.lastPrice

/-- The lower limit of a price is on the grid and not negative. -/
theorem NonNeg.priceBand (d : Direction) (basePrice : ℚ) :
    OnGrid (s.priceBand d basePrice).1 ∧ 0 ≤ (s.priceBand d basePrice).1 := by
  cases d with
  | Sale =>
    exact ⟨onGrid_highPrecisionRound2 _,
      highPrecisionRound2_nonneg (hs.downLimit.2.trans (le_max_right _ _))⟩
  | Buy => exact hs.downLimit

/-- No order enters at a negative price: the price limits refuse it. -/
theorem NonNeg.accepted (htidy : Tidy s) {o : CompactOrderLog} (ho : OnGrid o.price) {p : ℚ}
    (hp : Accepted s o p) : 0 ≤ p := by
  cases hp with
  | priceLimit _ hdown _ =>
    obtain ⟨hgrid, hband⟩ := hs.priceBand o.direction (s.getCurrentBasePrice (some o.direction))
    rw [priceLe_iff ((htidy.onGrid_basePrice _).add ho) hgrid] at hdown
    exact hband.trans (not_lt.mp hdown)
  | bestPrice d _ hne => exact hs.top hne

theorem NonNeg.log (e : Event) : NonNeg (s.log e) := ⟨hs.book, hs.lastPrice, hs.downLimit⟩

theorem NonNeg.insertAlpha (alpha : CompactAlpha) : NonNeg (s.insertAlpha alpha) := by
  rw [insertAlpha_eq]
  exact ⟨hs.book, hs.lastPrice, hs.downLimit⟩

theorem NonNeg.insertOrder (d : Direction) {o : CompactOrderLog} (ho : 0 ≤ o.price) :
    NonNeg (s.insertOrder d o) :=
  ⟨forall_book_insertOrder hs.book ho, hs.lastPrice, hs.downLimit⟩

theorem NonNeg.enterTwap (hvalid : s.plan.Valid) {o : CompactOrderLog}
    (ho : s.twapOrders[s.twapHead]? = some o) : NonNeg (s.enterTwap o) := by
  obtain ⟨d, -, henter⟩ := enterTwap_eq hvalid ho
  have hpass : NonNeg (s.passTwap o) := ⟨hs.book, hs.lastPrice, hs.downLimit⟩
  rw [henter]
  split
  · exact hpass.insertOrder d (hs.basePrice _)
  · exact hpass

theorem NonNeg.cross {a b : CompactOrderLog} (h : Cross s t a b) : NonNeg t := by
  refine ⟨h.forall_book (fun _ _ _ ho _ => ho) hs.book, ?_, h.traded.plan ▸ hs.downLimit⟩
  rw [h.traded.lastPrice, ← h.top_sale, ← h.top_buy]
  exact tradePrice_nonneg (hs.top h.isEmpty_sale) (hs.top h.isEmpty_buy)

theorem NonNeg.fill {o a : CompactOrderLog} (ho : 0 ≤ o.price) (h : Fill s o t a) : NonNeg t := by
  refine ⟨h.forall_book (fun _ _ _ ho _ => ho) hs.book, ?_, h.traded.plan ▸ hs.downLimit⟩
  rw [h.traded.lastPrice, ← h.top_opposite]
  exact tradePrice_roles_nonneg ho (hs.top h.isEmpty_opposite)

theorem NonNeg.same (h : SameBook s t) : NonNeg t := by
  refine ⟨fun d => ?_, ?_, ?_⟩
  · rw [h.book]
    exact hs.book d
  · rw [h.scalars]
    exact hs.lastPrice
  · rw [h.scalars]
    exact hs.downLimit

end NonNeg

/-- The invariant between the steps. -/
structure Good (s : ContractEngine Q) : Prop where
  sound : Sound s
  tidy : Tidy s
  nonneg : NonNeg s

/-- The invariant while `o` is what is left of an incoming order. -/
structure Good.With (s : ContractEngine Q) (o : CompactOrderLog) : Prop where
  sound : Sound.With s o
  tidy : Tidy s
  nonneg : NonNeg s
  onGrid : OnGrid o.price
  price_nonneg : 0 ≤ o.price

theorem Good.With.good {s : ContractEngine Q} {o : CompactOrderLog} (h : Good.With s o) : Good s :=
  ⟨h.sound.sound, h.tidy, h.nonneg⟩

theorem Good.With.fill {s t : ContractEngine Q} {o a : CompactOrderLog} (hs : Good.With s o)
    (h : Fill s o t a) : Good.With t (o.reduce (tradeVolumeWith o a)) :=
  ⟨hs.sound.fill h, hs.tidy.fill hs.onGrid h, hs.nonneg.fill hs.price_nonneg h, hs.onGrid,
    hs.price_nonneg⟩

theorem Good.arrive {s : ContractEngine Q} (hs : Good s) {o : CompactOrderLog} (ho : Placed o)
    (hge : ContractType.BestFivePriceNoLeft.code ≤ o.type)
    (hle : o.type ≤ ContractType.AllOrNothing.code) :
    Good.With (s.log (.immediate (s.named o))) (s.named o) :=
  ⟨hs.sound.arrive ho.1 hle, hs.tidy.log _, hs.nonneg.log _, ho.2.1, ho.2.2 hge⟩

theorem Good.With.allOrNothing {s : ContractEngine Q} {o : CompactOrderLog} (hs : Good.With s o) :
    Good.With (s.allOrNothing o).1 (s.allOrNothing o).2 := by
  have hrest : Sound.With (s.allOrNothing o).1 (s.allOrNothing o).2 ∧
      NonNeg (s.allOrNothing o).1 ∧ OnGrid (s.allOrNothing o).2.price ∧
      0 ≤ (s.allOrNothing o).2.price := by
    refine allOrNothing_invariant
      (J := fun s o => Sound.With s o ∧ NonNeg s ∧ OnGrid o.price ∧ 0 ≤ o.price) ⟨?_, ?_⟩
      ⟨hs.sound, hs.nonneg, hs.onGrid, hs.price_nonneg⟩
    · intro s o t a hJ h
      exact ⟨hJ.1.fill h, hJ.2.1.fill hJ.2.2.2 h, hJ.2.2⟩
    · intro s o t hJ h
      exact ⟨hJ.1.same h, hJ.2.1.same h, hJ.2.2⟩
  exact ⟨hrest.1, hs.tidy.allOrNothing hs.onGrid, hrest.2.1, hrest.2.2.1, hrest.2.2.2⟩

theorem good_settles : Settles (Good (Q := Q)) Good Placed Good.With where
  alpha _ alpha hs :=
    ⟨hs.sound.insertAlpha alpha, hs.tidy.insertAlpha alpha, hs.nonneg.insertAlpha alpha⟩
  enter _ _ hs ho := ⟨hs.sound.enterTwap ho, hs.tidy.enterTwap hs.sound.valid ho,
    hs.nonneg.enterTwap hs.sound.valid ho⟩
  insert _ _ _ hs ho _ hp := ⟨hs.sound.insertOrder ho.1 rfl,
    hs.tidy.insertOrder _ (hs.tidy.onGrid_accepted ho.2.1 hp),
    hs.nonneg.insertOrder _ (hs.nonneg.accepted hs.tidy ho.2.1 hp)⟩
  refuse _ hs := hs
  cross _ _ _ _ hs h := ⟨hs.sound.cross h, hs.tidy.cross h, hs.nonneg.cross h⟩
  settle _ hs _ := hs
  arrive _ _ hs ho hge hle := hs.arrive ho hge hle
  fill _ _ _ _ hs h := hs.fill h
  allOrNothing _ _ hs := hs.allOrNothing
  finish _ _ hs := ⟨hs.good.sound.log _, hs.tidy.log _, hs.nonneg.log _⟩

theorem good_new (sessionNum sessionLength : ℤ) {info : CompactPrevTradeInfo}
    (hinfo : OnGrid info.prevClosePrice) (hnonneg : 0 ≤ info.prevClosePrice)
    (instrument : UInt64) :
    Good (new sessionNum sessionLength info instrument : ContractEngine Q) := by
  have hdown : 0 ≤ info.prevClosePrice * (9 / 10) := by positivity
  refine ⟨sound_new .., (tidy_new sessionNum sessionLength hinfo instrument).1, ?_, hnonneg,
    onGrid_highPrecisionRound2 _, highPrecisionRound2_nonneg hdown⟩
  intro d o ho
  have hbook : (new sessionNum sessionLength info instrument : ContractEngine Q).book d = 0 :=
    LawfulOrderQueue.contents_new d
  rw [hbook] at ho
  exact absurd ho (Multiset.notMem_zero o)

/-! ## The state by lots -/

/-- The state of an engine by lots. -/
def abs (s : ContractEngine Q) : LotState where
  lots d := lots (s.book d)
  lastPrice := s.lastPrice
  income := s.income
  volume := s.volume
  plan := s.plan

section top
variable {s : ContractEngine Q} {d : Direction}

theorem lots_book (h : OrderQueue.isEmpty (s.heap d) = false) : lots (s.book d) =
    Multiset.replicate (OrderQueue.top (s.heap d)).volume.toNat (OrderQueue.top (s.heap d)).lot +
      lots (s.rest d) := by
  rw [book_eq_top_cons h, lots_cons]

/-- Taking `v` off the top takes `v` of its lots. -/
theorem lots_book_split (h : OrderQueue.isEmpty (s.heap d) = false) {v : ℤ} (h0 : 0 ≤ v)
    (hv : v ≤ (OrderQueue.top (s.heap d)).volume) : lots (s.book d) =
      Multiset.replicate v.toNat (OrderQueue.top (s.heap d)).lot +
        lots (residue (OrderQueue.top (s.heap d)) v + s.rest d) := by
  have hsum : (OrderQueue.top (s.heap d)).volume.toNat =
      v.toNat + ((OrderQueue.top (s.heap d)).volume - v).toNat := by omega
  rw [lots_book h, lots_add, lots_residue, hsum, Multiset.replicate_add, add_assoc]

variable (hs : Good s)
include hs

theorem Good.top_volume_pos (h : OrderQueue.isEmpty (s.heap d) = false) :
    0 < (OrderQueue.top (s.heap d)).volume := (hs.sound.resting d _ (mem_book_top h)).volume_pos

theorem Good.best_rest (h : OrderQueue.isEmpty (s.heap d) = false) :
    Best d (OrderQueue.top (s.heap d)).lot (lots (s.rest d)) := by
  refine best_lots fun o ho => hs.tidy.rank_top_le ?_
  rw [book_eq_top_cons h]
  exact Multiset.mem_cons_of_mem ho

theorem Good.lots_book_eq (h : OrderQueue.isEmpty (s.heap d) = false) :
    ∃ S, lots (s.book d) = (OrderQueue.top (s.heap d)).lot ::ₘ S ∧
      Best d (OrderQueue.top (s.heap d)).lot S := by
  have hpos := hs.top_volume_pos h
  obtain ⟨n, hn⟩ : ∃ n, (OrderQueue.top (s.heap d)).volume.toNat = n + 1 :=
    ⟨(OrderQueue.top (s.heap d)).volume.toNat - 1, by omega⟩
  refine ⟨Multiset.replicate n (OrderQueue.top (s.heap d)).lot + lots (s.rest d), ?_,
    (hs.best_rest h).replicate_add n⟩
  rw [lots_book h, hn, Multiset.replicate_succ, Multiset.cons_add]

/-- The best lot of a side is a lot of the top of its heap. -/
theorem Good.top_of_best {a : Lot} {S : Multiset Lot} (hlots : lots (s.book d) = a ::ₘ S)
    (ha : Best d a S) :
    OrderQueue.isEmpty (s.heap d) = false ∧ (OrderQueue.top (s.heap d)).lot = a := by
  have hne : OrderQueue.isEmpty (s.heap d) = false := by
    rw [isEmpty_eq_false_iff]
    intro hbook
    rw [hbook, lots_zero] at hlots
    exact Multiset.zero_ne_cons hlots
  obtain ⟨S', hS', hbest⟩ := hs.lots_book_eq hne
  exact ⟨hne, (hbest.unique ha (hS'.symm.trans hlots)).1⟩

end top

/-! ## Trades are runs of unit trades -/

/-- Outside the book a trade of `n` lots is a trade of volume `n`. -/
theorem Traded.abs_eq {s t : ContractEngine Q} {a b : CompactOrderLog} (h : Traded s t a b)
    (hgrid : OnGrid (tradePrice a b)) (hprice : 0 ≤ tradePrice a b)
    (hvol : 0 ≤ tradeVolume a b) :
    abs t = { (abs s).trade a.lot b.lot (tradeVolume a b) with lots := (abs t).lots } := by
  have hround : highPrecisionRound2 (tradePrice a b * tradeVolume a b) =
      tradePrice a b * tradeVolume a b :=
    highPrecisionRound2_of_onGrid (hgrid.mul_int _) (mul_nonneg hprice (by exact_mod_cast hvol))
  have haccount : s.account a b =
      (((abs s).trade a.lot b.lot (tradeVolume a b)).income,
        ((abs s).trade a.lot b.lot (tradeVolume a b)).volume) := by
    simp only [account, Arithmetic.double_exact, Arithmetic.int_exact, hround, LotState.trade,
      isOwn_lot]
    by_cases ha : a.IsOwn
    · simp only [if_pos ha]
      rfl
    · by_cases hb : b.IsOwn
      · simp only [if_neg ha, if_pos hb]
        rfl
      · simp only [if_neg ha, if_neg hb]
        rfl
  simp only [abs, h.lastPrice, h.income, h.volume, h.plan, haccount]
  rfl

/-- The tops that trade are the best of what the trade leaves. -/
theorem Cross.best_top {s t : ContractEngine Q} {a b : CompactOrderLog} (h : Cross s t a b)
    (hs : Good s) (d : Direction) :
    Best d (OrderQueue.top (s.heap d)).lot (lots (t.book d)) :=
  best_lots fun o ho =>
    h.forall_book (P := fun d o => rank d (OrderQueue.top (s.heap d)) ≤ rank d o)
      (fun _ _ _ hle _ => hle) (fun _ _ ho => hs.tidy.rank_top_le ho) d o ho

/-- **A trade of the tops is a run of unit trades.** -/
theorem Cross.unitCross {s t : ContractEngine Q} {a b : CompactOrderLog} (h : Cross s t a b)
    (hs : Good s) : ReflTransGen UnitCross (abs s) (abs t) := by
  have hpos := h.tradeVolume_pos hs.sound
  obtain ⟨n, hn⟩ : ∃ n : ℕ, tradeVolume a b = n + 1 := ⟨(tradeVolume a b).toNat - 1, by omega⟩
  have hcount : (tradeVolume a b).toNat = n + 1 := by omega
  have hS := lots_book_split h.isEmpty_sale hpos.le (h.top_sale ▸ tradeVolume_le_left a b)
  have hT := lots_book_split h.isEmpty_buy hpos.le (h.top_buy ▸ tradeVolume_le_right a b)
  have ha := h.best_top hs .Sale
  have hb := h.best_top hs .Buy
  rw [h.top_sale] at ha
  rw [h.top_buy] at hb
  rw [h.top_sale, ← h.book_sale, hcount] at hS
  rw [h.top_buy, ← h.book_buy, hcount] at hT
  have hrun := unitCross_iterate ha hb h.crossing n (abs s) hS hT
  have hprice : OnGrid (tradePrice a b) ∧ 0 ≤ tradePrice a b := by
    rw [← h.top_sale, ← h.top_buy]
    exact ⟨onGrid_tradePrice (hs.tidy.onGrid_top h.isEmpty_sale)
      (hs.tidy.onGrid_top h.isEmpty_buy), tradePrice_nonneg (hs.nonneg.top h.isEmpty_sale)
      (hs.nonneg.top h.isEmpty_buy)⟩
  have habs := h.traded.abs_eq hprice.1 hprice.2 hpos.le
  have hsides : (abs t).lots = sides (lots (t.book .Sale)) (lots (t.book .Buy)) := by
    funext d
    cases d <;> rfl
  rw [habs, hn, hsides]
  exact hrun

theorem lotRoles_lot (o a : CompactOrderLog) :
    lotRoles o.direction o.lot a.lot = ((roles o a).1.lot, (roles o a).2.lot) := by
  unfold lotRoles roles
  cases o.direction <;> rfl

/-- **A trade of an incoming order is a run of unit trades**, if `next` lets the first of them
trade and then goes on to let the others trade. -/
theorem Fill.unitFill {γ : Type*} {next : γ → ℚ → Option γ} {g₀ g : γ} {s t : ContractEngine Q}
    {o a : CompactOrderLog} (h : Fill s o t a) (hs : Good.With s o)
    (hg₀ : next g₀ a.price = some g) (hg : next g a.price = some g) :
    ReflTransGen (UnitFill next o.direction o.lot) (abs s, o.volume, g₀)
      (abs t, (o.reduce (tradeVolumeWith o a)).volume, g) := by
  have hpos := h.tradeVolume_pos hs.sound.sound
  have hmin := tradeVolumeWith_eq_min o a
  obtain ⟨n, hn⟩ : ∃ n : ℕ, tradeVolumeWith o a = n + 1 :=
    ⟨(tradeVolumeWith o a).toNat - 1, by omega⟩
  have hcount : (tradeVolumeWith o a).toNat = n + 1 := by omega
  have hS := lots_book_split h.isEmpty_opposite hpos.le (by rw [h.top_opposite]; omega)
  have ha : Best o.direction.opposite a.lot (lots (t.book o.direction.opposite)) := by
    rw [← h.top_opposite]
    exact best_lots fun x hx => h.forall_book
      (P := fun d x => rank d (OrderQueue.top (s.heap d)) ≤ rank d x)
      (fun _ _ _ hle _ => hle) (fun _ _ hx => hs.tidy.rank_top_le hx) _ x hx
  rw [h.top_opposite, ← h.book_opposite, hcount] at hS
  have hrun := unitFill_iterate next o.direction o.lot ha hg n (abs s) o.volume g₀ (by omega)
    hg₀ hS
  have hga : OnGrid a.price := h.top_opposite ▸ hs.tidy.onGrid_top h.isEmpty_opposite
  have hpa : 0 ≤ a.price := h.top_opposite ▸ hs.nonneg.top h.isEmpty_opposite
  have habs := h.traded.abs_eq (onGrid_tradePrice_roles hs.onGrid hga)
    (tradePrice_roles_nonneg hs.price_nonneg hpa) hpos.le
  have hlots : (abs t).lots = Function.update (abs s).lots o.direction.opposite
      (lots (t.book o.direction.opposite)) := by
    funext d
    rcases Direction.eq_or_eq_opposite o.direction d with rfl | rfl
    · rw [Function.update_of_ne (Direction.ne_opposite _)]
      exact congrArg lots h.book_own
    · rw [Function.update_self]
      rfl
  rw [CompactOrderLog.volume_reduce, habs, hlots]
  rw [lotRoles_lot, ← hn] at hrun
  exact hrun

/-! ## The loops refine the unit trades -/

theorem refines_processTrade :
    Loop.Refines (Good (Q := Q)) processTradeStep UnitCross abs where
  invariant s t hs hstep := good_settles.cross s t _ _ hs (processTradeStep_cross hstep)
  pass s t hs hstep := (processTradeStep_cross hstep).unitCross hs
  stop := by
    rintro s hs hnone y ⟨a, b, S, T, ⟨hS, ha⟩, ⟨hT, hb⟩, hcross, -⟩
    obtain ⟨hneS, rfl⟩ := hs.top_of_best hS ha
    obtain ⟨hneB, rfl⟩ := hs.top_of_best hT hb
    exact hcross (processTradeStep_eq_none.mp hnone hneS hneB)

section immediate
variable (d : Direction) (l : Lot)

/-- What is left of the incoming order is made of lots `l`. -/
structure FillsLot (s : ContractEngine Q) (o : CompactOrderLog) : Prop where
  good : Good.With s o
  direction : o.direction = d
  lot : o.lot = l

variable {d l}

theorem FillsLot.fill {s t : ContractEngine Q} {o a : CompactOrderLog} (hs : FillsLot d l s o)
    (h : Fill s o t a) : FillsLot d l t (o.reduce (tradeVolumeWith o a)) :=
  ⟨hs.good.fill h, hs.direction, hs.lot⟩

/-- Where a unit trade is possible, the guard of the immediate loops holds. -/
theorem FillsLot.canFill {s : ContractEngine Q} {o : CompactOrderLog} (hs : FillsLot d l s o)
    {a : Lot} {S : Multiset Lot} (hpos : 0 < o.volume)
    (hS : lots (s.book d.opposite) = a ::ₘ S) (ha : Best d.opposite a S) :
    s.CanFill o ∧ (OrderQueue.top (s.heap o.direction.opposite)).price = a.price := by
  obtain ⟨hne, rfl⟩ := hs.good.good.top_of_best hS ha
  rw [← hs.direction] at hne ⊢
  exact ⟨⟨hpos, hne⟩, rfl⟩

/-- Every lot may trade. -/
def anyPrice (_ : Unit) (_ : ℚ) : Option Unit := some ()

/-- The state of the `ImmediateDealNoLeft` loop by lots. -/
def absFill (p : ContractEngine Q × CompactOrderLog) : LotState × ℤ × Unit :=
  (abs p.1, p.2.volume, ())

theorem refines_immediateDeal :
    Loop.Refines (fun p : ContractEngine Q × CompactOrderLog => FillsLot d l p.1 p.2)
      immediateDealStep (UnitFill anyPrice d l) absFill where
  invariant := by
    rintro ⟨s, o⟩ p hs hstep
    obtain ⟨hcan, rfl⟩ := immediateDealStep_eq_some.mp hstep
    exact hs.fill (fillTop_fill hcan)
  pass := by
    rintro ⟨s, o⟩ p hs hstep
    obtain ⟨hcan, rfl⟩ := immediateDealStep_eq_some.mp hstep
    obtain ⟨hgood, rfl, rfl⟩ := hs
    exact (fillTop_fill hcan).unitFill hgood rfl rfl
  stop := by
    rintro ⟨s, o⟩ hs hnone y ⟨a, S, g, hpos, ⟨hS, ha⟩, -, -⟩
    have hcan := (hs.canFill hpos hS ha).1
    simp [immediateDealStep, hcan] at hnone

/-- The count of price levels: a new price counts, and the sixth one does not trade. -/
def fiveLevels (g : ℕ × ℚ) (price : ℚ) : Option (ℕ × ℚ) :=
  if priceNeq price g.2 then if 5 < g.1 + 1 then none else some (g.1 + 1, price) else some g

/-- A level that has been counted is not counted again. -/
theorem fiveLevels_again {g g' : ℕ × ℚ} {price : ℚ} (h : fiveLevels g price = some g') :
    fiveLevels g' price = some g' := by
  have hself : ¬ priceNeq price price := by simp [priceNeq, eps]
  unfold fiveLevels at h
  split at h
  · simp only [Option.ite_none_left_eq_some, Option.some.injEq] at h
    obtain ⟨-, rfl⟩ := h
    exact if_neg hself
  · next hsame =>
    obtain rfl := Option.some.inj h
    exact if_neg hsame

/-- The state of the `BestFivePriceNoLeft` loop by lots. -/
def absFive (p : FiveLevels Q) : LotState × ℤ × ℕ × ℚ :=
  (abs p.engine, p.order.volume, p.levelNum, p.lastPriceLevel)

omit [LawfulOrderQueue Q] in
theorem bestFiveStep_eq (p : FiveLevels Q) : bestFiveStep p =
    if p.engine.CanFill p.order then
      (fiveLevels (p.levelNum, p.lastPriceLevel)
        (OrderQueue.top (p.engine.heap p.order.direction.opposite)).price).map fun g =>
          ⟨(p.engine.fillTop p.order).1, (p.engine.fillTop p.order).2, g.1, g.2⟩
    else none := by
  simp only [bestFiveStep, fiveLevels]
  split
  · split
    · split <;> rfl
    · rfl
  · rfl

theorem refines_bestFivePrice :
    Loop.Refines (fun p : FiveLevels Q => FillsLot d l p.engine p.order)
      bestFiveStep (UnitFill fiveLevels d l) absFive where
  invariant := by
    intro p q hs hstep
    obtain ⟨hcan, hengine, horder⟩ := bestFiveStep_eq_some hstep
    rw [hengine, horder]
    exact hs.fill (fillTop_fill hcan)
  pass := by
    intro p q hs hstep
    rw [bestFiveStep_eq, Option.ite_none_right_eq_some, Option.map_eq_some_iff] at hstep
    obtain ⟨hcan, g, hg, rfl⟩ := hstep
    obtain ⟨hgood, rfl, rfl⟩ := hs
    exact (fillTop_fill hcan).unitFill hgood hg (fiveLevels_again hg)
  stop := by
    rintro p hs hnone y ⟨a, S, g, hpos, ⟨hS, ha⟩, hg, -⟩
    obtain ⟨hcan, hprice⟩ := hs.canFill hpos hS ha
    rw [bestFiveStep_eq, if_pos hcan, hprice] at hnone
    have hend := Option.map_eq_none_iff.mp hnone
    cases hend.symm.trans hg

end immediate

end MatchingEngine.ContractEngine
