import Mathlib
import MatchingEngine.Contract.Order
import MatchingEngine.Contract.Pnl
import MatchingEngine.Contract.Release

/-!
# The daily price limits

The constructor rounds nine and eleven tenths of the last close to the limits of the day.
Only `PriceLimit` orders are checked against them; all other prices come from the book or
from `lastPrice`, and an immediate order trades at the price of the resting order, as long as
that one is earlier.  One invariant covers the resting prices, `lastPrice`, the released
entries and the trades.

An order log that follows an `onComplete` may be earlier than entries that rest, and then an
immediate sale trades at its own price, which nobody checked.

## Main definitions

* `Within`, `Limited` — the invariant.
* `Before` — the resting orders are earlier than the next order log.
* `prices_within_limits` — the prices of every run.
-/

namespace MatchingEngine.ContractEngine
variable {Q : Direction → Type} [OrderQueue Q] [LawfulOrderQueue Q]

omit [LawfulOrderQueue Q] in
/-- The price is within the limits of the day. -/
def Within (s : ContractEngine Q) (p : ℚ) : Prop := s.downLimit ≤ p ∧ p ≤ s.upLimit

omit [LawfulOrderQueue Q] in
instance (s : ContractEngine Q) (p : ℚ) : Decidable (s.Within p) :=
  inferInstanceAs (Decidable (_ ∧ _))

/-- The limits are prices of the grid, not negative. -/
structure Plan.Limits (p : Plan) : Prop where
  onGrid_down : OnGrid p.downLimit
  onGrid_up : OnGrid p.upLimit
  nonneg : 0 ≤ p.downLimit

/-- All prices are within the limits of the day. -/
structure Limited (s : ContractEngine Q) : Prop where
  limits : s.plan.Limits
  lastPrice : s.Within s.lastPrice
  resting : ∀ d, ∀ o ∈ s.book d, s.Within o.price
  passed : ∀ o ∈ s.passedEntries, s.Within o.price
  trades : ∀ x ∈ trades s.history, s.Within x.1

/-! ## The price band -/

section prices
variable {s : ContractEngine Q} (hs : Limited s)
include hs

theorem Limited.basePrice (direction : Option Direction) :
    s.Within (s.getCurrentBasePrice direction) := by
  unfold getCurrentBasePrice
  split
  · split
    · next h => exact hs.resting _ _ (mem_book_top h)
    · split
      · next h => exact hs.resting _ _ (mem_book_top h)
      · exact hs.lastPrice
  · exact hs.lastPrice

/-- The band of a `PriceLimit` order is clamped first and rounded then, and rounding leaves
the limits where they are. -/
theorem Limited.priceBand (d : Direction) {p : ℚ} (hp : s.Within p) :
    s.downLimit ≤ (s.priceBand d p).1 ∧ (s.priceBand d p).2 ≤ s.upLimit := by
  have hlim := hs.limits
  have hdown : highPrecisionRound2 s.downLimit = s.downLimit :=
    highPrecisionRound2_of_onGrid hlim.onGrid_down hlim.nonneg
  have hp0 : 0 ≤ p := hlim.nonneg.trans hp.1
  have hup0 : 0 ≤ s.upLimit := hp0.trans hp.2
  have hup : highPrecisionRound2 s.upLimit = s.upLimit :=
    highPrecisionRound2_of_onGrid hlim.onGrid_up hup0
  cases d with
  | Buy =>
    refine ⟨le_rfl, ?_⟩
    have hnonneg : 0 ≤ min (max (p * (102 / 100)) (p + 1 / 10)) s.upLimit :=
      le_min (le_max_of_le_right (by linarith)) hup0
    calc highPrecisionRound2 (min (max (p * (102 / 100)) (p + 1 / 10)) s.upLimit)
        ≤ highPrecisionRound2 s.upLimit := highPrecisionRound2_mono hnonneg (min_le_right _ _)
      _ = s.upLimit := hup
  | Sale =>
    refine ⟨?_, le_rfl⟩
    calc s.downLimit = highPrecisionRound2 s.downLimit := hdown.symm
      _ ≤ highPrecisionRound2 (max (min (p * (98 / 100)) (p - 1 / 10)) s.downLimit) :=
        highPrecisionRound2_mono hlim.nonneg (le_max_right _ _)

theorem Limited.onGrid_priceBand (d : Direction) (p : ℚ) :
    OnGrid (s.priceBand d p).1 ∧ OnGrid (s.priceBand d p).2 := by
  cases d with
  | Buy => exact ⟨hs.limits.onGrid_down, onGrid_highPrecisionRound2 _⟩
  | Sale => exact ⟨onGrid_highPrecisionRound2 _, hs.limits.onGrid_up⟩

/-- An order log enters within the limits. -/
theorem Limited.accepted (ht : Tidy s) {o : CompactOrderLog}
    (ho : OnGrid o.price) {p : ℚ} (hp : Accepted s o p) : s.Within p := by
  have hgrid := ht.onGrid_accepted ho hp
  cases hp with
  | priceLimit htype hdown hup =>
    have hband := hs.priceBand o.direction (hs.basePrice (some o.direction))
    obtain ⟨hband₁, hband₂⟩ :=
      hs.onGrid_priceBand o.direction (s.getCurrentBasePrice (some o.direction))
    rw [priceLe_iff hgrid hband₁, not_lt] at hdown
    rw [priceLe_iff hband₂ hgrid, not_lt] at hup
    exact ⟨hband.1.trans hdown, hup.trans hband.2⟩
  | bestPrice d htype hne => exact hs.resting d _ (mem_book_top hne)

end prices

/-! ## The steps -/

section steps
variable {s t : ContractEngine Q} (hs : Limited s)
include hs

/-- Steps that leave the plan and trade nothing. -/
theorem Limited.of_eq (hplan : t.plan = s.plan) (hprice : t.lastPrice = s.lastPrice)
    {events : List Event} (hhist : t.history = s.history ++ events)
    (htrades : MatchingEngine.trades events = []) (hbook : ∀ d, ∀ o ∈ t.book d, s.Within o.price) :
    Limited t := by
  have hdown : t.downLimit = s.downLimit := congrArg Plan.downLimit hplan
  have hup : t.upLimit = s.upLimit := congrArg Plan.upLimit hplan
  have hwithin : ∀ p, t.Within p ↔ s.Within p := fun p => by rw [Within, hdown, hup, Within]
  have hpassed : t.passedEntries = s.passedEntries := by
    have horders : t.twapOrders = s.twapOrders := congrArg Plan.twapOrders hplan
    have hhead : t.twapHead = s.twapHead := congrArg Plan.twapHead hplan
    rw [passedEntries, horders, hhead, passedEntries]
  refine ⟨hplan ▸ hs.limits, ?_, fun d o ho => ?_, fun o ho => ?_, fun x hx => ?_⟩
  · rw [hwithin, hprice]
    exact hs.lastPrice
  · rw [hwithin]
    exact hbook d o ho
  · rw [hwithin]
    exact hs.passed o (hpassed ▸ ho)
  · rw [hwithin]
    rw [hhist, trades_append, htrades, List.append_nil] at hx
    exact hs.trades x hx

theorem Limited.traded {a b : CompactOrderLog} (h : Traded s t a b)
    (hprice : s.Within (tradePrice a b)) (hbook : ∀ d, ∀ o ∈ t.book d, s.Within o.price) :
    Limited t := by
  have hlogged : Limited (s.log (.trade a b (tradePrice a b) (tradeVolume a b) s.volume)) := by
    refine ⟨hs.limits, hs.lastPrice, hs.resting, hs.passed, fun x hx => ?_⟩
    rw [history_log, trades_append] at hx
    rcases List.mem_append.mp hx with hx | hx
    · exact hs.trades x hx
    · rw [List.mem_singleton.mp hx]
      exact hprice
  have hpriced : Limited { s.log (.trade a b (tradePrice a b) (tradeVolume a b) s.volume) with
      lastPrice := tradePrice a b } :=
    ⟨hlogged.limits, hprice, hlogged.resting, hlogged.passed, hlogged.trades⟩
  have hhist : t.history = (s.log (.trade a b (tradePrice a b) (tradeVolume a b)
      s.volume)).history ++ [] := by
    rw [h.history, List.append_nil]
    rfl
  exact hpriced.of_eq h.plan h.lastPrice hhist rfl hbook

theorem Limited.cross {a b : CompactOrderLog} (h : Cross s t a b) : Limited t := by
  have ha := hs.resting _ _ (h.top_sale ▸ mem_book_top h.isEmpty_sale)
  have hb := hs.resting _ _ (h.top_buy ▸ mem_book_top h.isEmpty_buy)
  refine hs.traded h.traded ?_ (h.forall_book (fun _ _ _ ho _ => ho) hs.resting)
  rcases tradePrice_eq_or a b with hp | hp <;> rw [hp]
  · exact ha
  · exact hb

omit hs in
/-- An immediate order that is later than the order it meets trades at the price of that. -/
theorem tradePrice_roles_of_lt {o a : CompactOrderLog} (ho : OnGrid o.price)
    (ha : OnGrid a.price) (hlt : a.timestamp < o.timestamp) :
    tradePrice (roles o a).1 (roles o a).2 = a.price := by
  unfold roles
  cases o.direction with
  | Sale =>
    simp only [tradePrice, priceEq_iff ho ha]
    rw [if_pos (show o.timestamp > a.timestamp from hlt)]
    split
    · next h => exact h
    · rfl
  | Buy =>
    simp only [tradePrice]
    rw [if_neg (show ¬ a.timestamp > o.timestamp from hlt.asymm), ite_self]

theorem Limited.fill {o a : CompactOrderLog} (ho : OnGrid o.price) (ha : OnGrid a.price)
    (hlt : a.timestamp < o.timestamp) (h : Fill s o t a) : Limited t := by
  have hmem : a ∈ s.book o.direction.opposite := h.top_opposite ▸ mem_book_top h.isEmpty_opposite
  refine hs.traded h.traded ?_ (h.forall_book (fun _ _ _ ho _ => ho) hs.resting)
  rw [tradePrice_roles_of_lt ho ha hlt]
  exact hs.resting _ a hmem

theorem Limited.insertOrder (d : Direction) {o : CompactOrderLog} (ho : s.Within o.price) :
    Limited (s.insertOrder d o) :=
  hs.of_eq rfl rfl (history_insertOrder _ _ _) rfl (forall_book_insertOrder hs.resting ho)

theorem Limited.log {e : Event} (he : e.priced? = none) : Limited (s.log e) :=
  hs.of_eq rfl rfl (history_log _ _) (by simp [MatchingEngine.trades, he]) hs.resting

/-- The entry that is passed gets a price within the limits. -/
theorem Limited.passTwap {o : CompactOrderLog} (ho : s.twapOrders[s.twapHead]? = some o) :
    Limited (s.passTwap o) := by
  refine ⟨⟨hs.limits.onGrid_down, hs.limits.onGrid_up, hs.limits.nonneg⟩, hs.lastPrice,
    hs.resting, fun x hx => ?_, hs.trades⟩
  rw [passedEntries_passTwap ho] at hx
  rcases List.mem_append.mp hx with hx | hx
  · exact hs.passed x hx
  · rw [List.mem_singleton.mp hx]
    exact hs.basePrice _

theorem Limited.enterTwap (hvalid : s.plan.Valid) {o : CompactOrderLog}
    (ho : s.twapOrders[s.twapHead]? = some o) : Limited (s.enterTwap o) := by
  obtain ⟨d, -, henter⟩ := enterTwap_eq hvalid ho
  rw [henter]
  split
  · exact (hs.passTwap ho).insertOrder d (hs.basePrice _)
  · exact hs.passTwap ho

theorem Limited.insertAlpha (hvalid : s.plan.Valid) (alpha : CompactAlpha) :
    Limited (s.insertAlpha alpha) := by
  have hpassed := passedEntries_insertAlpha hvalid alpha
  rw [insertAlpha_eq] at hpassed ⊢
  exact ⟨⟨hs.limits.onGrid_down, hs.limits.onGrid_up, hs.limits.nonneg⟩, hs.lastPrice,
    hs.resting, fun x hx => hs.passed x (hpassed ▸ hx), hs.trades⟩

end steps

/-! ## The times of the resting orders -/

/-- The times of the resting orders satisfy `P`. -/
def RestingAt (P : ℤ → Prop) (s : ContractEngine Q) : Prop :=
  ∀ d, ∀ x ∈ s.book d, P x.timestamp

/-- The times of the resting orders satisfy `P` or are those of passed entries. -/
structure Dated (P : ℤ → Prop) (s : ContractEngine Q) : Prop where
  valid : s.plan.Valid
  times : RestingAt (fun t => P t ∨ ∃ e ∈ s.passedEntries, e.timestamp = t) s

theorem RestingAt.fill {P : ℤ → Prop} {s t : ContractEngine Q} {o a : CompactOrderLog}
    (hs : RestingAt P s) (h : Fill s o t a) : RestingAt P t :=
  h.forall_book (P := fun _ x => P x.timestamp) (fun _ _ _ hx _ => hx) hs

theorem RestingAt.cross {P : ℤ → Prop} {s t : ContractEngine Q} {a b : CompactOrderLog}
    (hs : RestingAt P s) (h : Cross s t a b) : RestingAt P t :=
  h.forall_book (P := fun _ x => P x.timestamp) (fun _ _ _ hx _ => hx) hs

theorem RestingAt.insertOrder {P : ℤ → Prop} {s : ContractEngine Q} (hs : RestingAt P s)
    (d : Direction) {o : CompactOrderLog} (ho : P o.timestamp) : RestingAt P (s.insertOrder d o) :=
  forall_book_insertOrder (P := fun _ x => P x.timestamp) hs ho

/-- Steps that leave the plan and bring no other time. -/
theorem Dated.of_plan {P : ℤ → Prop} {s t : ContractEngine Q} (hs : Dated P s)
    (hplan : t.plan = s.plan)
    (htimes : RestingAt (fun t => P t ∨ ∃ e ∈ s.passedEntries, e.timestamp = t) t) : Dated P t := by
  have horders : t.twapOrders = s.twapOrders := congrArg Plan.twapOrders hplan
  have hhead : t.twapHead = s.twapHead := congrArg Plan.twapHead hplan
  have hpassed : t.passedEntries = s.passedEntries := by
    rw [passedEntries, horders, hhead, passedEntries]
  exact ⟨hplan ▸ hs.valid, hpassed ▸ htimes⟩

theorem dated_kept (P : ℤ → Prop) :
    Kept (Dated P) (fun o => P o.timestamp) fun (s : ContractEngine Q) _ => Dated P s where
  alpha s alpha hs := by
    have hpassed := passedEntries_insertAlpha hs.valid alpha
    refine ⟨hs.valid.insertAlpha alpha, ?_⟩
    rw [hpassed, insertAlpha_eq]
    exact hs.times
  enter s o hs ho := by
    obtain ⟨d, -, henter⟩ := enterTwap_eq hs.valid ho
    have hpassed := passedEntries_passTwap ho
    have hpass : Dated P (s.passTwap o) := by
      have hvalid := hs.valid.enterTwap ho
      rw [plan_enterTwap] at hvalid
      refine ⟨hvalid, fun e x hx => (hs.times e x hx).imp_right fun ⟨y, hy, hyx⟩ => ⟨y, ?_, hyx⟩⟩
      rw [hpassed]
      exact List.mem_append_left _ hy
    rw [henter]
    split
    · refine hpass.of_plan rfl (hpass.times.insertOrder d (.inr ⟨s.priced o, ?_, rfl⟩))
      rw [hpassed]
      exact List.mem_append_right _ List.mem_cons_self
    · exact hpass
  insert s o p hs ho _ := hs.of_plan rfl (hs.times.insertOrder _ (.inl ho))
  cross s t a b hs h := hs.of_plan h.traded.plan (hs.times.cross h)
  arrive s o hs _ _ _ := hs.of_plan rfl hs.times
  fill := {
    fill := fun s o t a hs h => hs.of_plan h.traded.plan (hs.times.fill h)
    same := fun s o t hs h => by
      have hplan : t.plan = s.plan := by rw [h.scalars]; rfl
      refine hs.of_plan hplan fun d => ?_
      rw [h.book]
      exact hs.times d }
  finish s o hs := hs.of_plan rfl hs.times

theorem dated_new (P : ℤ → Prop) (sessionNum sessionLength : ℤ) (info : CompactPrevTradeInfo)
    (instrument : UInt64) :
    Dated P (new sessionNum sessionLength info instrument : ContractEngine Q) := by
  refine ⟨valid_plan_new .., fun d x hx => ?_⟩
  have hbook : (new sessionNum sessionLength info instrument : ContractEngine Q).book d = 0 :=
    LawfulOrderQueue.contents_new d
  rw [hbook] at hx
  exact absurd hx (Multiset.notMem_zero x)

/-! ## The operations -/

section operations
variable {s : ContractEngine Q}

/-- What holds between the steps. -/
structure Ready (P : ℤ → Prop) (s : ContractEngine Q) : Prop where
  order : Sound s ∧ Tidy s ∧ Uncrossed s
  limited : Limited s
  times : RestingAt P s

theorem limited_processTrade (hs : Limited s) : Limited s.processTrade :=
  processTrade_invariant Limited (fun _ _ _ _ hs h => hs.cross h) hs

theorem Ready.release {P : ℤ → Prop} {T : ℤ} (hP : ∀ t, t < T → P t) (hs : Ready P s) :
    Ready P (s.processTwapOrdersIfNecessary T) := by
  refine processTwapOrdersIfNecessary_invariant (Ready P) (fun s o hs ho hlt => ?_) hs
  have hvalid := hs.order.1.valid
  refine ⟨order_settles.processTrade (order_settles.enter s o hs.order ho),
    limited_processTrade (hs.limited.enterTwap hvalid ho), ?_⟩
  obtain ⟨d, -, henter⟩ := enterTwap_eq hvalid ho
  refine processTrade_invariant (RestingAt P) (fun _ _ _ _ hs h => hs.cross h) ?_
  rw [henter]
  split
  · exact RestingAt.insertOrder (s := s.passTwap o) hs.times d (hP _ hlt)
  · exact hs.times

/-- While an immediate order is filled the resting orders are earlier. -/
structure FillsLater (T : ℤ) (s : ContractEngine Q) (o : CompactOrderLog) : Prop where
  limited : Limited s
  grid : ∀ d, ∀ a ∈ s.book d, OnGrid a.price
  times : RestingAt (fun t => t < T) s
  onGrid : OnGrid o.price
  timestamp : o.timestamp = T

theorem fillsLater_invariant (T : ℤ) : FillInvariant (FillsLater (Q := Q) T) where
  fill s o t a hs h := by
    have ha : a ∈ s.book o.direction.opposite := h.top_opposite ▸ mem_book_top h.isEmpty_opposite
    have hlt : a.timestamp < o.timestamp := by
      rw [hs.timestamp]
      exact hs.times _ a ha
    exact ⟨hs.limited.fill hs.onGrid (hs.grid _ a ha) hlt h,
      h.forall_book (fun _ _ _ hx _ => hx) hs.grid, hs.times.fill h, hs.onGrid, hs.timestamp⟩
  same s o t hs h := by
    have hbook : ∀ d, ∀ x ∈ t.book d, x ∈ s.book d := fun d x hx => h.book d ▸ hx
    have hplan : t.plan = s.plan := by rw [h.scalars]; rfl
    have hprice : t.lastPrice = s.lastPrice := by rw [h.scalars]
    have hhist : t.history = s.history ++ [] := by rw [h.scalars, List.append_nil]
    exact ⟨hs.limited.of_eq hplan hprice hhist rfl fun d x hx =>
      hs.limited.resting d x (hbook d x hx), fun d x hx => hs.grid d x (hbook d x hx),
      fun d x hx => hs.times d x (hbook d x hx), hs.onGrid, hs.timestamp⟩

/-- **An order log that is later than the resting orders keeps the prices within the limits.** -/
theorem Ready.insertOrderLog {o : CompactOrderLog} (hok : 0 < o.volume ∧ OnGrid o.price)
    (hs : Ready (fun t => t < o.timestamp) s) : Limited (s.insertOrderLog o) := by
  unfold ContractEngine.insertOrderLog
  rw [releaseDue_eq]
  have hrel := hs.release (T := o.timestamp) fun _ h => h
  set u := s.processTwapOrdersIfNecessary o.timestamp
  simp only
  split
  · refine limited_processTrade ?_
    rcases insertBookOrder_cases u o with h | ⟨p, hp, h⟩ <;> rw [h]
    · exact hrel.limited
    · exact hrel.limited.insertOrder _ (hrel.limited.accepted hrel.order.2.1 hok.2 hp)
  · rcases insertImmediateOrder_cases u o with h | ⟨-, fill, hfill, h⟩ <;> rw [h]
    · exact hrel.limited
    · have hstart : FillsLater o.timestamp (u.log (.immediate (u.named o))) (u.named o) :=
        ⟨hrel.limited.log rfl, hrel.order.2.1.grid, hrel.times, hok.2, rfl⟩
      exact ((fillsLater_invariant o.timestamp).apply hfill hstart).limited.log rfl

end operations

/-! ## The runs -/

theorem limited_new (sessionNum sessionLength : ℤ) {info : CompactPrevTradeInfo}
    (hinfo : OnGrid info.prevClosePrice) (hpos : 0 < info.prevClosePrice) (instrument : UInt64) :
    Limited (new sessionNum sessionLength info instrument : ContractEngine Q) := by
  have hround : highPrecisionRound2 info.prevClosePrice = info.prevClosePrice :=
    highPrecisionRound2_of_onGrid hinfo hpos.le
  have hbook : ∀ d, (new sessionNum sessionLength info instrument : ContractEngine Q).book d = 0 :=
    fun d => LawfulOrderQueue.contents_new d
  have hdown : 0 ≤ info.prevClosePrice * (9 / 10) := mul_nonneg hpos.le (by norm_num)
  have hdownLe : info.prevClosePrice * (9 / 10) ≤ info.prevClosePrice := by linarith
  have hupGe : info.prevClosePrice ≤ info.prevClosePrice * (11 / 10) := by linarith
  refine ⟨⟨onGrid_highPrecisionRound2 _, onGrid_highPrecisionRound2 _, ?_⟩, ⟨?_, ?_⟩, ?_, ?_, ?_⟩
  · exact highPrecisionRound2_nonneg hdown
  · exact (highPrecisionRound2_mono hdown hdownLe).trans hround.le
  · exact hround.ge.trans (highPrecisionRound2_mono hpos.le hupGe)
  · intro d o ho
    rw [hbook] at ho
    exact absurd ho (Multiset.notMem_zero o)
  · exact fun o ho => absurd ho List.not_mem_nil
  · exact fun x hx => absurd hx List.not_mem_nil

/-- The order logs of a list of calls come strictly in order of time. -/
def LogsIncreasing (ops : List Op) : Prop :=
  (ops.filterMap Op.orderLog?).Pairwise fun a b => a.timestamp < b.timestamp

instance (ops : List Op) : Decidable (LogsIncreasing ops) :=
  inferInstanceAs (Decidable (List.Pairwise _ _))

theorem LogsIncreasing.lt {pre post : List Op} {o l : CompactOrderLog}
    (h : LogsIncreasing (pre ++ .insertOrderLog o :: post)) (hl : Op.insertOrderLog l ∈ pre) :
    l.timestamp < o.timestamp := by
  rw [LogsIncreasing, List.filterMap_append, List.filterMap_cons] at h
  exact List.pairwise_append.mp h |>.2.2 l (List.mem_filterMap.mpr ⟨_, hl, rfl⟩) o
    List.mem_cons_self

theorem LogsIncreasing.left {pre post : List Op} (h : LogsIncreasing (pre ++ post)) :
    LogsIncreasing pre := by
  rw [LogsIncreasing, List.filterMap_append] at h
  exact (List.pairwise_append.mp h).1

/-- An order log that follows an `onComplete` is later than the entries released by then. -/
def LaterThanReleased (s : ContractEngine Q) (ops : List Op) : Prop :=
  ∀ pre o post, ops = pre ++ .insertOrderLog o :: post → .onComplete ∈ pre →
    ∀ e ∈ (s.run pre).passedEntries, e.timestamp < o.timestamp

omit [LawfulOrderQueue Q] in
/-- When `onComplete` is the last call no order log follows it. -/
theorem laterThanReleased_of_complete_last (s : ContractEngine Q) {ops : List Op}
    (hops : .onComplete ∉ ops) : LaterThanReleased s (ops ++ [.onComplete]) := by
  intro pre o post h hmem
  have hlen := congrArg List.length h
  simp only [List.length_append, List.length_cons, List.length_nil] at hlen
  have htake : pre = ops.take pre.length := by
    have := congrArg (List.take pre.length) h
    rw [List.take_left, List.take_append_of_le_length (by omega)] at this
    exact this.symm
  rw [htake] at hmem
  exact absurd (List.mem_of_mem_take hmem) hops

omit [OrderQueue Q] [LawfulOrderQueue Q] in
theorem Plan.PassedBefore.insertAlpha {s : ContractEngine Q} {T : ℤ}
    (h : s.plan.PassedBefore T) (alpha : CompactAlpha) :
    (s.insertAlpha alpha).plan.PassedBefore T := by
  obtain ⟨hle, hlt⟩ := h
  rw [insertAlpha_eq]
  refine ⟨?_, fun i x hx hi => ?_⟩
  · simp only [plan, List.length_append] at hle ⊢
    omega
  · have hi' : i < s.twapHead := hi
    have hlen : i < s.plan.timestamps.length := by
      rw [Plan.timestamps, List.length_map]
      exact hi'.trans_le hle
    refine hlt i x ?_ hi'
    rw [← hx]
    simp only [plan, Plan.timestamps, List.map_append] at hlen ⊢
    exact (List.getElem?_append_left hlen).symm

/-- Before the first `onComplete` the passed entries are earlier than the last order log. -/
theorem passedBefore_run_of_not_complete {s : ContractEngine Q} (hs : s.twapHead = 0) :
    ∀ pre : List Op, .onComplete ∉ pre → LogsIncreasing pre → ∀ T,
      (∀ l, .insertOrderLog l ∈ pre → l.timestamp ≤ T) → (s.run pre).plan.PassedBefore T := by
  intro pre
  induction pre using List.reverseRecOn with
  | nil =>
    intro _ _ T _
    refine ⟨by rw [run_nil]; simp [plan, hs], fun i x _ hi => ?_⟩
    rw [run_nil] at hi
    have : i < s.twapHead := hi
    omega
  | append_singleton pre op ih =>
    intro hcomplete hinc T hT
    rw [run_append]
    have hcomplete' : .onComplete ∉ pre := fun h => hcomplete (List.mem_append_left _ h)
    have hT' : ∀ l, .insertOrderLog l ∈ pre → l.timestamp ≤ T := fun l hl =>
      hT l (List.mem_append_left _ hl)
    cases op with
    | insertAlpha alpha => exact (ih hcomplete' hinc.left T hT').insertAlpha alpha
    | insertOrderLog o =>
      have hbefore := ih hcomplete' hinc.left o.timestamp fun l hl => (hinc.lt hl).le
      exact (passedBefore_insertOrderLog hbefore).mono
        (hT o (List.mem_append_right _ List.mem_cons_self))
    | onComplete => exact absurd (List.mem_append_right _ List.mem_cons_self) hcomplete

omit [OrderQueue Q] [LawfulOrderQueue Q] in
theorem Plan.PassedBefore.lt_of_mem {s : ContractEngine Q} {T : ℤ} (h : s.plan.PassedBefore T) :
    ∀ e ∈ s.passedEntries, e.timestamp < T := by
  intro e he
  obtain ⟨i, hi, rfl⟩ := List.mem_take_iff_getElem.mp he
  obtain ⟨hhead, hlen⟩ := lt_min_iff.mp hi
  refine h.2 i _ ?_ hhead
  rw [Plan.timestamps, List.getElem?_map]
  exact congrArg (Option.map CompactOrderLog.timestamp) (List.getElem?_eq_getElem hlen)

omit [LawfulOrderQueue Q] in
theorem LaterThanReleased.left {s : ContractEngine Q} {pre post : List Op}
    (h : LaterThanReleased s (pre ++ post)) : LaterThanReleased s pre := fun a o b hab =>
  h a o (b ++ post) (by rw [hab, List.append_assoc]; rfl)

/-- The passed entries are earlier than an order log that comes: by the assumption, or as no
`onComplete` came yet. -/
theorem passedEntries_lt_of_later {s : ContractEngine Q} (hs : s.twapHead = 0) {pre : List Op}
    {o : CompactOrderLog} (hinc : LogsIncreasing (pre ++ [.insertOrderLog o]))
    (hlater : LaterThanReleased s (pre ++ [.insertOrderLog o])) :
    ∀ e ∈ (s.run pre).passedEntries, e.timestamp < o.timestamp := by
  by_cases hcomplete : .onComplete ∈ pre
  · exact hlater pre o [] rfl hcomplete
  · exact (passedBefore_run_of_not_complete hs pre hcomplete hinc.left o.timestamp
      fun l hl => (hinc.lt hl).le).lt_of_mem

section day
variable (sessionNum sessionLength : ℤ) {info : CompactPrevTradeInfo} (instrument : UInt64)

/-- What rests when an order log comes is earlier than it. -/
theorem restingAt_of_later {pre : List Op} {o : CompactOrderLog}
    (hinc : LogsIncreasing (pre ++ [.insertOrderLog o]))
    (hlater : LaterThanReleased
      (new sessionNum sessionLength info instrument : ContractEngine OrderHeap)
      (pre ++ [.insertOrderLog o])) :
    RestingAt (· < o.timestamp)
      ((new sessionNum sessionLength info instrument : ContractEngine OrderHeap).run pre) := by
  set start : ContractEngine OrderHeap := new sessionNum sessionLength info instrument
  have hpassed := passedEntries_lt_of_later (s := start) rfl hinc hlater
  have hdated : Dated (fun t => ∃ l, .insertOrderLog l ∈ pre ∧ l.timestamp = t) (start.run pre) :=
    (dated_kept _).run (dated_new _ sessionNum sessionLength info instrument)
      fun l hl => ⟨l, hl, rfl⟩
  intro d x hx
  rcases hdated.times d x hx with ⟨l, hl, hlx⟩ | ⟨e, he, hex⟩
  · exact hlx ▸ hinc.lt hl
  · exact hex ▸ hpassed e he

/-- **The limits hold after every call** of a day. -/
theorem limited_run (hinfo : OnGrid info.prevClosePrice) (hpos : 0 < info.prevClosePrice) :
    ∀ ops : List Op, LogsSatisfy (fun o => 0 < o.volume ∧ OnGrid o.price) ops →
      LogsIncreasing ops →
      LaterThanReleased
        (new sessionNum sessionLength info instrument : ContractEngine OrderHeap) ops →
      Limited
        ((new sessionNum sessionLength info instrument : ContractEngine OrderHeap).run ops) := by
  intro ops
  induction ops using List.reverseRecOn with
  | nil =>
    intro _ _ _
    exact limited_new (Q := OrderHeap) sessionNum sessionLength hinfo hpos instrument
  | append_singleton pre op ih =>
    intro hok hinc hlater
    have hpre : LogsSatisfy (fun o => 0 < o.volume ∧ OnGrid o.price) pre :=
      fun o ho => hok o (List.mem_append_left _ ho)
    have hl := ih hpre hinc.left hlater.left
    have horder := order_run OrderHeap sessionNum sessionLength hinfo instrument hpre
    rw [run_append]
    cases op with
    | insertAlpha alpha => exact hl.insertAlpha horder.1.valid alpha
    | onComplete =>
      have hready := Ready.mk (P := fun _ => True) horder hl fun _ _ _ => trivial
      exact (hready.release (T := maxInt) fun _ _ => trivial).limited
    | insertOrderLog o =>
      exact Ready.insertOrderLog (hok o (List.mem_append_right _ List.mem_cons_self))
        ⟨horder, hl, restingAt_of_later sessionNum sessionLength instrument hinc hlater⟩

end day

/-- **All prices are within the limits of the day.** -/
theorem prices_within_limits (sessionNum sessionLength : ℤ) {info : CompactPrevTradeInfo}
    (hinfo : OnGrid info.prevClosePrice) (hpos : 0 < info.prevClosePrice) (instrument : UInt64)
    {ops : List Op} (hok : LogsSatisfy (fun o => 0 < o.volume ∧ OnGrid o.price) ops)
    (hinc : LogsIncreasing ops)
    (hlater : LaterThanReleased
      (new sessionNum sessionLength info instrument : ContractEngine OrderHeap) ops) :
    let s := (new sessionNum sessionLength info instrument : ContractEngine OrderHeap).run ops
    s.Within s.lastPrice ∧ (∀ d, ∀ o ∈ s.book d, s.Within o.price) ∧
      (∀ o ∈ s.passedEntries, s.Within o.price) ∧ ∀ x ∈ trades s.history, s.Within x.1 := by
  have hs := limited_run sessionNum sessionLength instrument hinfo hpos ops hok hinc hlater
  exact ⟨hs.lastPrice, hs.resting, hs.passed, hs.trades⟩

/-- A day with an alpha, a sale far above the last price and a sale that takes the own buys. -/
theorem prices_within_limits_of_day :
    let s := (new 3 1 ⟨10, 0⟩ 1 : ContractEngine OrderHeap).run
      [.insertAlpha ⟨0, 3⟩, .insertOrderLog ⟨5, 2, 100, 0, 0⟩, .insertOrderLog ⟨6, 1, 0, 4, 0⟩,
        .onComplete]
    s.Within s.lastPrice ∧ ∀ x ∈ trades s.history, s.Within x.1 := by
  intro s
  have hinfo : OnGrid (⟨10, 0⟩ : CompactPrevTradeInfo).prevClosePrice := by decide +kernel
  have hok : LogsSatisfy (fun o => 0 < o.volume ∧ OnGrid o.price) ([.insertAlpha ⟨0, 3⟩,
      .insertOrderLog ⟨5, 2, 100, 0, 0⟩, .insertOrderLog ⟨6, 1, 0, 4, 0⟩] ++ [.onComplete]) := by
    decide +kernel
  have hlimits := prices_within_limits 3 1 hinfo (by norm_num) 1 hok (by decide)
    (laterThanReleased_of_complete_last _ (by decide))
  exact ⟨hlimits.1, hlimits.2.2.2⟩

/-- Own buys of ten seconds later rest when a sale of price zero arrives: it trades at zero. -/
theorem not_prices_within_limits_of_late_alpha :
    ¬ ∀ (ops : List Op), LogsSatisfy (fun o => 0 < o.volume ∧ OnGrid o.price) ops →
      LogsIncreasing ops →
      let s := (new 3 1 ⟨10, 0⟩ 1 : ContractEngine OrderHeap).run ops
      ∀ x ∈ trades s.history, s.Within x.1 := by
  intro h
  have hrun := h [.insertAlpha ⟨10000, 3⟩, .onComplete, .insertOrderLog ⟨5, 1, 0, 4, 0⟩]
    (by decide +kernel) (by decide)
  have hnot : ¬ ∀ x ∈ trades ((new 3 1 ⟨10, 0⟩ 1 : ContractEngine OrderHeap).run
      [.insertAlpha ⟨10000, 3⟩, .onComplete, .insertOrderLog ⟨5, 1, 0, 4, 0⟩]).history,
      ((new 3 1 ⟨10, 0⟩ 1 : ContractEngine OrderHeap).run
        [.insertAlpha ⟨10000, 3⟩, .onComplete, .insertOrderLog ⟨5, 1, 0, 4, 0⟩]).Within x.1 := by
    decide +kernel
  exact hnot hrun

end MatchingEngine.ContractEngine
