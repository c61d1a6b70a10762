import Mathlib
import MatchingEngine.Contract.Loops

/-!
# Runs of the engine

A public operation is a sequence of steps: a TWAP order enters, an order enters the book
at an accepted price, the tops trade, an immediate order arrives, fills and is discarded.
`Settles` collects what an invariant has to survive, and `Settles.run` concludes that it
holds after every run of public operations; `Kept` is the case of an invariant that holds
between any two steps.

## Main definitions

* `Accepted s o p` — the state `s` takes the order `o` into the book at the price `p`.
* `Settles I M ok J` — the steps preserve `I`, with `M` while the tops are matched and `J`
  during an immediate order.
* `Settles.run`, `Kept.run` — `I` is an invariant of the runs whose order logs are `ok`.
-/

namespace MatchingEngine.ContractEngine
variable {Q : Direction → Type} [OrderQueue Q]

/-! ## Orders that enter the book -/

/-- The price at which an order log is taken into the book. -/
inductive Accepted (s : ContractEngine Q) (o : CompactOrderLog) : ℚ → Prop
  | priceLimit (htype : o.type = ContractType.PriceLimit.code)
      (hdown : ¬ priceLe (s.getCurrentBasePrice (some o.direction) + o.price)
        (s.priceBand o.direction (s.getCurrentBasePrice (some o.direction))).1)
      (hup : ¬ priceLe (s.priceBand o.direction (s.getCurrentBasePrice (some o.direction))).2
        (s.getCurrentBasePrice (some o.direction) + o.price)) :
      Accepted s o (s.getCurrentBasePrice (some o.direction) + o.price)
  | bestPrice (d : Direction)
      (htype : o.type = ContractType.OppositeBestPrice.code ∧ d = o.direction.opposite ∨
        o.type = ContractType.OurBestPrice.code ∧ d = o.direction)
      (hne : OrderQueue.isEmpty (s.heap d) = false) :
      Accepted s o (OrderQueue.top (s.heap d)).price

theorem insertBestPrice_cases (s : ContractEngine Q) {d : Direction} {o : CompactOrderLog}
    (htype : o.type = ContractType.OppositeBestPrice.code ∧ d = o.direction.opposite ∨
      o.type = ContractType.OurBestPrice.code ∧ d = o.direction) :
    s.insertBestPrice d o = s ∨ ∃ p, Accepted s o p ∧
      s.insertBestPrice d o = s.insertOrder o.direction { o with price := p } := by
  unfold insertBestPrice
  split
  · next hne => exact .inr ⟨_, .bestPrice d htype hne, rfl⟩
  · exact .inl rfl

/-- An order log up to `OurBestPrice` is refused, or enters at an accepted price. -/
theorem insertBookOrder_cases (s : ContractEngine Q) (o : CompactOrderLog) :
    s.insertBookOrder o = s ∨ ∃ p, Accepted s o p ∧
      s.insertBookOrder o = s.insertOrder o.direction { o with price := p } := by
  unfold insertBookOrder
  split
  · next htype =>
    unfold insertPriceLimit
    simp only
    split
    · exact .inl rfl
    · next hband =>
      rw [not_or] at hband
      exact .inr ⟨_, .priceLimit htype hband.1 hband.2, rfl⟩
  · split
    · next htype => exact insertBestPrice_cases s (.inl ⟨htype, rfl⟩)
    · split
      · next htype => exact insertBestPrice_cases s (.inr ⟨htype, rfl⟩)
      · exact .inl rfl

@[simp] theorem plan_insertBookOrder (s : ContractEngine Q) (o : CompactOrderLog) :
    (s.insertBookOrder o).plan = s.plan := by
  rcases insertBookOrder_cases s o with h | ⟨p, -, h⟩ <;> rw [h]
  rfl

/-! ## Immediate orders -/

/-- An immediate order, or one whose type bits match no case. -/
theorem insertImmediateOrder_cases (s : ContractEngine Q) (o : CompactOrderLog) :
    s.insertImmediateOrder o = s ∨
      (ContractType.BestFivePriceNoLeft.code ≤ o.type ∧ o.type ≤ ContractType.AllOrNothing.code) ∧
        ∃ fill, (fill = bestFivePrice ∨ fill = immediateDeal ∨ fill = allOrNothing) ∧
          s.insertImmediateOrder o = s.runImmediate fill o := by
  unfold insertImmediateOrder
  split
  · next h => exact .inr ⟨by rw [h]; decide, _, .inl rfl, rfl⟩
  · split
    · next h => exact .inr ⟨by rw [h]; decide, _, .inr (.inl rfl), rfl⟩
    · split
      · next h => exact .inr ⟨by rw [h]; decide, _, .inr (.inr rfl), rfl⟩
      · exact .inl rfl

/-! ## TWAP release -/

theorem twapStep_eq_some {currentTime : ℤ} {s t : ContractEngine Q}
    (h : twapStep currentTime s = some t) :
    ∃ o, s.twapOrders[s.twapHead]? = some o ∧ o.timestamp < currentTime ∧
      t = (s.enterTwap o).processTrade := by
  unfold twapStep at h
  split at h
  · next o ho =>
    simp only [Option.ite_none_right_eq_some, Option.some.injEq] at h
    exact ⟨o, ho, h.1, h.2.symm⟩
  · cases h

theorem twapStep_eq_none {currentTime : ℤ} {s : ContractEngine Q} :
    twapStep currentTime s = none ↔
      ∀ o, s.twapOrders[s.twapHead]? = some o → currentTime ≤ o.timestamp := by
  unfold twapStep
  split
  · next o ho => simp [ho]
  · next ho => simp [ho]

/-- The TWAP order at the head with the price it enters at. -/
def priced {A : Arithmetic} (s : ContractEngine Q A) (o : CompactOrderLog) : CompactOrderLog :=
  { o with price := s.getCurrentBasePrice o.twapDirection }

/-- Entering moves the head past the TWAP order and records its price in the plan. -/
theorem plan_enterTwap (s : ContractEngine Q) (o : CompactOrderLog) :
    (s.enterTwap o).plan = { s.plan with
      twapOrders := s.twapOrders.set s.twapHead (s.priced o), twapHead := s.twapHead + 1 } := by
  simp only [enterTwap]
  split
  · split <;> rfl
  · rfl

theorem processTwapOrdersIfNecessary_invariant {currentTime : ℤ} (I : ContractEngine Q → Prop)
    (hrelease : ∀ s o, I s → s.twapOrders[s.twapHead]? = some o → o.timestamp < currentTime →
      I (s.enterTwap o).processTrade)
    {s : ContractEngine Q} (hs : I s) : I (s.processTwapOrdersIfNecessary currentTime) := by
  refine Loop.exec_invariant I (fun s t hI hstep => ?_) hs
  obtain ⟨o, ho, hlt, rfl⟩ := twapStep_eq_some hstep
  exact hrelease s o hI ho hlt

/-- The test before the release in `insertOrderLog` is the first test of its loop. -/
theorem releaseDue_eq (s : ContractEngine Q) (timestamp : ℤ) :
    s.releaseDue timestamp = s.processTwapOrdersIfNecessary timestamp := by
  have hnone : (∀ o, s.twapOrders[s.twapHead]? = some o → timestamp ≤ o.timestamp) →
      s.processTwapOrdersIfNecessary timestamp = s := fun h =>
    Loop.exec_of_none (twapStep_eq_none.mpr h)
  unfold releaseDue
  split
  · next o ho =>
    split
    · rfl
    · next hle =>
      refine (hnone fun o' ho' => ?_).symm
      obtain rfl : o = o' := Option.some.inj (ho.symm.trans ho')
      exact not_lt.mp hle
  · next ho => exact (hnone fun o' ho' => by rw [ho] at ho'; cases ho').symm

/-! ## Runs -/

/-- The order logs of a list of calls satisfy `ok`. -/
def LogsSatisfy (ok : CompactOrderLog → Prop) (ops : List Op) : Prop :=
  ∀ o, Op.insertOrderLog o ∈ ops → ok o

/-- The order log of a call. -/
def Op.orderLog? : Op → Option CompactOrderLog
  | .insertOrderLog o => some o
  | _ => none

instance (ok : CompactOrderLog → Prop) [DecidablePred ok] (ops : List Op) :
    Decidable (LogsSatisfy ok ops) :=
  decidable_of_iff (∀ o ∈ ops.filterMap Op.orderLog?, ok o) <| by
    refine forall_congr' fun o => imp_congr_left ?_
    rw [List.mem_filterMap]
    constructor
    · rintro ⟨op, hop, h⟩
      cases op <;> cases h
      exact hop
    · exact fun h => ⟨_, h, rfl⟩

theorem run_nil (s : ContractEngine Q) : s.run [] = s := rfl

theorem run_cons (s : ContractEngine Q) (op : Op) (ops : List Op) :
    s.run (op :: ops) = (s.apply op).run ops := rfl

theorem run_append (s : ContractEngine Q) (ops ops' : List Op) :
    s.run (ops ++ ops') = (s.run ops).run ops' := List.foldl_append

/-- What every public operation preserves holds after every run. -/
theorem run_invariant {I : ContractEngine Q → Prop} {ok : CompactOrderLog → Prop}
    (hstep : ∀ s op, I s → (∀ o, op = .insertOrderLog o → ok o) → I (s.apply op)) :
    ∀ (ops : List Op) (s : ContractEngine Q), I s → LogsSatisfy ok ops → I (s.run ops) := by
  intro ops
  induction ops with
  | nil => intro s hs _; exact hs
  | cons op ops ih =>
    intro s hs hok
    rw [run_cons]
    exact ih _ (hstep s op hs fun o ho => hok o (by rw [ho]; exact List.mem_cons_self))
      fun o ho => hok o (List.mem_cons_of_mem _ ho)

variable [LawfulOrderQueue Q]

/-! ## What the loops do to the plan -/

/-- What the passes preserve holds when the loop of any immediate type ends. -/
theorem FillInvariant.apply {J : ContractEngine Q → CompactOrderLog → Prop}
    (hJ : FillInvariant J)
    {fill : ContractEngine Q → CompactOrderLog → ContractEngine Q × CompactOrderLog}
    (hfill : fill = bestFivePrice ∨ fill = immediateDeal ∨ fill = allOrNothing)
    {s : ContractEngine Q} {o : CompactOrderLog} (hs : J s o) : J (fill s o).1 (fill s o).2 := by
  rcases hfill with rfl | rfl | rfl
  · exact bestFivePrice_invariant hJ.fill hs
  · exact immediateDeal_invariant hJ.fill hs
  · exact allOrNothing_invariant hJ hs

theorem fillInvariant_plan (p : Plan) : FillInvariant fun (s : ContractEngine Q) _ => s.plan = p where
  fill s o t a hs h := h.traded.plan.trans hs
  same s o t hs h := by
    rw [h.scalars]
    exact hs

@[simp] theorem plan_insertImmediateOrder (s : ContractEngine Q) (o : CompactOrderLog) :
    (s.insertImmediateOrder o).plan = s.plan := by
  rcases insertImmediateOrder_cases s o with h | ⟨-, fill, hfill, h⟩ <;> rw [h]
  exact (fillInvariant_plan s.plan).apply hfill (s := s.log _) (o := s.named o) rfl

theorem plan_releaseTwap (s : ContractEngine Q) (o : CompactOrderLog) :
    (s.enterTwap o).processTrade.plan = { s.plan with
      twapOrders := s.twapOrders.set s.twapHead (s.priced o), twapHead := s.twapHead + 1 } := by
  rw [plan_processTrade, plan_enterTwap]

theorem twapStep_decreases (currentTime : ℤ) :
    Loop.Decreases (fun _ => True) (twapStep (Q := Q) (A := .exact) currentTime) fun s =>
      s.twapOrders.length - s.twapHead := by
  intro s t _ hstep
  obtain ⟨o, ho, -, rfl⟩ := twapStep_eq_some hstep
  have hlt : s.twapHead < s.twapOrders.length := (List.getElem?_eq_some_iff.mp ho).1
  have hplan := plan_releaseTwap s o
  have horders : (s.enterTwap o).processTrade.twapOrders =
      s.twapOrders.set s.twapHead (s.priced o) := congrArg Plan.twapOrders hplan
  have hhead : (s.enterTwap o).processTrade.twapHead = s.twapHead + 1 :=
    congrArg Plan.twapHead hplan
  refine ⟨trivial, ?_⟩
  simp only [horders, hhead, List.length_set]
  omega

/-- **The release ends** with no due TWAP order at the head. -/
theorem processTwapOrdersIfNecessary_done (currentTime : ℤ) (s : ContractEngine Q) :
    twapStep currentTime (s.processTwapOrdersIfNecessary currentTime) = none :=
  Loop.exec_done (twapStep_decreases currentTime) trivial

/-- The plan after an order log is the plan after the release it starts with. -/
theorem plan_insertOrderLog (s : ContractEngine Q) (o : CompactOrderLog) :
    (s.insertOrderLog o).plan = (s.processTwapOrdersIfNecessary o.timestamp).plan := by
  unfold insertOrderLog
  rw [releaseDue_eq]
  simp only
  split <;> simp

/-! ## Invariants of runs -/

/-- What a run has to preserve: `I` between the steps, `M` while orders are matched after one
has entered, and `J` while an immediate order is filled, of the state and of what is left of
the order. -/
structure Settles (I M : ContractEngine Q → Prop) (ok : CompactOrderLog → Prop)
    (J : ContractEngine Q → CompactOrderLog → Prop) : Prop where
  alpha : ∀ s alpha, I s → I (s.insertAlpha alpha)
  enter : ∀ s o, I s → s.twapOrders[s.twapHead]? = some o → M (s.enterTwap o)
  insert : ∀ s o p, I s → ok o → o.type ≤ ContractType.OurBestPrice.code → Accepted s o p →
    M (s.insertOrder o.direction { o with price := p })
  refuse : ∀ s, I s → M s
  cross : ∀ s t a b, M s → Cross s t a b → M t
  settle : ∀ s, M s → processTradeStep s = none → I s
  arrive : ∀ s o, I s → ok o → ContractType.BestFivePriceNoLeft.code ≤ o.type →
    o.type ≤ ContractType.AllOrNothing.code → J (s.log (.immediate (s.named o))) (s.named o)
  fill : ∀ s o t a, J s o → Fill s o t a → J t (o.reduce (tradeVolumeWith o a))
  allOrNothing : ∀ s o, J s o → J (s.allOrNothing o).1 (s.allOrNothing o).2
  finish : ∀ s o, J s o → I (s.log (.discard o))

section Settles
variable {I M : ContractEngine Q → Prop} {ok : CompactOrderLog → Prop}
  {J : ContractEngine Q → CompactOrderLog → Prop} (hk : Settles I M ok J)
include hk

theorem Settles.processTrade {s : ContractEngine Q} (hs : M s) : I s.processTrade :=
  hk.settle _ (processTrade_invariant M hk.cross hs) (processTrade_done s)

theorem Settles.release (currentTime : ℤ) {s : ContractEngine Q} (hs : I s) :
    I (s.processTwapOrdersIfNecessary currentTime) :=
  processTwapOrdersIfNecessary_invariant I
    (fun s o hI ho _ => hk.processTrade (hk.enter s o hI ho)) hs

theorem Settles.runImmediate
    {fill : ContractEngine Q → CompactOrderLog → ContractEngine Q × CompactOrderLog}
    (hfill : fill = bestFivePrice ∨ fill = immediateDeal ∨ fill = ContractEngine.allOrNothing)
    {s : ContractEngine Q} {o : CompactOrderLog}
    (hs : J (s.log (.immediate (s.named o))) (s.named o)) : I (s.runImmediate fill o) := by
  refine hk.finish _ _ ?_
  rcases hfill with rfl | rfl | rfl
  · exact bestFivePrice_invariant hk.fill hs
  · exact immediateDeal_invariant hk.fill hs
  · exact hk.allOrNothing _ _ hs

theorem Settles.insertBookOrder {s : ContractEngine Q} {o : CompactOrderLog} (hs : I s)
    (ho : ok o) (htype : o.type ≤ ContractType.OurBestPrice.code) : M (s.insertBookOrder o) := by
  rcases insertBookOrder_cases s o with h | ⟨p, hp, h⟩ <;> rw [h]
  · exact hk.refuse _ hs
  · exact hk.insert _ o p hs ho htype hp

theorem Settles.insertOrderLog {s : ContractEngine Q} {o : CompactOrderLog} (hs : I s)
    (ho : ok o) : I (s.insertOrderLog o) := by
  unfold ContractEngine.insertOrderLog
  rw [releaseDue_eq]
  have hrel := hk.release o.timestamp hs
  simp only
  split
  · next htype =>
    exact hk.processTrade (hk.insertBookOrder hrel ho htype)
  · rcases insertImmediateOrder_cases (s.processTwapOrdersIfNecessary o.timestamp) o with
      h | ⟨htype, fill, hfill, h⟩ <;> rw [h]
    · exact hrel
    · exact hk.runImmediate hfill (hk.arrive _ o hrel ho htype.1 htype.2)

theorem Settles.apply {s : ContractEngine Q} {op : Op} (hs : I s)
    (hok : ∀ o, op = .insertOrderLog o → ok o) : I (s.apply op) := by
  cases op with
  | insertAlpha alpha => exact hk.alpha s alpha hs
  | insertOrderLog o => exact hk.insertOrderLog hs (hok o rfl)
  | onComplete => exact hk.release maxInt hs

end Settles

/-- **What the steps preserve holds after every run.** -/
theorem Settles.run {I M : ContractEngine Q → Prop} {ok : CompactOrderLog → Prop}
    {J : ContractEngine Q → CompactOrderLog → Prop} (hk : Settles I M ok J)
    {s : ContractEngine Q} {ops : List Op} (hs : I s) (hok : LogsSatisfy ok ops) : I (s.run ops) :=
  run_invariant (fun _ _ hI h => hk.apply hI h) ops s hs hok

/-- An invariant that every single step preserves, whatever the layout of the heaps. -/
structure Kept (I : ContractEngine Q → Prop) (ok : CompactOrderLog → Prop)
    (J : ContractEngine Q → CompactOrderLog → Prop) : Prop where
  alpha : ∀ s alpha, I s → I (s.insertAlpha alpha)
  enter : ∀ s o, I s → s.twapOrders[s.twapHead]? = some o → I (s.enterTwap o)
  insert : ∀ s o p, I s → ok o → o.type ≤ ContractType.OurBestPrice.code →
    I (s.insertOrder o.direction { o with price := p })
  cross : ∀ s t a b, I s → Cross s t a b → I t
  arrive : ∀ s o, I s → ok o → ContractType.BestFivePriceNoLeft.code ≤ o.type →
    o.type ≤ ContractType.AllOrNothing.code → J (s.log (.immediate (s.named o))) (s.named o)
  fill : FillInvariant J
  finish : ∀ s o, J s o → I (s.log (.discard o))

section Kept
variable {I : ContractEngine Q → Prop} {ok : CompactOrderLog → Prop}
  {J : ContractEngine Q → CompactOrderLog → Prop} (hk : Kept I ok J)
include hk

theorem Kept.settles : Settles I I ok J where
  alpha := hk.alpha
  enter := hk.enter
  insert s o p hs ho htype _ := hk.insert s o p hs ho htype
  refuse _ hs := hs
  cross := hk.cross
  settle _ hs _ := hs
  arrive := hk.arrive
  fill := hk.fill.fill
  allOrNothing _ _ hs := allOrNothing_invariant hk.fill hs
  finish := hk.finish

/-- **An invariant of every step is an invariant of every run.** -/
theorem Kept.run {s : ContractEngine Q} {ops : List Op} (hs : I s) (hok : LogsSatisfy ok ops) :
    I (s.run ops) := hk.settles.run hs hok

end Kept

end MatchingEngine.ContractEngine
