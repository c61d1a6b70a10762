import Mathlib
import MatchingEngine.Contract.Order

/-!
# Refused orders

An order log that finds no place is refused by a `break` out of the switch, after which
the engine goes on to match the book.  The book is uncrossed then, so that the matching
does nothing: the step leaves the state as the release of the due TWAP orders has left it.

## Main definitions

* `Refused s o` — the state `s` has no place for the order `o`.
* `refused_iff` — it is refused exactly if it is neither accepted nor immediate.
* `processTrade_eq_self` — an uncrossed book is not matched.
* `insertOrderLog_of_refused` — a refused order leaves no trace.
-/

namespace MatchingEngine.ContractEngine
variable {Q : Direction → Type} [OrderQueue Q]

/-- The order `o` finds no place in the state `s`. -/
inductive Refused (s : ContractEngine Q) (o : CompactOrderLog) : Prop
  /-- The price is outside the band or the limits of the day. -/
  | priceLimit (htype : o.type = ContractType.PriceLimit.code)
      (hband : priceLe (s.getCurrentBasePrice (some o.direction) + o.price)
          (s.priceBand o.direction (s.getCurrentBasePrice (some o.direction))).1 ∨
        priceLe (s.priceBand o.direction (s.getCurrentBasePrice (some o.direction))).2
          (s.getCurrentBasePrice (some o.direction) + o.price))
  /-- There is no best price on the other side. -/
  | oppositeBestPrice (htype : o.type = ContractType.OppositeBestPrice.code)
      (hempty : OrderQueue.isEmpty (s.heap o.direction.opposite) = true)
  /-- There is no best price on the own side. -/
  | ourBestPrice (htype : o.type = ContractType.OurBestPrice.code)
      (hempty : OrderQueue.isEmpty (s.heap o.direction) = true)
  /-- The type bits match no case: they are `6` or `7`. -/
  | noType (htype : ContractType.AllOrNothing.code < o.type)

/-! ## What a refusal does -/

section Refused
variable {s : ContractEngine Q} {o : CompactOrderLog}

theorem insertBestPrice_of_isEmpty {d : Direction} (h : OrderQueue.isEmpty (s.heap d) = true) :
    s.insertBestPrice d o = s := by
  rw [insertBestPrice, h, if_neg (by decide)]

/-- A refused order does not enter the book. -/
theorem Refused.insertBookOrder (h : Refused s o) : s.insertBookOrder o = s := by
  unfold ContractEngine.insertBookOrder
  cases h with
  | priceLimit htype hband =>
    rw [if_pos htype]
    exact if_pos hband
  | oppositeBestPrice htype hempty =>
    rw [if_neg (by rw [htype]; decide), if_pos htype, insertBestPrice_of_isEmpty hempty]
  | ourBestPrice htype hempty =>
    rw [if_neg (by rw [htype]; decide), if_neg (by rw [htype]; decide), if_pos htype,
      insertBestPrice_of_isEmpty hempty]
  | noType htype =>
    have hne : ∀ c, c ≤ ContractType.AllOrNothing.code → o.type ≠ c := fun c hc => by omega
    rw [if_neg (hne _ (by decide)), if_neg (hne _ (by decide)), if_neg (hne _ (by decide))]

/-- An order above the types of the book is refused for its type bits only. -/
theorem Refused.noType_of_lt (h : Refused s o) (htype : ContractType.OurBestPrice.code < o.type) :
    ContractType.AllOrNothing.code < o.type := by
  cases h with
  | priceLimit h _ | oppositeBestPrice h _ | ourBestPrice h _ =>
    rw [h] at htype
    exact absurd htype (by decide)
  | noType h => exact h

/-- It does not reach an immediate loop either. -/
theorem Refused.insertImmediateOrder (h : Refused s o)
    (htype : ContractType.OurBestPrice.code < o.type) : s.insertImmediateOrder o = s := by
  have hhigh := h.noType_of_lt htype
  have hne : ∀ c, c ≤ ContractType.AllOrNothing.code → o.type ≠ c := fun c hc => by omega
  rw [ContractEngine.insertImmediateOrder, if_neg (hne _ (by decide)), if_neg (hne _ (by decide)),
    if_neg (hne _ (by decide))]

theorem Refused.not_accepted (h : Refused s o) (p : ℚ) : ¬ Accepted s o p := by
  intro hp
  cases hp with
  | priceLimit htype hdown hup =>
    cases h with
    | priceLimit _ hband => exact hband.elim hdown hup
    | oppositeBestPrice h _ | ourBestPrice h _ | noType h =>
      rw [htype] at h
      exact absurd h (by decide)
  | bestPrice d hd hne =>
    rcases hd with ⟨htype, rfl⟩ | ⟨htype, rfl⟩ <;> cases h with
    | oppositeBestPrice h hempty | ourBestPrice h hempty =>
      first
      | exact absurd (hempty.symm.trans hne) (by decide)
      | rw [htype] at h
        exact absurd h (by decide)
    | priceLimit h _ | noType h =>
      rw [htype] at h
      exact absurd h (by decide)

/-- **An order is refused exactly if it is neither accepted nor immediate.** -/
theorem refused_iff : Refused s o ↔ (∀ p, ¬ Accepted s o p) ∧
    ¬ (ContractType.BestFivePriceNoLeft.code ≤ o.type ∧
      o.type ≤ ContractType.AllOrNothing.code) := by
  constructor
  · intro h
    exact ⟨h.not_accepted, fun ⟨hlow, hhigh⟩ =>
      absurd hhigh (not_le.mpr (h.noType_of_lt hlow))⟩
  · rintro ⟨haccept, himmediate⟩
    by_cases hlimit : o.type = ContractType.PriceLimit.code
    · refine .priceLimit hlimit (not_not.mp fun hband => ?_)
      rw [not_or] at hband
      exact haccept _ (.priceLimit hlimit hband.1 hband.2)
    by_cases hopposite : o.type = ContractType.OppositeBestPrice.code
    · refine .oppositeBestPrice hopposite (Bool.eq_true_of_not_eq_false fun hne => ?_)
      exact haccept _ (.bestPrice _ (.inl ⟨hopposite, rfl⟩) hne)
    by_cases hour : o.type = ContractType.OurBestPrice.code
    · refine .ourBestPrice hour (Bool.eq_true_of_not_eq_false fun hne => ?_)
      exact haccept _ (.bestPrice _ (.inr ⟨hour, rfl⟩) hne)
    · refine .noType ?_
      simp only [ContractType.code] at hlimit hopposite hour himmediate ⊢
      omega

/-! ## What follows it -/

variable [LawfulOrderQueue Q]

/-- The converse of `Tidy.uncrossed`. -/
theorem Tidy.processTradeStep_eq_none (hs : Tidy s) (huncrossed : Uncrossed s) :
    processTradeStep s = none := by
  refine ContractEngine.processTradeStep_eq_none.mpr fun hS hB => ?_
  have hsale := mem_book_top hS
  have hbuy := mem_book_top hB
  rw [priceGt_iff (hs.grid _ _ hsale) (hs.grid _ _ hbuy)]
  exact huncrossed _ hsale _ hbuy

/-- **An uncrossed book is not matched.** -/
theorem Tidy.processTrade_eq_self (hs : Tidy s) (huncrossed : Uncrossed s) :
    s.processTrade = s :=
  Loop.exec_of_none (hs.processTradeStep_eq_none huncrossed)

/-- A refused order does nothing but release the due TWAP orders, if these leave the book
uncrossed. -/
theorem Refused.insertOrderLog {s : ContractEngine Q} {o : CompactOrderLog}
    (hs : Tidy (s.processTwapOrdersIfNecessary o.timestamp))
    (huncrossed : Uncrossed (s.processTwapOrdersIfNecessary o.timestamp))
    (h : Refused (s.processTwapOrdersIfNecessary o.timestamp) o) :
    s.insertOrderLog o = s.processTwapOrdersIfNecessary o.timestamp := by
  unfold ContractEngine.insertOrderLog
  rw [releaseDue_eq]
  simp only
  split
  · rw [h.insertBookOrder, hs.processTrade_eq_self huncrossed]
  · next htype => exact h.insertImmediateOrder (not_le.mp htype)

end Refused

/-- **A refused order leaves no trace**: after it the state is, heaps and history included,
what the release of the TWAP orders before it has made of the state, and the matching that
follows it finds nothing to trade. -/
theorem insertOrderLog_of_refused (sessionNum sessionLength : ℤ) {info : CompactPrevTradeInfo}
    (hinfo : OnGrid info.prevClosePrice) (instrument : UInt64) {ops : List Op}
    (hok : LogsSatisfy (fun o => 0 < o.volume ∧ OnGrid o.price) ops) (o : CompactOrderLog) :
    let s := (new sessionNum sessionLength info instrument : ContractEngine OrderHeap).run ops
    let released := s.processTwapOrdersIfNecessary o.timestamp
    Refused released o → s.insertOrderLog o = released ∧ processTradeStep released = none := by
  intro s released hrefused
  have hreleased : Sound released ∧ Tidy released ∧ Uncrossed released :=
    order_settles.release o.timestamp
      (order_run OrderHeap sessionNum sessionLength hinfo instrument hok)
  obtain ⟨-, htidy, huncrossed⟩ := hreleased
  exact ⟨hrefused.insertOrderLog htidy huncrossed, htidy.processTradeStep_eq_none huncrossed⟩

/-- A buy far above the band, while a TWAP order is due that trades with the resting sale. -/
theorem insertOrderLog_of_high_offset :
    let s := (new 1 1 ⟨10, 0⟩ 1 : ContractEngine OrderHeap).run
      [.insertOrderLog ⟨0, 3, 1 / 100, 0, 0⟩, .insertAlpha ⟨1, 2⟩]
    let o : CompactOrderLog := ⟨2, 5, 4, 8, 0⟩
    s.insertOrderLog o = s.processTwapOrdersIfNecessary 2 ∧
      processTradeStep (s.processTwapOrdersIfNecessary 2) = none := by
  have hinfo : OnGrid (⟨10, 0⟩ : CompactPrevTradeInfo).prevClosePrice := by decide +kernel
  have hok : LogsSatisfy (fun o => 0 < o.volume ∧ OnGrid o.price)
      [.insertOrderLog ⟨0, 3, 1 / 100, 0, 0⟩, .insertAlpha ⟨1, 2⟩] := by decide +kernel
  refine insertOrderLog_of_refused 1 1 hinfo 1 hok ⟨2, 5, 4, 8, 0⟩
    (.priceLimit (by decide +kernel) (.inr ?_))
  decide +kernel

end MatchingEngine.ContractEngine
