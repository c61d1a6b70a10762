import Mathlib
import MatchingEngine.Contract.Order

/-!
# The price of a trade

Rule 3.4.4 has a trade execute at the price of the order that was in the book first.
`tradeOrder` reads the timestamps for that: it takes the price of the buy if the sale is
strictly later, else the price of the sale.  Names tell which order of a trade was in the
book: the other one is the last arrival before the trade.

## Main definitions

* `restingOrder`, `incomingOrder` — the two orders of a trade by their arrival.
* `LastArrival` — the last order that arrived before a place in the history.
* `CrossedBy s k` — only the order `k` meets an order of the other side.
* `PricedAsResting` — when the timestamps tell the resting order.
* `tradePrice_eq_resting_iff` — the price of every trade of every run.
-/

namespace MatchingEngine

open ContractEngine

/-! ## The orders of a trade -/

/-- The order of a trade that was in the book, the one named first. -/
def restingOrder (a b : CompactOrderLog) : CompactOrderLog := if a.id < b.id then a else b

/-- The order of a trade that came last. -/
def incomingOrder (a b : CompactOrderLog) : CompactOrderLog := if a.id < b.id then b else a

/-- The prices agree, or the timestamps order the two orders as they arrived: an incoming
sale is strictly later than the resting buy, an incoming buy not earlier than the sale. -/
def PricedAsResting (a b : CompactOrderLog) : Prop :=
  a.price = b.price ∨
    if a.id < b.id then a.timestamp ≤ b.timestamp else b.timestamp < a.timestamp

instance (a b : CompactOrderLog) : Decidable (PricedAsResting a b) :=
  inferInstanceAs (Decidable (_ ∨ _))

/-- `tradeOrder` takes the price of the resting order just when the timestamps tell it. -/
theorem tradePrice_eq_iff {a b : CompactOrderLog} (ha : OnGrid a.price) (hb : OnGrid b.price) :
    tradePrice a b = (restingOrder a b).price ↔ PricedAsResting a b := by
  simp only [tradePrice, priceEq_iff ha hb, restingOrder, PricedAsResting, gt_iff_lt]
  by_cases hp : a.price = b.price
  · by_cases hid : a.id < b.id
    · simp [hp, hid]
    · simp [hp, hid]
  · by_cases hid : a.id < b.id
    · by_cases ht : b.timestamp < a.timestamp
      · simp [hp, hid, ht, Ne.symm hp]
      · simp [hp, hid, ht, not_lt.mp ht]
    · by_cases ht : b.timestamp < a.timestamp
      · simp [hp, hid, ht]
      · simp [hp, hid, ht]

/-! ## The last arrival -/

/-- The event brings an order to the engine. -/
def Event.IsArrival : Event → Prop
  | .insert _ _ => True
  | .immediate _ => True
  | .trade _ _ _ _ _ => False
  | .discard _ => False

/-- The last order that arrived before the place `i` of the history is the one named `k`. -/
structure LastArrival (history : List Event) (i k : ℕ) : Prop where
  lt : k < i
  isArrival : ∃ e : Event, history[k]? = some e ∧ e.IsArrival
  later : ∀ (j : ℕ) (e : Event), k < j → j < i → history[j]? = some e → ¬ e.IsArrival

section LastArrival
variable {history : List Event} {e : Event} {i k : ℕ}

theorem LastArrival.append (h : LastArrival history i k) (hi : i ≤ history.length) :
    LastArrival (history ++ [e]) i k := by
  obtain ⟨e', he', harr⟩ := h.isArrival
  refine ⟨h.lt, ⟨e', ?_, harr⟩, fun j e'' hkj hji hj => h.later j e'' hkj hji ?_⟩
  · rw [List.getElem?_append_left (h.lt.trans_le hi), he']
  · rwa [List.getElem?_append_left (hji.trans_le hi)] at hj

/-- An event that is no arrival leaves the last arrival the last. -/
theorem LastArrival.extend (h : LastArrival history history.length k) (he : ¬ e.IsArrival) :
    LastArrival (history ++ [e]) (history ++ [e]).length k := by
  obtain ⟨hlt, harr, hlater⟩ := h.append (e := e) le_rfl
  have hlen : (history ++ [e]).length = history.length + 1 := by simp
  refine ⟨by omega, harr, fun j e' hkj hj hget => ?_⟩
  rcases Nat.lt_or_eq_of_le (Nat.lt_succ_iff.mp (hlen ▸ hj)) with hj | rfl
  · exact hlater j e' hkj hj hget
  · rw [List.getElem?_concat_length, Option.some.injEq] at hget
    exact hget ▸ he

/-- An arrival is the last arrival. -/
theorem lastArrival_concat (he : e.IsArrival) :
    LastArrival (history ++ [e]) (history ++ [e]).length history.length := by
  have hlen : (history ++ [e]).length = history.length + 1 := by simp
  exact ⟨by omega, ⟨e, List.getElem?_concat_length, he⟩, fun j e' hkj hj _ => by omega⟩

end LastArrival

/-- What the trade `a`, `b` at the place `i` says: its price is that of `tradeOrder`, from
prices on the grid, and one of the two orders is the last arrival, the other an earlier one. -/
structure TradeOk (history : List Event) (i : ℕ) (a b : CompactOrderLog) (p : ℚ) : Prop where
  price : p = tradePrice a b
  onGrid : OnGrid a.price ∧ OnGrid b.price
  incoming : LastArrival history i (incomingOrder a b).id
  resting : (restingOrder a b).id < (incomingOrder a b).id

/-- Every trade of the history is in order. -/
def TradesOk (history : List Event) : Prop :=
  ∀ i a b p v n, history[i]? = some (.trade a b p v n) → TradeOk history i a b p

theorem incomingOrder_of_lt {a b : CompactOrderLog} (h : a.id < b.id) :
    restingOrder a b = a ∧ incomingOrder a b = b := ⟨if_pos h, if_pos h⟩

theorem incomingOrder_of_gt {a b : CompactOrderLog} (h : b.id < a.id) :
    restingOrder a b = b ∧ incomingOrder a b = a := ⟨if_neg h.not_gt, if_neg h.not_gt⟩

/-- A trade between the last arrival and an earlier one is in order. -/
theorem tradeOk_of_lastArrival {history : List Event} {i k : ℕ} {a b : CompactOrderLog}
    (hlast : LastArrival history i k) (ha : OnGrid a.price) (hb : OnGrid b.price)
    (hab : a.id = k ∧ b.id < k ∨ b.id = k ∧ a.id < k) :
    TradeOk history i a b (tradePrice a b) := by
  rcases hab with ⟨rfl, hlt⟩ | ⟨rfl, hlt⟩
  · obtain ⟨hrest, hin⟩ := incomingOrder_of_gt hlt
    exact ⟨rfl, ⟨ha, hb⟩, by rwa [hin], by rwa [hrest, hin]⟩
  · obtain ⟨hrest, hin⟩ := incomingOrder_of_lt hlt
    exact ⟨rfl, ⟨ha, hb⟩, by rwa [hin], by rwa [hrest, hin]⟩

theorem TradeOk.append {history : List Event} {i : ℕ} {a b : CompactOrderLog} {p : ℚ} {e : Event}
    (h : TradeOk history i a b p) (hi : i ≤ history.length) : TradeOk (history ++ [e]) i a b p :=
  ⟨h.price, h.onGrid, h.incoming.append hi, h.resting⟩

theorem TradesOk.append {history : List Event} {e : Event} (h : TradesOk history)
    (he : ∀ a b p v n, e = .trade a b p v n → TradeOk history history.length a b p) :
    TradesOk (history ++ [e]) := by
  intro i a b p v n hi
  rcases lt_trichotomy i history.length with hlt | rfl | hgt
  · rw [List.getElem?_append_left hlt] at hi
    exact (h i a b p v n hi).append hlt.le
  · rw [List.getElem?_concat_length, Option.some.injEq] at hi
    exact (he a b p v n hi).append le_rfl
  · rw [List.getElem?_eq_none (by simp; omega)] at hi
    cases hi

theorem TradesOk.log {history : List Event} (h : TradesOk history) {e : Event}
    (he : ∀ a b p v n, e ≠ .trade a b p v n) : TradesOk (history ++ [e]) :=
  h.append fun a b p v n heq => absurd heq (he a b p v n)

namespace ContractEngine
variable {Q : Direction → Type} [OrderQueue Q] [LawfulOrderQueue Q]

/-! ## Who meets whom -/

/-- Only the order `k`, the last one to arrive, meets an order of the other side. -/
structure CrossedBy (s : ContractEngine Q) (k : ℕ) : Prop where
  last : LastArrival s.history s.history.length k
  id_le : ∀ d, ∀ o ∈ s.book d, o.id ≤ k
  meets : ∀ a ∈ s.book .Sale, ∀ b ∈ s.book .Buy, a.price ≤ b.price → a.id = k ∨ b.id = k

/-- An order that enters an uncrossed book is the only one that meets another. -/
theorem crossedBy_insertOrder {s : ContractEngine Q} (hs : Sound s) (hun : Uncrossed s)
    (d : Direction) (o : CompactOrderLog) :
    CrossedBy (s.insertOrder d o) s.history.length := by
  have hmem : ∀ e, ∀ x ∈ (s.insertOrder d o).book e,
      x.id = s.history.length ∨ x ∈ s.book e ∧ x.id < s.history.length :=
    forall_book_insertOrder (P := fun e x => x.id = s.history.length ∨
      x ∈ s.book e ∧ x.id < s.history.length)
      (fun e x hx => .inr ⟨hx, (hs.resting e x hx).id_lt⟩) (.inl rfl)
  refine ⟨lastArrival_concat trivial, fun e x hx => ?_, fun a ha b hb hab => ?_⟩
  · rcases hmem e x hx with h | h
    · exact h.le
    · exact h.2.le
  · rcases hmem _ a ha with hka | hka
    · exact .inl hka
    · rcases hmem _ b hb with hkb | hkb
      · exact .inr hkb
      · exact absurd hab (hun a hka.1 b hkb.1).not_ge

/-- Every order of the book after a trade was there before, with its name and its price. -/
theorem Cross.exists_before {s t : ContractEngine Q} {a b : CompactOrderLog} (h : Cross s t a b)
    (d : Direction) {x : CompactOrderLog} (hx : x ∈ t.book d) :
    ∃ y ∈ s.book d, y.id = x.id ∧ y.price = x.price :=
  h.forall_book (P := fun d x => ∃ y ∈ s.book d, y.id = x.id ∧ y.price = x.price)
    (fun _ _ _ hx _ => hx) (fun _ x hx => ⟨x, hx, rfl, rfl⟩) d x hx

theorem CrossedBy.cross {s t : ContractEngine Q} {a b : CompactOrderLog} {k : ℕ}
    (hs : CrossedBy s k) (h : Cross s t a b) : CrossedBy t k := by
  refine ⟨by rw [h.traded.history]; exact hs.last.extend not_false, fun d x hx => ?_,
    fun x hx y hy hxy => ?_⟩
  · obtain ⟨x', hx', hid, -⟩ := h.exists_before d hx
    exact hid ▸ hs.id_le d x' hx'
  · obtain ⟨x', hx', hidx, hpx⟩ := h.exists_before _ hx
    obtain ⟨y', hy', hidy, hpy⟩ := h.exists_before _ hy
    rw [← hidx, ← hidy]
    exact hs.meets x' hx' y' hy' (by rw [hpx, hpy]; exact hxy)

/-- The tops that trade: one is the last arrival, the other came before it. -/
theorem CrossedBy.tops {s t : ContractEngine Q} {a b : CompactOrderLog} {k : ℕ}
    (hs : CrossedBy s k) (hsound : Sound s) (htidy : Tidy s) (h : Cross s t a b) :
    OnGrid a.price ∧ OnGrid b.price ∧ (a.id = k ∧ b.id < k ∨ b.id = k ∧ a.id < k) := by
  have ha : a ∈ s.book .Sale := h.top_sale ▸ mem_book_top h.isEmpty_sale
  have hb : b ∈ s.book .Buy := h.top_buy ▸ mem_book_top h.isEmpty_buy
  have hga := htidy.grid _ a ha
  have hgb := htidy.grid _ b hb
  have hne : a.id ≠ b.id := fun heq =>
    Multiset.disjoint_left.mp (Multiset.disjoint_of_nodup_add hsound.nodup)
      (Multiset.mem_map_of_mem _ ha) (heq ▸ Multiset.mem_map_of_mem _ hb)
  have hab : a.price ≤ b.price := by
    have := h.crossing
    rw [priceGt_iff hga hgb] at this
    exact not_lt.mp this
  have hka := hs.id_le _ a ha
  have hkb := hs.id_le _ b hb
  refine ⟨hga, hgb, ?_⟩
  rcases hs.meets a ha b hb hab with h | h
  · exact .inl ⟨h, by omega⟩
  · exact .inr ⟨h, by omega⟩

/-! ## The runs -/

/-- Between the steps the book is uncrossed and all trades are in order. -/
structure Priced (s : ContractEngine Q) : Prop where
  sound : Sound s
  tidy : Tidy s
  uncrossed : Uncrossed s
  trades : TradesOk s.history

/-- While orders are matched only the last arrival meets another order. -/
structure Matching (s : ContractEngine Q) : Prop where
  sound : Sound s
  tidy : Tidy s
  crossed : Uncrossed s ∨ ∃ k, CrossedBy s k
  trades : TradesOk s.history

/-- While an immediate order is filled it is the last arrival. -/
structure Filling (s : ContractEngine Q) (o : CompactOrderLog) : Prop where
  trades : TradesOk s.history
  last : LastArrival s.history s.history.length o.id
  onGrid : OnGrid o.price
  grid : ∀ d, ∀ a ∈ s.book d, OnGrid a.price
  id_lt : ∀ d, ∀ a ∈ s.book d, a.id < o.id

theorem Matching.cross {s t : ContractEngine Q} {a b : CompactOrderLog} (hs : Matching s)
    (h : Cross s t a b) : Matching t := by
  rcases hs.crossed with hun | ⟨k, hk⟩
  · -- Nothing meets in an uncrossed book.
    have ha : a ∈ s.book .Sale := h.top_sale ▸ mem_book_top h.isEmpty_sale
    have hb : b ∈ s.book .Buy := h.top_buy ▸ mem_book_top h.isEmpty_buy
    have hgt : priceGt a.price b.price :=
      (priceGt_iff (hs.tidy.grid _ a ha) (hs.tidy.grid _ b hb)).mpr (hun a ha b hb)
    exact absurd hgt h.crossing
  · obtain ⟨hga, hgb, hab⟩ := hk.tops hs.sound hs.tidy h
    refine ⟨hs.sound.cross h, hs.tidy.cross h, .inr ⟨k, hk.cross h⟩, ?_⟩
    rw [h.traded.history]
    refine hs.trades.append fun a' b' p v n he => ?_
    obtain ⟨rfl, rfl, rfl, -, -⟩ := Event.trade.inj he
    exact tradeOk_of_lastArrival hk.last hga hgb hab

theorem filling_invariant : FillInvariant (Filling (Q := Q)) where
  fill s o t a hs h := by
    have ha : a ∈ s.book o.direction.opposite := h.top_opposite ▸ mem_book_top h.isEmpty_opposite
    have hga := hs.grid _ a ha
    have hlt := hs.id_lt _ a ha
    refine ⟨?_, ?_, hs.onGrid, h.forall_book (fun _ _ _ hx _ => hx) hs.grid,
      h.forall_book (P := fun _ x => x.id < o.id) (fun _ _ _ hx _ => hx) hs.id_lt⟩
    · rw [h.traded.history]
      refine hs.trades.append fun a' b' p v n he => ?_
      obtain ⟨rfl, rfl, rfl, -, -⟩ := Event.trade.inj he
      unfold roles
      cases o.direction with
      | Sale => exact tradeOk_of_lastArrival hs.last hs.onGrid hga (.inl ⟨rfl, hlt⟩)
      | Buy => exact tradeOk_of_lastArrival hs.last hga hs.onGrid (.inr ⟨rfl, hlt⟩)
    · rw [h.traded.history]
      exact hs.last.extend not_false
  same s o t hs h := by
    have hhist : t.history = s.history := by rw [h.scalars]
    refine ⟨hhist ▸ hs.trades, hhist ▸ hs.last, hs.onGrid, fun d => ?_, fun d => ?_⟩
    · rw [h.book]
      exact hs.grid d
    · rw [h.book]
      exact hs.id_lt d

theorem priced_settles : Settles (Priced (Q := Q)) Matching
    (fun o => 0 < o.volume ∧ OnGrid o.price)
    fun s o => (Sound.With s o ∧ (Tidy s ∧ OnGrid o.price) ∧ Uncrossed s) ∧ Filling s o where
  alpha s alpha hs := by
    refine ⟨hs.sound.insertAlpha alpha, hs.tidy.insertAlpha alpha, ?_, ?_⟩ <;> rw [insertAlpha_eq]
    · exact hs.uncrossed
    · exact hs.trades
  enter s o hs ho := by
    have hsound := hs.sound.enterTwap ho
    have htidy := hs.tidy.enterTwap hs.sound.valid ho
    obtain ⟨d, -, henter⟩ := enterTwap_eq hs.sound.valid ho
    rw [henter] at hsound htidy ⊢
    split at hsound
    · next hvol =>
      have hvalid := hsound.valid
      rw [if_pos hvol] at htidy ⊢
      have hpass : Sound (s.passTwap o) := ⟨hvalid, hs.sound.resting, hs.sound.nodup⟩
      exact ⟨hsound, htidy, .inr ⟨_, crossedBy_insertOrder hpass hs.uncrossed d _⟩,
        hs.trades.log (by simp)⟩
    · next hvol =>
      rw [if_neg hvol] at htidy ⊢
      exact ⟨hsound, htidy, .inl hs.uncrossed, hs.trades⟩
  insert s o p hs hok _ hp :=
    ⟨hs.sound.insertOrder hok.1 rfl, hs.tidy.insertOrder _ (hs.tidy.onGrid_accepted hok.2 hp),
      .inr ⟨_, crossedBy_insertOrder hs.sound hs.uncrossed _ _⟩, hs.trades.log (by simp)⟩
  refuse s hs := ⟨hs.sound, hs.tidy, .inl hs.uncrossed, hs.trades⟩
  cross s t a b hs h := hs.cross h
  settle s hs hdone := ⟨hs.sound, hs.tidy, hs.tidy.uncrossed hdone, hs.trades⟩
  arrive s o hs hok hge hle :=
    ⟨order_settles.arrive s o ⟨hs.sound, hs.tidy, hs.uncrossed⟩ hok hge hle,
      hs.trades.log (by simp), lastArrival_concat trivial, hok.2, hs.tidy.grid,
      fun d a ha => (hs.sound.resting d a ha).id_lt⟩
  fill s o t a hs h := ⟨order_settles.fill s o t a hs.1 h, filling_invariant.fill s o t a hs.2 h⟩
  allOrNothing s o hs :=
    ⟨order_settles.allOrNothing s o hs.1, allOrNothing_invariant filling_invariant hs.2⟩
  finish s o hs := by
    obtain ⟨hsound, htidy, hun⟩ := order_settles.finish s o hs.1
    exact ⟨hsound, htidy, hun, hs.2.trades.log (by simp)⟩

theorem priced_new (sessionNum sessionLength : ℤ) {info : CompactPrevTradeInfo}
    (hinfo : OnGrid info.prevClosePrice) (instrument : UInt64) :
    Priced (new sessionNum sessionLength info instrument : ContractEngine Q) := by
  obtain ⟨htidy, hun⟩ := tidy_new (Q := Q) sessionNum sessionLength hinfo instrument
  refine ⟨sound_new .., htidy, hun, fun i a b p v n hi => ?_⟩
  cases hi

/-- **A trade executes at the price of the resting order just when the timestamps tell it.**
Of the two orders of every trade one is the last arrival, the other was in the book. -/
theorem tradePrice_eq_resting_iff (sessionNum sessionLength : ℤ) {info : CompactPrevTradeInfo}
    (hinfo : OnGrid info.prevClosePrice) (instrument : UInt64) {ops : List Op}
    (hok : LogsSatisfy (fun o => 0 < o.volume ∧ OnGrid o.price) ops) :
    let s := (new sessionNum sessionLength info instrument : ContractEngine OrderHeap).run ops
    ∀ i a b p v n, s.history[i]? = some (.trade a b p v n) →
      (LastArrival s.history i (incomingOrder a b).id ∧
        (restingOrder a b).id < (incomingOrder a b).id) ∧
      (p = (restingOrder a b).price ↔ PricedAsResting a b) := by
  intro s i a b p v n hi
  have hpriced : Priced s :=
    priced_settles.run (priced_new sessionNum sessionLength hinfo instrument) hok
  obtain ⟨hp, hgrid, hlast, hrest⟩ := hpriced.trades i a b p v n hi
  refine ⟨⟨hlast, hrest⟩, ?_⟩
  rw [hp]
  exact tradePrice_eq_iff hgrid.1 hgrid.2

/-- A later immediate sale takes the price of the resting buy. -/
theorem tradePrice_eq_resting_of_later_sale :
    let s := (new 3 1 ⟨10, 0⟩ 1 : ContractEngine OrderHeap).run
      [.insertOrderLog ⟨5, 1, 0, 8, 0⟩, .insertOrderLog ⟨6, 1, 0, 4, 0⟩]
    s.history[2]? = some (.trade ⟨6, 1, 0, 4, 1⟩ ⟨5, 1, 10, 8, 0⟩ 10 1 0) ∧
      (10 : ℚ) = (restingOrder ⟨6, 1, 0, 4, 1⟩ ⟨5, 1, 10, 8, 0⟩).price := by
  intro s
  have hinfo : OnGrid (⟨10, 0⟩ : CompactPrevTradeInfo).prevClosePrice := by decide +kernel
  have hok : LogsSatisfy (fun o => 0 < o.volume ∧ OnGrid o.price)
      [.insertOrderLog ⟨5, 1, 0, 8, 0⟩, .insertOrderLog ⟨6, 1, 0, 4, 0⟩] := by decide +kernel
  have htrade : s.history[2]? = some (.trade ⟨6, 1, 0, 4, 1⟩ ⟨5, 1, 10, 8, 0⟩ 10 1 0) := by
    decide +kernel
  exact ⟨htrade, (tradePrice_eq_resting_iff 3 1 hinfo 1 hok 2 _ _ _ _ _ htrade).2.mpr
    (by decide +kernel)⟩

/-- An immediate sale with the timestamp of the resting buy trades at its own price field. -/
theorem not_tradePrice_eq_resting_of_same_time :
    ¬ ∀ (sessionNum sessionLength : ℤ) (info : CompactPrevTradeInfo) (instrument : UInt64)
      (ops : List Op), OnGrid info.prevClosePrice →
      LogsSatisfy (fun o => 0 < o.volume ∧ OnGrid o.price) ops →
      ((ops.filterMap Op.orderLog?).Pairwise fun o o' => o.timestamp ≤ o'.timestamp) →
      ∀ a b p v n, Event.trade a b p v n ∈
        ((new sessionNum sessionLength info instrument : ContractEngine OrderHeap).run ops).history →
        p = (restingOrder a b).price := by
  intro h
  have hprice := h 3 1 ⟨10, 0⟩ 1 [.insertOrderLog ⟨5, 1, 0, 8, 0⟩, .insertOrderLog ⟨5, 1, 0, 4, 0⟩]
    (by decide +kernel) (by decide +kernel) (by decide)
    ⟨5, 1, 0, 4, 1⟩ ⟨5, 1, 10, 8, 0⟩ 0 1 0 (by decide +kernel)
  exact absurd hprice (by decide +kernel)

end ContractEngine
end MatchingEngine
