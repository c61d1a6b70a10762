import Mathlib
import MatchingEngine.Contract.Sound

/-!
# The order of the book

On the price grid the heaps stay in order through every step, so that their tops are the
best prices.  After every public operation the matching loop has left the book uncrossed:
every resting sale is dearer than every resting buy.

## Main definitions

* `Tidy` — prices are on the grid and the heaps are in order.
* `Uncrossed` — no resting sale meets a resting buy.
* `Tidy.uncrossed` — where the matching loop stops, the book is uncrossed.
* `book_uncrossed_run` — the book after every run.
-/

namespace MatchingEngine.ContractEngine
variable {Q : Direction → Type} [OrderQueue Q] [LawfulOrderQueue Q]

/-- All prices are on the grid, and the heaps are in order. -/
structure Tidy (s : ContractEngine Q) : Prop where
  grid : ∀ d, ∀ o ∈ s.book d, OnGrid o.price
  lastPrice : OnGrid s.lastPrice
  inOrder : ∀ d, LawfulOrderQueue.InOrder (s.heap d)

/-- Every resting sale is dearer than every resting buy. -/
def Uncrossed (s : ContractEngine Q) : Prop :=
  ∀ a ∈ s.book .Sale, ∀ b ∈ s.book .Buy, b.price < a.price

/-! ## The tops are best -/

theorem signedPrice_le_of_rank_le {d : Direction} {a b : CompactOrderLog}
    (h : rank d a ≤ rank d b) : d.signedPrice a.price ≤ d.signedPrice b.price :=
  (Prod.Lex.toLex_le_toLex.mp h).elim le_of_lt fun h => h.1.le

section Tidy
variable {s t : ContractEngine Q} (hs : Tidy s)
include hs

theorem Tidy.rank_top_le {d : Direction} {o : CompactOrderLog} (ho : o ∈ s.book d) :
    rank d (OrderQueue.top (s.heap d)) ≤ rank d o := by
  have hne : OrderQueue.isEmpty (s.heap d) = false :=
    (isEmpty_eq_false_iff s d).mpr fun h => Multiset.notMem_zero o (h ▸ ho)
  exact LawfulOrderQueue.top_min _ (hs.inOrder d) (hs.grid d) hne o ho

theorem Tidy.top_sale_le {a : CompactOrderLog} (ha : a ∈ s.book .Sale) :
    (OrderQueue.top (s.heap .Sale)).price ≤ a.price :=
  signedPrice_le_of_rank_le (hs.rank_top_le ha)

theorem Tidy.le_top_buy {b : CompactOrderLog} (hb : b ∈ s.book .Buy) :
    b.price ≤ (OrderQueue.top (s.heap .Buy)).price :=
  neg_le_neg_iff.mp (signedPrice_le_of_rank_le (hs.rank_top_le hb))

/-- **Where the matching loop stops the book is uncrossed.** -/
theorem Tidy.uncrossed (hdone : processTradeStep s = none) : Uncrossed s := by
  intro a ha b hb
  have hS : OrderQueue.isEmpty (s.heap .Sale) = false :=
    (isEmpty_eq_false_iff s _).mpr fun h => Multiset.notMem_zero a (h ▸ ha)
  have hB : OrderQueue.isEmpty (s.heap .Buy) = false :=
    (isEmpty_eq_false_iff s _).mpr fun h => Multiset.notMem_zero b (h ▸ hb)
  have htops := processTradeStep_eq_none.mp hdone hS hB
  rw [priceGt_iff (hs.grid _ _ (mem_book_top hS)) (hs.grid _ _ (mem_book_top hB))] at htops
  calc b.price ≤ (OrderQueue.top (s.heap .Buy)).price := hs.le_top_buy hb
    _ < (OrderQueue.top (s.heap .Sale)).price := htops
    _ ≤ a.price := hs.top_sale_le ha

/-! ## Prices stay on the grid, heaps in order -/

theorem Tidy.onGrid_top {d : Direction} (h : OrderQueue.isEmpty (s.heap d) = false) :
    OnGrid (OrderQueue.top (s.heap d)).price := hs.grid d _ (mem_book_top h)

theorem Tidy.onGrid_basePrice (direction : Option Direction) :
    OnGrid (s.getCurrentBasePrice direction) := by
  unfold getCurrentBasePrice
  split
  · split
    · next h => exact hs.onGrid_top h
    · split
      · next h => exact hs.onGrid_top h
      · exact hs.lastPrice
  · exact hs.lastPrice

/-- The price an order log on the grid enters at is on the grid. -/
theorem Tidy.onGrid_accepted {o : CompactOrderLog} (ho : OnGrid o.price) {p : ℚ}
    (hp : Accepted s o p) : OnGrid p := by
  cases hp with
  | priceLimit => exact (hs.onGrid_basePrice _).add ho
  | bestPrice d _ hne => exact hs.onGrid_top hne

theorem Tidy.log (e : Event) : Tidy (s.log e) := ⟨hs.grid, hs.lastPrice, hs.inOrder⟩

theorem Tidy.insertAlpha (alpha : CompactAlpha) : Tidy (s.insertAlpha alpha) := by
  rw [insertAlpha_eq]
  exact ⟨hs.grid, hs.lastPrice, hs.inOrder⟩

theorem Tidy.insertOrder (d : Direction) {o : CompactOrderLog} (ho : OnGrid o.price) :
    Tidy (s.insertOrder d o) := by
  refine ⟨forall_book_insertOrder hs.grid ho, hs.lastPrice, fun e => ?_⟩
  by_cases he : e = d
  · subst he
    change LawfulOrderQueue.InOrder ((s.setHeap e _).heap e)
    rw [heap_setHeap_self]
    exact LawfulOrderQueue.inOrder_insert _ _ (hs.inOrder e) (hs.grid e) ho
  · change LawfulOrderQueue.InOrder ((s.setHeap d _).heap e)
    rw [heap_setHeap_of_ne _ _ he]
    exact hs.inOrder e

theorem Tidy.enterTwap (hvalid : s.plan.Valid) {o : CompactOrderLog}
    (ho : s.twapOrders[s.twapHead]? = some o) : Tidy (s.enterTwap o) := by
  obtain ⟨d, -, henter⟩ := enterTwap_eq hvalid ho
  have hpass : Tidy (s.passTwap o) := ⟨hs.grid, hs.lastPrice, hs.inOrder⟩
  rw [henter]
  split
  · exact hpass.insertOrder d (hs.onGrid_basePrice _)
  · exact hpass

omit hs in
/-- A trade is at the price of one of its orders. -/
theorem tradePrice_eq_or (a b : CompactOrderLog) :
    tradePrice a b = a.price ∨ tradePrice a b = b.price := by
  unfold tradePrice
  split
  · exact .inl rfl
  · split
    · exact .inr rfl
    · exact .inl rfl

omit hs in
theorem onGrid_tradePrice {a b : CompactOrderLog} (ha : OnGrid a.price) (hb : OnGrid b.price) :
    OnGrid (tradePrice a b) := by
  rcases tradePrice_eq_or a b with h | h <;> rw [h]
  · exact ha
  · exact hb

omit hs in
theorem onGrid_tradePrice_roles {o a : CompactOrderLog} (ho : OnGrid o.price)
    (ha : OnGrid a.price) : OnGrid (tradePrice (roles o a).1 (roles o a).2) := by
  unfold roles
  cases o.direction with
  | Sale => exact onGrid_tradePrice ho ha
  | Buy => exact onGrid_tradePrice ha ho

theorem Tidy.cross {a b : CompactOrderLog} (h : Cross s t a b) : Tidy t := by
  refine ⟨h.forall_book (fun _ _ _ ho _ => ho) hs.grid, ?_, h.keepsOrder hs.grid hs.inOrder⟩
  rw [h.traded.lastPrice, ← h.top_sale, ← h.top_buy]
  exact onGrid_tradePrice (hs.onGrid_top h.isEmpty_sale) (hs.onGrid_top h.isEmpty_buy)

theorem Tidy.fill {o a : CompactOrderLog} (ho : OnGrid o.price) (h : Fill s o t a) : Tidy t := by
  refine ⟨h.forall_book (fun _ _ _ ho _ => ho) hs.grid, ?_, h.keepsOrder hs.grid hs.inOrder⟩
  rw [h.traded.lastPrice, ← h.top_opposite]
  exact onGrid_tradePrice_roles ho (hs.onGrid_top h.isEmpty_opposite)

theorem Tidy.setHeap {d : Direction} {q : Q d}
    (hgrid : ∀ o ∈ LawfulOrderQueue.contents q, OnGrid o.price)
    (hq : LawfulOrderQueue.InOrder q) : Tidy (s.setHeap d q) := by
  refine ⟨fun e => ?_, hs.lastPrice, fun e => ?_⟩ <;> by_cases he : e = d
  · subst he
    rw [book_setHeap_self]
    exact hgrid
  · rw [book_setHeap_of_ne _ _ he]
    exact hs.grid e
  · subst he
    rw [heap_setHeap_self]
    exact hq
  · rw [heap_setHeap_of_ne _ _ he]
    exact hs.inOrder e

end Tidy

/-! ## All or nothing keeps the heap in order -/

section collect
variable {d : Direction} {S : CompactOrderLog → Prop}

/-- Collecting keeps a heap in order if popping does, for orders that satisfy `S`. -/
theorem inOrder_collect
    (hpop : ∀ q : Q d, LawfulOrderQueue.InOrder q → (∀ a ∈ LawfulOrderQueue.contents q, S a) →
      LawfulOrderQueue.InOrder (OrderQueue.pop q).2)
    (volume : ℤ) {q : Q d} (hS : ∀ o ∈ LawfulOrderQueue.contents q, S o)
    (hq : LawfulOrderQueue.InOrder q) :
    (∀ o ∈ LawfulOrderQueue.contents (collect volume q).1, S o) ∧
      (∀ o ∈ (collect volume q).2.2, S o) ∧ LawfulOrderQueue.InOrder (collect volume q).1 := by
  refine Loop.exec_invariant (fun p : Q d × ℤ × List CompactOrderLog =>
    (∀ o ∈ LawfulOrderQueue.contents p.1, S o) ∧ (∀ o ∈ p.2.2, S o) ∧
      LawfulOrderQueue.InOrder p.1) ?_ ⟨hS, fun o ho => absurd ho List.not_mem_nil, hq⟩
  rintro ⟨q, sum, pending⟩ p ⟨hS, hpending, hq⟩ hstep
  obtain ⟨⟨-, he⟩, rfl⟩ := collectStep_eq_some.mp hstep
  simp only at hS hpending hq ⊢
  have hpopped := hpop q hq hS
  rw [LawfulOrderQueue.contents_pop q he] at hS
  refine ⟨fun o ho => hS o (Multiset.mem_cons_of_mem ho), fun o ho => ?_, hpopped⟩
  rcases List.mem_append.mp ho with ho | ho
  · exact hpending o ho
  · rw [List.mem_singleton.mp ho]
    exact hS _ (Multiset.mem_cons_self _ _)

/-- So does inserting a list of orders, if inserting one does. -/
theorem inOrder_foldl_insert
    (hinsert : ∀ (q : Q d) (o : CompactOrderLog), LawfulOrderQueue.InOrder q →
      (∀ a ∈ LawfulOrderQueue.contents q, S a) → S o →
      LawfulOrderQueue.InOrder (OrderQueue.insert q o))
    (l : List CompactOrderLog) {q : Q d} (hS : ∀ o ∈ LawfulOrderQueue.contents q, S o)
    (hl : ∀ o ∈ l, S o) (hq : LawfulOrderQueue.InOrder q) :
    LawfulOrderQueue.InOrder (l.foldl OrderQueue.insert q) := by
  induction l generalizing q with
  | nil => exact hq
  | cons o l ih =>
    have ho := hl o List.mem_cons_self
    refine ih (fun a ha => ?_) (fun a ha => hl a (List.mem_cons_of_mem _ ha)) (hinsert q o hq hS ho)
    rw [LawfulOrderQueue.contents_insert] at ha
    rcases Multiset.mem_cons.mp ha with rfl | ha
    · exact ho
    · exact hS a ha

end collect

theorem Tidy.tradePending (pending : List CompactOrderLog) {s : ContractEngine Q}
    {o : CompactOrderLog} (hs : Tidy s) (ho : OnGrid o.price)
    (hpending : ∀ a ∈ pending, OnGrid a.price) : Tidy (s.tradePending o pending).1 := by
  induction pending generalizing s o with
  | nil => exact hs
  | cons a pending ih =>
    have ha := hpending a List.mem_cons_self
    have htrade : Tidy (s.tradeWith o a) :=
      ⟨hs.grid, onGrid_tradePrice_roles ho ha, hs.inOrder⟩
    refine ih ?_ ho fun a' ha' => hpending a' (List.mem_cons_of_mem _ ha')
    split
    · refine htrade.setHeap (fun b hb => ?_)
        (LawfulOrderQueue.inOrder_insert _ _ (hs.inOrder _) (hs.grid _) ha)
      rw [LawfulOrderQueue.contents_insert] at hb
      rcases Multiset.mem_cons.mp hb with rfl | hb
      · exact ha
      · exact hs.grid _ b hb
    · exact htrade

theorem Tidy.allOrNothing {s : ContractEngine Q} {o : CompactOrderLog} (hs : Tidy s)
    (ho : OnGrid o.price) : Tidy (s.allOrNothing o).1 := by
  obtain ⟨hgrid, hpending, hq⟩ :=
    inOrder_collect LawfulOrderQueue.inOrder_pop o.volume (hs.grid o.direction.opposite)
      (hs.inOrder o.direction.opposite)
  unfold ContractEngine.allOrNothing
  simp only
  split
  · exact Tidy.tradePending _ (hs.setHeap hgrid hq) ho hpending
  · refine hs.setHeap (fun a ha => ?_)
      (inOrder_foldl_insert LawfulOrderQueue.inOrder_insert _ hgrid hpending hq)
    rw [contents_foldl_insert] at ha
    rcases Multiset.mem_add.mp ha with ha | ha
    · exact hpending a (Multiset.mem_coe.mp ha)
    · exact hgrid a ha

/-! ## The book after every run -/

/-- Fills take orders out of the book, and leave it uncrossed. -/
theorem Fill.uncrossed {s t : ContractEngine Q} {o a : CompactOrderLog} (h : Fill s o t a)
    (hs : Uncrossed s) : Uncrossed t := by
  have hprice : ∀ d, ∀ x ∈ t.book d, ∃ y ∈ s.book d, y.price = x.price :=
    h.forall_book (P := fun d x => ∃ y ∈ s.book d, y.price = x.price)
      (fun _ _ _ hx _ => hx) fun d x hx => ⟨x, hx, rfl⟩
  intro x hx y hy
  obtain ⟨x', hx', hpx⟩ := hprice _ x hx
  obtain ⟨y', hy', hpy⟩ := hprice _ y hy
  rw [← hpx, ← hpy]
  exact hs x' hx' y' hy'

theorem fillInvariant_uncrossed :
    FillInvariant fun (s : ContractEngine Q) _ => Uncrossed s where
  fill _ _ _ _ hs h := h.uncrossed hs
  same s o t hs h := by
    unfold Uncrossed
    rw [h.book, h.book]
    exact hs

theorem order_settles : Settles (fun s : ContractEngine Q => Sound s ∧ Tidy s ∧ Uncrossed s)
    (fun s => Sound s ∧ Tidy s) (fun o => 0 < o.volume ∧ OnGrid o.price)
    fun s o => Sound.With s o ∧ (Tidy s ∧ OnGrid o.price) ∧ Uncrossed s where
  alpha s alpha hs := ⟨hs.1.insertAlpha alpha, hs.2.1.insertAlpha alpha, by
    rw [insertAlpha_eq]
    exact hs.2.2⟩
  enter _ _ hs ho := ⟨hs.1.enterTwap ho, hs.2.1.enterTwap hs.1.valid ho⟩
  insert _ o _ hs hok _ hp :=
    ⟨hs.1.insertOrder hok.1 rfl, hs.2.1.insertOrder _ (hs.2.1.onGrid_accepted hok.2 hp)⟩
  refuse _ hs := ⟨hs.1, hs.2.1⟩
  cross _ _ _ _ hs h := ⟨hs.1.cross h, hs.2.cross h⟩
  settle _ hs hdone := ⟨hs.1, hs.2, hs.2.uncrossed hdone⟩
  arrive _ _ hs hok _ htype := ⟨hs.1.arrive hok.1 htype, ⟨hs.2.1.log _, hok.2⟩, hs.2.2⟩
  fill _ _ _ _ hs h := ⟨hs.1.fill h, ⟨hs.2.1.1.fill hs.2.1.2 h, hs.2.1.2⟩, h.uncrossed hs.2.2⟩
  allOrNothing s o hs := ⟨allOrNothing_invariant sound_kept.fill hs.1,
    ⟨hs.2.1.1.allOrNothing hs.2.1.2, by
      exact allOrNothing_invariant (J := fun _ o' => OnGrid o'.price)
        ⟨fun _ _ _ _ ho _ => ho, fun _ _ _ ho _ => ho⟩ hs.2.1.2⟩,
    allOrNothing_invariant fillInvariant_uncrossed hs.2.2⟩
  finish _ o hs := ⟨hs.1.sound.log (.discard o), hs.2.1.1.log _, hs.2.2⟩

theorem tidy_new (sessionNum sessionLength : ℤ) {info : CompactPrevTradeInfo}
    (hinfo : OnGrid info.prevClosePrice) (instrument : UInt64) :
    Tidy (new sessionNum sessionLength info instrument : ContractEngine Q) ∧
      Uncrossed (new sessionNum sessionLength info instrument : ContractEngine Q) := by
  have hbook : ∀ d, ∀ o, o ∉
      (new sessionNum sessionLength info instrument : ContractEngine Q).book d := fun d o ho => by
    rw [show (new sessionNum sessionLength info instrument : ContractEngine Q).book d = 0 from
      LawfulOrderQueue.contents_new d] at ho
    exact Multiset.notMem_zero o ho
  exact ⟨⟨fun d o ho => absurd ho (hbook d o), hinfo, fun d => LawfulOrderQueue.inOrder_new d⟩,
    fun a ha => absurd ha (hbook _ a)⟩

theorem order_run (R : Direction → Type) [OrderQueue R] [LawfulOrderQueue R]
    (sessionNum sessionLength : ℤ) {info : CompactPrevTradeInfo}
    (hinfo : OnGrid info.prevClosePrice) (instrument : UInt64) {ops : List Op}
    (hok : LogsSatisfy (fun o => 0 < o.volume ∧ OnGrid o.price) ops) :
    let s := (new sessionNum sessionLength info instrument : ContractEngine R).run ops
    Sound s ∧ Tidy s ∧ Uncrossed s :=
  order_settles.run ⟨sound_new .., tidy_new sessionNum sessionLength hinfo instrument⟩ hok

/-- **The book is never left crossed**, and its heaps are in order. -/
theorem book_uncrossed_run (sessionNum sessionLength : ℤ) {info : CompactPrevTradeInfo}
    (hinfo : OnGrid info.prevClosePrice) (instrument : UInt64) {ops : List Op}
    (hok : LogsSatisfy (fun o => 0 < o.volume ∧ OnGrid o.price) ops) :
    let s := (new sessionNum sessionLength info instrument : ContractEngine OrderHeap).run ops
    (∀ d, (s.heap d).Ordered) ∧ (∀ d, ∀ o ∈ s.book d, 0 < o.volume ∧ o.direction = d) ∧
      ∀ a ∈ s.book .Sale, ∀ b ∈ s.book .Buy, b.price < a.price := by
  intro s
  obtain ⟨hsound, htidy, huncrossed⟩ :=
    order_run OrderHeap sessionNum sessionLength hinfo instrument hok
  exact ⟨htidy.inOrder, fun d o ho => ⟨(hsound.resting d o ho).volume_pos,
    (hsound.resting d o ho).direction⟩, huncrossed⟩

/-- A sale, a buy that crosses a part of it, and a buy that rests below what is left. -/
theorem book_uncrossed_of_partial_fill :
    let s := (new 3 1 ⟨10, 0⟩ 1 : ContractEngine OrderHeap).run
      [.insertOrderLog ⟨0, 3, 1 / 100, 0, 0⟩, .insertOrderLog ⟨1, 2, 0, 8, 0⟩,
        .insertOrderLog ⟨2, 1, -1 / 100, 8, 0⟩]
    (∀ d, (s.heap d).Ordered) ∧ ∀ a ∈ s.book .Sale, ∀ b ∈ s.book .Buy, b.price < a.price := by
  have hinfo : OnGrid (⟨10, 0⟩ : CompactPrevTradeInfo).prevClosePrice := by decide +kernel
  have hok : LogsSatisfy (fun o => 0 < o.volume ∧ OnGrid o.price)
      [.insertOrderLog ⟨0, 3, 1 / 100, 0, 0⟩, .insertOrderLog ⟨1, 2, 0, 8, 0⟩,
        .insertOrderLog ⟨2, 1, -1 / 100, 8, 0⟩] := by decide +kernel
  exact ⟨(book_uncrossed_run 3 1 hinfo 1 hok).1, (book_uncrossed_run 3 1 hinfo 1 hok).2.2⟩

end MatchingEngine.ContractEngine
