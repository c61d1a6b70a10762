import Mathlib
import MatchingEngine.Contract.Order
import MatchingEngine.Contract.Deals

/-!
# The fill law of orders that enter the book

`processTrade` matches the two tops and knows of no incoming order.  When an order enters an
uncrossed book it is the only one of its side that meets the other side, so the loop is a
sweep of the other side by that order: down to its price, and up to its volume.

## Main definitions

* `Crosses` — a price of the other side that meets an order.
* `Taking` — the loop on its way: the rest of its side meets nobody.
* `Enters` — an order log or a TWAP order enters the book.
* `processTrade_takes`, `fill_law` — what the order trades and what it leaves.
-/

namespace MatchingEngine

/-- A price `p'` of the other side meets an order of side `d` at price `p`. -/
def Crosses (d : Direction) (p p' : ℚ) : Prop :=
  match d with
  | .Sale => p ≤ p'
  | .Buy => p' ≤ p

instance (d : Direction) (p p' : ℚ) : Decidable (Crosses d p p') := by
  cases d <;> exact inferInstanceAs (Decidable (_ ≤ _))

theorem crosses_iff {d : Direction} {p p' : ℚ} :
    Crosses d p p' ↔ d.opposite.signedPrice p' ≤ d.opposite.signedPrice p := by
  cases d with
  | Sale => exact neg_le_neg_iff.symm
  | Buy => exact Iff.rfl

/-- What the one side ranks better the other ranks worse. -/
theorem Direction.signedPrice_opposite (d : Direction) (p : ℚ) :
    d.opposite.signedPrice p = -d.signedPrice p := by
  cases d with
  | Sale => rfl
  | Buy => exact (neg_neg p).symm

/-- The volume among `m` that an order of side `d` at price `p` meets. -/
def crossingVolume (d : Direction) (p : ℚ) (m : Multiset CompactOrderLog) : ℤ :=
  totalVolume (m.filter fun a => Crosses d p a.price)

theorem crossingVolume_nonneg {d : Direction} {p : ℚ} {m : Multiset CompactOrderLog}
    (hm : ∀ a ∈ m, 0 < a.volume) : 0 ≤ crossingVolume d p m :=
  Supply.total_nonneg (S := d.supply) fun a ha => (hm a (Multiset.mem_of_mem_filter ha)).le

namespace ContractEngine
variable {Q : Direction → Type} [OrderQueue Q] [LawfulOrderQueue Q]

/-! ## A trade of the tops, from either side -/

section Cross
variable {s t : ContractEngine Q} {a b : CompactOrderLog} (h : Cross s t a b) (d : Direction)
include h

theorem Cross.isEmpty_eq : OrderQueue.isEmpty (s.heap d) = false := by
  cases d with
  | Sale => exact h.isEmpty_sale
  | Buy => exact h.isEmpty_buy

theorem Cross.top_eq : OrderQueue.top (s.heap d) = d.pick a b := by
  cases d with
  | Sale => exact h.top_sale
  | Buy => exact h.top_buy

theorem Cross.book_eq : t.book d = residue (d.pick a b) (tradeVolume a b) + s.rest d := by
  cases d with
  | Sale => exact h.book_sale
  | Buy => exact h.book_buy

theorem Cross.book_before : s.book d = d.pick a b ::ₘ s.rest d := by
  rw [← h.top_eq]
  exact book_eq_top_cons (h.isEmpty_eq d)

/-- The tops that trade meet. -/
theorem Cross.crosses (hs : Tidy s) : Crosses d (d.pick a b).price (d.opposite.pick a b).price := by
  have ha := hs.onGrid_top h.isEmpty_sale
  have hb := hs.onGrid_top h.isEmpty_buy
  rw [h.top_sale] at ha
  rw [h.top_buy] at hb
  have hle : a.price ≤ b.price := not_lt.mp fun hlt => h.crossing ((priceGt_iff ha hb).mpr hlt)
  cases d <;> exact hle

end Cross

theorem tradeVolume_eq_pick (d : Direction) (a b : CompactOrderLog) :
    tradeVolume a b = min (d.pick a b).volume (d.opposite.pick a b).volume := by
  cases d with
  | Sale => rfl
  | Buy => exact min_comm _ _

theorem tradePrice_eq_pick (d : Direction) (a b : CompactOrderLog) :
    tradePrice a b = (d.opposite.pick a b).price ∨ tradePrice a b = (d.pick a b).price := by
  cases d with
  | Sale => exact (tradePrice_eq_or a b).symm
  | Buy => exact tradePrice_eq_or a b

theorem residue_reduce (o : CompactOrderLog) (v w : ℤ) :
    residue (o.reduce v) w = residue o (v + w) := by
  unfold residue
  rw [CompactOrderLog.reduce_reduce, CompactOrderLog.volume_reduce]
  exact if_congr (by omega) rfl rfl

theorem Uncrossed.not_crosses {s : ContractEngine Q} (hs : Uncrossed s) {d : Direction}
    {x a : CompactOrderLog} (hx : x ∈ s.book d) (ha : a ∈ s.book d.opposite) :
    ¬ Crosses d x.price a.price := by
  cases d with
  | Sale => exact (hs x hx a ha).not_ge
  | Buy => exact (hs a ha x hx).not_ge

/-! ## The loop on its way -/

/-- The order `x` of side `d` is trading: the others of its side, `B`, meet nobody. -/
structure Taking (d : Direction) (B : Multiset CompactOrderLog) (x : CompactOrderLog)
    (u : ContractEngine Q) : Prop where
  tidy : Tidy u
  volume_pos : ∀ a ∈ u.book d.opposite, 0 < a.volume
  volume_nonneg : 0 ≤ x.volume
  book_own : u.book d = residue x 0 + B
  apart : ∀ b ∈ B, ∀ a ∈ u.book d.opposite, ¬ Crosses d b.price a.price

section Taking
variable {d : Direction} {B : Multiset CompactOrderLog} {x a b : CompactOrderLog}
  {u t : ContractEngine Q} (hu : Taking d B x u)
include hu

/-- The order that trades is `x`. -/
theorem Taking.own_top (h : Cross u t a b) :
    d.pick a b = x ∧ u.rest d = B ∧ 0 < x.volume := by
  have hcrosses := h.crosses d hu.tidy
  have hopp : d.opposite.pick a b ∈ u.book d.opposite := by
    rw [h.book_before]
    exact Multiset.mem_cons_self _ _
  have hbook : d.pick a b ::ₘ u.rest d = residue x 0 + B := (h.book_before d).symm.trans hu.book_own
  have hmem : d.pick a b ∈ residue x 0 + B := hbook ▸ Multiset.mem_cons_self _ _
  rcases Multiset.mem_add.mp hmem with hx | hB
  · obtain ⟨hne, hx⟩ := mem_residue.mp hx
    rw [CompactOrderLog.reduce_zero] at hx
    rw [residue, if_neg hne, hx, CompactOrderLog.reduce_zero, Multiset.singleton_add] at hbook
    exact ⟨hx, (Multiset.cons_inj_right _).mp hbook, lt_of_le_of_ne hu.volume_nonneg (Ne.symm hne)⟩
  · exact absurd hcrosses (hu.apart _ hB _ hopp)

theorem Taking.cross (h : Cross u t a b) : Taking d B (x.reduce (tradeVolume a b)) t := by
  obtain ⟨hx, hrest, -⟩ := hu.own_top h
  have hmin := tradeVolume_eq_pick d a b
  rw [hx] at hmin
  have hbook := h.book_eq d
  rw [hx, hrest] at hbook
  refine ⟨hu.tidy.cross h, ?_, ?_, ?_, fun y hy => ?_⟩
  · have hpos := h.forall_book (P := fun e y => e = d.opposite → 0 < y.volume)
      (fun e y v _ hv _ => by rw [CompactOrderLog.volume_reduce]; omega)
      (fun e y hy he => by subst he; exact hu.volume_pos y hy) d.opposite
    exact fun y hy => hpos y hy rfl
  · rw [CompactOrderLog.volume_reduce]
    omega
  · rw [hbook, residue_reduce, add_zero]
  · have hapart := h.forall_book (P := fun e z => e = d.opposite → ¬ Crosses d y.price z.price)
      (fun _ _ _ hz _ => hz)
      (fun e z hz he => by subst he; exact hu.apart y hy z hz) d.opposite
    exact fun z hz => hapart z hz rfl

/-- Where the loop stops the order is filled, or it meets nobody any more. -/
theorem Taking.stop (h : processTradeStep u = none) :
    min x.volume (crossingVolume d x.price (u.book d.opposite)) = 0 := by
  by_cases hvol : x.volume = 0
  · rw [hvol, min_eq_left (crossingVolume_nonneg hu.volume_pos)]
  · have hx : x ∈ u.book d := by
      rw [hu.book_own, residue, if_neg hvol, CompactOrderLog.reduce_zero]
      exact Multiset.mem_add.mpr (.inl (Multiset.mem_singleton_self x))
    have hnone : (u.book d.opposite).filter (fun a => Crosses d x.price a.price) = 0 :=
      Multiset.filter_eq_nil.mpr fun a ha => (hu.tidy.uncrossed h).not_crosses hx ha
    have hzero : crossingVolume d x.price (u.book d.opposite) = 0 := by
      rw [crossingVolume, hnone]
      rfl
    rw [hzero, min_eq_right hu.volume_nonneg]

end Taking

/-- From `u` to `e` the order `x` makes the deals `l`, which its own side sees as `l'`. -/
structure Took (d : Direction) (B : Multiset CompactOrderLog) (x : CompactOrderLog)
    (u e : ContractEngine Q) (l l' : List Deal) : Prop where
  deals : deals d.opposite e.history = deals d.opposite u.history ++ l
  own_deals : MatchingEngine.deals d e.history = MatchingEngine.deals d u.history ++ l'
  volume : dealtVolume l = min x.volume (crossingVolume d x.price (u.book d.opposite))
  sweeps : d.opposite.supply.Sweeps (u.book d.opposite) (l.map Deal.taken) (e.book d.opposite)
  own : ∀ y ∈ l', ∃ v, y.order = x.reduce v
  prices : ∀ y ∈ l, Crosses d x.price y.order.price ∧
    (y.price = y.order.price ∨ y.price = x.price)
  book_own : e.book d = residue x (dealtVolume l) + B

section Took
variable {d : Direction} {B : Multiset CompactOrderLog} {x a b : CompactOrderLog}
  {u t e : ContractEngine Q} (hu : Taking d B x u)
include hu

theorem Taking.took_stop (h : processTradeStep u = none) : Took d B x u u [] [] := by
  refine ⟨(List.append_nil _).symm, (List.append_nil _).symm, (hu.stop h).symm, .stop _, ?_, ?_,
    hu.book_own⟩
  · exact fun y hy => absurd hy List.not_mem_nil
  · exact fun y hy => absurd hy List.not_mem_nil

omit hu in
theorem Took.sweepsUpTo {l l' : List Deal} (h : Took d B x u e l l') :
    d.opposite.supply.SweepsUpTo (fun y => Crosses d x.price y.price) (u.book d.opposite) x.volume
      (l.map Deal.taken) (e.book d.opposite) where
  sweeps := h.sweeps
  volume := (dealtVolume_eq_taken l).symm.trans h.volume
  taken p hp := by
    obtain ⟨y, hy, rfl⟩ := List.mem_map.mp hp
    exact (h.prices y hy).1

/-- A trade of the tops goes before the sweep that follows it. -/
theorem Taking.took_cross (h : Cross u t a b) {l l' : List Deal}
    (ht : Took d B (x.reduce (tradeVolume a b)) t e l l') :
    Took d B x u e (⟨d.opposite.pick a b, tradePrice a b, tradeVolume a b⟩ :: l)
      (⟨x, tradePrice a b, tradeVolume a b⟩ :: l') := by
  obtain ⟨hx, -, hpos⟩ := hu.own_top h
  have hcrosses := h.crosses d hu.tidy
  have hmin := tradeVolume_eq_pick d a b
  have hprice := tradePrice_eq_pick d a b
  have hown := h.deals d
  have hbook := h.book_before d.opposite
  have htop := h.top_eq d.opposite
  rw [hx] at hcrosses hmin hprice hown
  set c := d.opposite.pick a b
  have hrest : ∀ y ∈ u.rest d.opposite, y ∈ u.book d.opposite := fun y hy => by
    rw [hbook]
    exact Multiset.mem_cons_of_mem hy
  have hbest : ∀ y ∈ u.rest d.opposite, rank d.opposite c ≤ rank d.opposite y := fun y hy => by
    rw [← htop]
    exact hu.tidy.rank_top_le (hrest y hy)
  have hsweep := ht.sweepsUpTo
  rw [h.book_eq, CompactOrderLog.volume_reduce, hmin] at hsweep
  have hsweep' := hsweep.head (P := fun y => Crosses d x.price y.price) hbest hpos hcrosses
    (fun _ _ => Iff.rfl) (fun y hy => hu.volume_pos y (by rwa [hbook]))
  refine ⟨?_, ?_, ?_, ?_, ?_, ?_, ?_⟩
  · rw [ht.deals, h.deals d.opposite, List.append_assoc]
    rfl
  · rw [ht.own_deals, hown, List.append_assoc]
    rfl
  · rw [dealtVolume_eq_taken, hmin, hbook]
    exact hsweep'.volume
  · rw [hbook, List.map_cons, Deal.taken, hmin]
    exact hsweep'.sweeps
  · intro y hy
    rcases List.mem_cons.mp hy with rfl | hy
    · exact ⟨0, (CompactOrderLog.reduce_zero x).symm⟩
    · obtain ⟨v, hv⟩ := ht.own y hy
      exact ⟨_, hv.trans (CompactOrderLog.reduce_reduce x _ v)⟩
  · intro y hy
    rcases List.mem_cons.mp hy with rfl | hy
    · exact ⟨hcrosses, hprice⟩
    · exact ht.prices y hy
  · rw [ht.book_own, residue_reduce, dealtVolume_cons]

/-- **The matching loop is a sweep by the order that entered.** -/
theorem Taking.took : ∃ l l', Took d B x u u.processTrade l l' := by
  have hd : Loop.Decreases (fun _ => True) (processTradeStep (Q := Q) (A := .exact)) _ :=
    processTradeStep_decreases
  refine Loop.exec_induction hd (fun u e => ∀ x, Taking d B x u → ∃ l l', Took d B x u e l l')
    ?_ ?_ trivial x hu
  · intro u _ hstop x hu
    exact ⟨[], [], hu.took_stop hstop⟩
  · intro u t _ hstep ih x hu
    have hcross := processTradeStep_cross hstep
    obtain ⟨l, l', ht⟩ := ih _ (hu.cross hcross)
    exact ⟨_, _, hu.took_cross hcross ht⟩

end Took

/-! ## The orders that enter -/

/-- The order `x` enters side `d` of the book of `s`, which gives `u`: an order log on the grid
that is accepted at the price of `x`, or the TWAP order at the head. -/
inductive Enters (s : ContractEngine Q) :
    Direction → CompactOrderLog → ContractEngine Q → Prop
  | orderLog (o : CompactOrderLog) (p : ℚ) (hvol : 0 < o.volume) (hgrid : OnGrid o.price)
      (hp : Accepted s o p) : Enters s o.direction { o with price := p } (s.insertBookOrder o)
  | twap (o : CompactOrderLog) (d : Direction) (ho : s.twapOrders[s.twapHead]? = some o)
      (hd : o.twapDirection = some d) (hvol : o.volume ≠ 0) :
      Enters s d (s.priced o) (s.enterTwap o)

omit [LawfulOrderQueue Q] in
/-- An order that is accepted enters at the price it is accepted at. -/
theorem Accepted.insertBookOrder_eq {s : ContractEngine Q} {o : CompactOrderLog} {p : ℚ}
    (h : Accepted s o p) :
    s.insertBookOrder o = s.insertOrder o.direction { o with price := p } := by
  cases h with
  | priceLimit htype hdown hup =>
    rw [insertBookOrder, if_pos htype]
    exact if_neg (not_or.mpr ⟨hdown, hup⟩)
  | bestPrice d htype hne =>
    rcases htype with ⟨htype, rfl⟩ | ⟨htype, rfl⟩
    · simp [insertBookOrder, insertBestPrice, htype, hne, ContractType.code]
    · simp [insertBookOrder, insertBestPrice, htype, hne, ContractType.code]

/-- What entering does to a state: the order is named and rests, and nothing else changes. -/
structure Entered (s : ContractEngine Q) (d : Direction) (x : CompactOrderLog)
    (u : ContractEngine Q) : Prop where
  volume_pos : 0 < x.volume
  tidy : Tidy u
  book_own : u.book d = s.named x ::ₘ s.book d
  book_opposite : u.book d.opposite = s.book d.opposite
  history : u.history = s.history ++ [.insert d (s.named x)]

theorem Enters.entered {s u : ContractEngine Q} {d : Direction} {x : CompactOrderLog}
    (h : Enters s d x u) (hs : Sound s) (ht : Tidy s) : Entered s d x u := by
  cases h with
  | orderLog o p hvol hgrid hp =>
    rw [hp.insertBookOrder_eq]
    exact ⟨hvol, ht.insertOrder _ (ht.onGrid_accepted hgrid hp), book_insertOrder_self _ _ _,
      book_insertOrder_of_ne _ _ (Direction.opposite_ne _) _, history_insertOrder _ _ _⟩
  | twap o _ ho hd hvol =>
    have htidy := ht.enterTwap hs.valid ho
    have hnonneg := (hs.valid.planned_head ho).volume_nonneg
    obtain ⟨d', hd', henter⟩ := enterTwap_eq hs.valid ho
    obtain rfl : d = d' := Option.some.inj (hd.symm.trans hd')
    rw [if_pos hvol] at henter
    rw [henter] at htidy ⊢
    exact ⟨lt_of_le_of_ne hnonneg (Ne.symm hvol), htidy, book_insertOrder_self _ _ _,
      book_insertOrder_of_ne _ _ (Direction.opposite_ne _) _, history_insertOrder _ _ _⟩

theorem Entered.taking {s u : ContractEngine Q} {d : Direction} {x : CompactOrderLog}
    (h : Entered s d x u) (hs : Sound s) (hun : Uncrossed s) :
    Taking d (s.book d) (s.named x) u := by
  refine ⟨h.tidy, fun a ha => ?_, h.volume_pos.le, ?_, fun b hb a ha => ?_⟩
  · rw [h.book_opposite] at ha
    exact (hs.resting _ a ha).volume_pos
  · have hne : (s.named x).volume ≠ 0 := h.volume_pos.ne'
    rw [h.book_own, residue, if_neg hne, CompactOrderLog.reduce_zero, Multiset.singleton_add]
  · rw [h.book_opposite] at ha
    exact hun.not_crosses hb ha

/-- What the order `x` of side `d` trades, and what it leaves, between `s` and `t`. -/
structure Fills (s : ContractEngine Q) (d : Direction) (x : CompactOrderLog)
    (t : ContractEngine Q) (l l' : List Deal) : Prop where
  deals : deals d.opposite t.history = deals d.opposite s.history ++ l
  own_deals : MatchingEngine.deals d t.history = MatchingEngine.deals d s.history ++ l'
  own : ∀ y ∈ l', ∃ v, y.order = (s.named x).reduce v
  volume : dealtVolume l = min x.volume (crossingVolume d x.price (s.book d.opposite))
  sweeps : d.opposite.supply.Sweeps (s.book d.opposite) (l.map Deal.taken) (t.book d.opposite)
  prices : ∀ y ∈ l, Crosses d x.price y.price
  book_own : t.book d = residue (s.named x)
    (min x.volume (crossingVolume d x.price (s.book d.opposite))) + s.book d
  best : 0 < crossingVolume d x.price (s.book d.opposite) →
    crossingVolume d x.price (s.book d.opposite) < x.volume →
    OrderQueue.top (t.heap d) =
        (s.named x).reduce (crossingVolume d x.price (s.book d.opposite)) ∧
      ∀ b ∈ s.book d, d.signedPrice x.price < d.signedPrice b.price
  at_best : x.type = ContractType.OppositeBestPrice.code ∨ x.IsOwn →
    OrderQueue.isEmpty (s.heap d.opposite) = false →
    ∀ y ∈ l, y.order.price = (OrderQueue.top (s.heap d.opposite)).price ∧
      y.price = (OrderQueue.top (s.heap d.opposite)).price

omit [LawfulOrderQueue Q] in
/-- `OppositeBestPrice` orders and TWAP orders enter at the best price of the other side. -/
theorem Enters.price_eq {s u : ContractEngine Q} {d : Direction} {x : CompactOrderLog}
    (h : Enters s d x u) (htype : x.type = ContractType.OppositeBestPrice.code ∨ x.IsOwn)
    (hne : OrderQueue.isEmpty (s.heap d.opposite) = false) :
    x.price = (OrderQueue.top (s.heap d.opposite)).price := by
  cases h with
  | orderLog o p hvol hgrid hp =>
    have ho : o.type = 1 ∨ o.type = 6 := htype
    cases hp with
    | priceLimit htype' =>
      have : o.type = 0 := htype'
      omega
    | bestPrice e htype' =>
      rcases htype' with ⟨-, rfl⟩ | ⟨htype', -⟩
      · rfl
      · have : o.type = 2 := htype'
        omega
  | twap o _ ho hd hvol => simp [priced, hd, getCurrentBasePrice, hne]

/-- What is left of an order that used up all it meets is the best order of its side. -/
theorem Uncrossed.remainder_best {s t : ContractEngine Q} {d : Direction} {x : CompactOrderLog}
    (hun : Uncrossed s) (ht : Tidy t) {v : ℤ} (hlt : v < x.volume)
    (hbook : t.book d = residue (s.named x) v + s.book d)
    (hpos : 0 < crossingVolume d x.price (s.book d.opposite)) :
    OrderQueue.top (t.heap d) = (s.named x).reduce v ∧
      ∀ b ∈ s.book d, d.signedPrice x.price < d.signedPrice b.price := by
  have hworse : ∀ b ∈ s.book d, d.signedPrice x.price < d.signedPrice b.price := by
    -- Some order of the other side meets `x`, and none meets `b`.
    obtain ⟨a, ha⟩ := Multiset.exists_mem_of_ne_zero
      (s := (s.book d.opposite).filter fun a => Crosses d x.price a.price) fun hnone => by
        rw [crossingVolume, hnone] at hpos
        exact lt_irrefl 0 hpos
    obtain ⟨ha, hcross⟩ := Multiset.mem_filter.mp ha
    intro b hb
    have hapart := hun.not_crosses hb ha
    rw [crosses_iff, Direction.signedPrice_opposite, Direction.signedPrice_opposite] at hcross hapart
    linarith
  refine ⟨?_, hworse⟩
  have hne : (s.named x).volume ≠ v := hlt.ne'
  have hrest : (s.named x).reduce v ∈ t.book d := by
    rw [hbook, residue, if_neg hne]
    exact Multiset.mem_add.mpr (.inl (Multiset.mem_singleton_self _))
  have he : OrderQueue.isEmpty (t.heap d) = false :=
    (isEmpty_eq_false_iff t d).mpr fun h => Multiset.notMem_zero _ (h ▸ hrest)
  have htop := mem_book_top he
  rw [hbook] at htop
  rcases Multiset.mem_add.mp htop with htop | htop
  · exact (mem_residue.mp htop).2
  · have hle := signedPrice_le_of_rank_le (ht.rank_top_le hrest)
    exact absurd hle (hworse _ htop).not_ge

/-- **The fill law of an order that enters** an uncrossed book. -/
theorem Enters.fills {s u : ContractEngine Q} {d : Direction} {x : CompactOrderLog}
    (h : Enters s d x u) (hs : Sound s) (ht : Tidy s) (hun : Uncrossed s) :
    ∃ l l', Fills s d x u.processTrade l l' := by
  have hu := h.entered hs ht
  obtain ⟨l, l', htook⟩ := (hu.taking hs hun).took
  have hvolume : dealtVolume l =
      min x.volume (crossingVolume d x.price (s.book d.opposite)) := by
    rw [← hu.book_opposite]
    exact htook.volume
  have hbook := htook.book_own
  rw [hvolume] at hbook
  have hsweeps := htook.sweeps
  rw [hu.book_opposite] at hsweeps
  have hdeals : ∀ e, deals e u.history = deals e s.history := fun e => by
    rw [hu.history, deals_append]
    exact List.append_nil _
  have hprices : ∀ y ∈ l, Crosses d x.price y.order.price ∧
      (y.price = y.order.price ∨ y.price = x.price) := htook.prices
  have hself : Crosses d x.price x.price := crosses_iff.mpr le_rfl
  refine ⟨l, l', ?_, ?_, htook.own, hvolume, hsweeps, fun y hy => ?_, hbook, ?_, ?_⟩
  · rw [htook.deals, hdeals]
  · rw [htook.own_deals, hdeals]
  · obtain ⟨hcross, hprice | hprice⟩ := hprices y hy <;> rw [hprice]
    · exact hcross
    · exact hself
  · intro hpos hlt
    have hmin := min_eq_right hlt.le
    rw [hmin] at hbook
    have htidy : Tidy u.processTrade :=
      processTrade_invariant Tidy (fun _ _ _ _ ht h => ht.cross h) hu.tidy
    exact hun.remainder_best htidy hlt hbook hpos
  · intro htype hne y hy
    have hx := h.price_eq htype hne
    obtain ⟨hcross, hprice⟩ := hprices y hy
    have hbest := ht.rank_top_le (hsweeps.mem _ (List.mem_map_of_mem hy))
    have horder : y.order.price = (OrderQueue.top (s.heap d.opposite)).price := by
      rw [crosses_iff, hx] at hcross
      exact d.opposite.signedPrice_injective
        (le_antisymm hcross (signedPrice_le_of_rank_le hbest))
    refine ⟨horder, ?_⟩
    rcases hprice with hprice | hprice
    · rw [hprice, horder]
    · rw [hprice, hx]

/-! ## Runs -/

/-- A release stopped after any number of entries keeps the invariants of the runs. -/
theorem order_release (currentTime : ℤ) (n : ℕ) {s : ContractEngine Q}
    (hs : Sound s ∧ Tidy s ∧ Uncrossed s) :
    let t := Loop.run (twapStep currentTime) n s
    Sound t ∧ Tidy t ∧ Uncrossed t := by
  refine Loop.run_invariant (fun t => Sound t ∧ Tidy t ∧ Uncrossed t) (fun t u ht hstep => ?_) n s hs
  obtain ⟨o, ho, -, rfl⟩ := twapStep_eq_some hstep
  exact order_settles.processTrade (order_settles.enter t o ht ho)

/-- **The fill law.**  In every run, wherever an order log or a released TWAP order enters the
book, it trades the smaller of its volume and the volume that it meets, with the other side in
order of rank and never at a price worse than its own, and the rest of it rests. -/
theorem fill_law (sessionNum sessionLength : ℤ) {info : CompactPrevTradeInfo}
    (hinfo : OnGrid info.prevClosePrice) (instrument : UInt64) {ops : List Op}
    (hok : LogsSatisfy (fun o => 0 < o.volume ∧ OnGrid o.price) ops) (currentTime : ℤ) (n : ℕ) :
    let s := Loop.run (twapStep currentTime) n
      ((new sessionNum sessionLength info instrument : ContractEngine OrderHeap).run ops)
    ∀ d x u, Enters s d x u → ∃ l l', Fills s d x u.processTrade l l' := by
  intro s d x u h
  obtain ⟨hsound, htidy, hun⟩ := order_release currentTime n
    (order_run OrderHeap sessionNum sessionLength hinfo instrument hok)
  exact h.fills hsound htidy hun

/-- An `OppositeBestPrice` buy of five lots meets three at 10.00 and rests with two. -/
theorem fill_of_oppositeBestPrice :
    let s := Loop.run (twapStep 2) 0 ((new 3 1 ⟨10, 0⟩ 1 : ContractEngine OrderHeap).run
      [.insertOrderLog ⟨0, 2, 1 / 100, 0, 0⟩, .insertOrderLog ⟨1, 3, -1 / 100, 0, 0⟩])
    let x : CompactOrderLog := ⟨2, 5, (OrderQueue.top (s.heap .Sale)).price, 9, 0⟩
    ∃ l l', Fills s .Buy x (s.insertBookOrder ⟨2, 5, 0, 9, 0⟩).processTrade l l' ∧
      dealtVolume l = 3 := by
  intro s x
  have hinfo : OnGrid (⟨10, 0⟩ : CompactPrevTradeInfo).prevClosePrice := by decide +kernel
  have hok : LogsSatisfy (fun o => 0 < o.volume ∧ OnGrid o.price)
      [.insertOrderLog ⟨0, 2, 1 / 100, 0, 0⟩, .insertOrderLog ⟨1, 3, -1 / 100, 0, 0⟩] := by
    decide +kernel
  have hne : OrderQueue.isEmpty (s.heap .Sale) = false := by decide +kernel
  have henter : Enters s .Buy x (s.insertBookOrder ⟨2, 5, 0, 9, 0⟩) :=
    .orderLog ⟨2, 5, 0, 9, 0⟩ _ (by decide) (by decide +kernel)
      (.bestPrice .Sale (.inl ⟨by decide, by decide⟩) hne)
  obtain ⟨l, l', hfills⟩ := fill_law 3 1 hinfo 1 hok 2 0 .Buy x _ henter
  have hthree : min x.volume (crossingVolume .Buy x.price (s.book .Sale)) = 3 := by
    decide +kernel
  exact ⟨l, l', hfills, hfills.volume.trans hthree⟩

end ContractEngine
end MatchingEngine
