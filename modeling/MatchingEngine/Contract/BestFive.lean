import Mathlib
import MatchingEngine.Contract.Order
import MatchingEngine.Contract.Deals

/-!
# Best five prices

`BestFivePriceNoLeft` counts price levels lazily: a top of another price than the last one is
a new level, and the sixth one ends the loop.  `Counting` is the invariant of the loop, and
`Reached` says which resting orders its count still lets it reach.  The loop is a sweep of the
opposite side that takes the volume of the orders it reaches, and from the start these are
the orders at the five best prices.

## Main definitions

* `InTopFive` — the orders at the five best prices of a side.
* `Counting`, `Reached` — the loop on its way.
* `bestFivePrice_sweeps` — the whole loop.
* `bestFive_fills` — the orders after every run.
-/

namespace MatchingEngine

/-- The price of an order as side `d` ranks it. -/
def Direction.level (d : Direction) (o : CompactOrderLog) : ℚ := d.signedPrice o.price

/-- Fewer than five prices of the side `d` of the book are better than that of `a`. -/
def InTopFive (d : Direction) (m : Multiset CompactOrderLog) (a : CompactOrderLog) : Prop :=
  Supply.better d.level m a < 5

instance (d : Direction) (m : Multiset CompactOrderLog) : DecidablePred (InTopFive d m) :=
  fun _ => inferInstanceAs (Decidable (_ < _))

namespace ContractEngine
variable {Q : Direction → Type} [OrderQueue Q] [LawfulOrderQueue Q]

/-- The side of the book that the order of the loop trades with. -/
abbrev FiveLevels.opposite (p : FiveLevels Q) : Direction := p.order.direction.opposite

/-- The resting orders opposite to the order of the loop. -/
abbrev FiveLevels.orders (p : FiveLevels Q) : Multiset CompactOrderLog := p.engine.book p.opposite

/-- The count lets the loop reach the resting order `a`. -/
def Reached (p : FiveLevels Q) (a : CompactOrderLog) : Prop :=
  p.levelNum + Supply.levelsUpTo p.opposite.level p.orders
    (p.opposite.signedPrice p.lastPriceLevel) a ≤ 5

instance (p : FiveLevels Q) : DecidablePred (Reached p) :=
  fun _ => inferInstanceAs (Decidable (_ ≤ _))

/-- The invariant of the loop: at most five levels are counted, and if the last one still
rests it is the best. -/
structure Counting (p : FiveLevels Q) : Prop where
  grid : ∀ d, ∀ a ∈ p.engine.book d, OnGrid a.price
  inOrder : ∀ d, LawfulOrderQueue.InOrder (p.engine.heap d)
  volume_pos : ∀ a ∈ p.orders, 0 < a.volume
  volume_nonneg : 0 ≤ p.order.volume
  onGrid_level : OnGrid p.lastPriceLevel
  levelNum_le : p.levelNum ≤ 5
  last_best : ∀ a ∈ p.orders, a.price = p.lastPriceLevel →
    ∀ x ∈ p.orders, p.opposite.level a ≤ p.opposite.level x

/-- Resting orders of one level do not count once that level is left out. -/
theorem levelsUpTo_residue (d : Direction) (a : CompactOrderLog) (v : ℤ)
    (m : Multiset CompactOrderLog) (x : CompactOrderLog) :
    Supply.levelsUpTo d.level (residue a v + m) (d.level a) x =
      Supply.levelsUpTo d.level m (d.level a) x := by
  unfold residue
  split
  · rw [zero_add]
  · rw [Multiset.singleton_add]
    have hlevel : d.level (a.reduce v) = d.level a := rfl
    rw [← hlevel]
    exact Supply.levelsUpTo_cons_self (a.reduce v) m x

/-- What one pass does, `a` being the top that it trades with. -/
structure Pass (p q : FiveLevels Q) (a : CompactOrderLog) : Prop where
  fill : Fill p.engine p.order q.engine a
  order : q.order = p.order.reduce (tradeVolumeWith p.order a)
  level : q.lastPriceLevel = a.price
  count : a.price = p.lastPriceLevel ∧ q.levelNum = p.levelNum ∨
    a.price ≠ p.lastPriceLevel ∧ q.levelNum = p.levelNum + 1 ∧ p.levelNum + 1 ≤ 5

section Counting
variable {p q : FiveLevels Q} {a : CompactOrderLog} (hp : Counting p)
include hp

theorem Counting.rank_top_le (he : OrderQueue.isEmpty (p.engine.heap p.opposite) = false) :
    ∀ x ∈ p.orders, rank p.opposite (OrderQueue.top (p.engine.heap p.opposite)) ≤
      rank p.opposite x :=
  LawfulOrderQueue.top_min _ (hp.inOrder _) (hp.grid _) he

theorem Counting.pass (h : bestFiveStep p = some q) :
    Pass p q (OrderQueue.top (p.engine.heap p.opposite)) := by
  obtain ⟨hcan, hengine, horder⟩ := bestFiveStep_eq_some h
  have hgrid := hp.grid _ _ (mem_book_top hcan.2)
  have hfill := fillTop_fill hcan
  rw [← hengine] at hfill
  have hstep := h
  simp only [bestFiveStep, if_pos hcan, priceNeq_iff hgrid hp.onGrid_level] at hstep
  split at hstep
  · next hne =>
    simp only [Option.ite_none_left_eq_some, Option.some.injEq] at hstep
    obtain ⟨hle, rfl⟩ := hstep
    exact ⟨hfill, horder, rfl, .inr ⟨hne, rfl, not_lt.mp hle⟩⟩
  · next heq =>
    simp only [Option.some.injEq] at hstep
    subst hstep
    exact ⟨hfill, horder, (not_not.mp heq).symm, .inl ⟨not_not.mp heq, rfl⟩⟩

/-- If the top is of another price than the last one, no order of that price rests. -/
theorem Counting.level_notMem (he : OrderQueue.isEmpty (p.engine.heap p.opposite) = false)
    (hne : (OrderQueue.top (p.engine.heap p.opposite)).price ≠ p.lastPriceLevel) :
    p.opposite.signedPrice p.lastPriceLevel ∉ p.orders.map p.opposite.level := by
  intro hmem
  obtain ⟨y, hy, hlevel⟩ := Multiset.mem_map.mp hmem
  have hprice : y.price = p.lastPriceLevel := p.opposite.signedPrice_injective hlevel
  have hle := hp.last_best y hy hprice _ (mem_book_top he)
  have hge := signedPrice_le_of_rank_le (hp.rank_top_le he y hy)
  exact hne ((p.opposite.signedPrice_injective (le_antisymm hge hle)).trans hprice)

end Counting

section Pass
variable {p q : FiveLevels Q} {a : CompactOrderLog} (h : Pass p q a)
include h

theorem Pass.direction : q.order.direction = p.order.direction := by
  rw [h.order, CompactOrderLog.direction_reduce]

theorem Pass.orders_eq : p.orders = a ::ₘ p.engine.rest p.opposite := by
  rw [← h.fill.top_opposite]
  exact book_eq_top_cons h.fill.isEmpty_opposite

theorem Pass.orders_eq' :
    q.orders = residue a (tradeVolumeWith p.order a) + p.engine.rest p.opposite := by
  rw [FiveLevels.orders, FiveLevels.opposite, h.direction]
  exact h.fill.book_opposite

theorem Pass.level_le (hp : Counting p) :
    ∀ x ∈ p.orders, rank p.opposite a ≤ rank p.opposite x := by
  rw [← h.fill.top_opposite]
  exact hp.rank_top_le h.fill.isEmpty_opposite

theorem Pass.counting (hp : Counting p) : Counting q := by
  have hopp : q.opposite = p.opposite := by rw [FiveLevels.opposite, h.direction]
  have hbook : q.orders = q.engine.book p.opposite := by rw [FiveLevels.orders, hopp]
  have ha : a ∈ p.orders := by rw [h.orders_eq]; exact Multiset.mem_cons_self _ _
  refine ⟨h.fill.forall_book (fun _ _ _ hx _ => hx) hp.grid, h.fill.keepsOrder hp.grid hp.inOrder,
    ?_, ?_, ?_, ?_, ?_⟩
  · have hpos := h.fill.forall_book (P := fun e x => e = p.opposite → 0 < x.volume)
      (fun e x v _ hv _ => by rw [CompactOrderLog.volume_reduce]; omega)
      (fun e x hx he => by subst he; exact hp.volume_pos x hx) p.opposite
    rw [hbook]
    exact fun x hx => hpos x hx rfl
  · have := tradeVolumeWith_eq_min p.order a
    rw [h.order, CompactOrderLog.volume_reduce]
    omega
  · rw [h.level]
    exact hp.grid _ a ha
  · have := hp.levelNum_le
    rcases h.count with ⟨-, hcount⟩ | ⟨-, hcount, hle⟩ <;> omega
  · intro y hy hlevel x hx
    have hbest := h.fill.forall_book
      (P := fun e x => e = p.opposite → p.opposite.level a ≤ p.opposite.level x)
      (fun _ _ _ hx _ => hx)
      (fun e x hx he => by
        subst he
        exact signedPrice_le_of_rank_le (h.level_le hp x hx)) p.opposite
    rw [h.level] at hlevel
    rw [hopp, Direction.level, hlevel]
    exact hbest x (hbook ▸ hx) rfl

/-- The pass reaches its top, and does not change which orders below it are reached. -/
theorem Pass.reached_iff (hp : Counting p) :
    Reached p a ∧ ∀ x ∈ p.engine.rest p.opposite, Reached p x ↔ Reached q x := by
  have hopp : q.opposite = p.opposite := by rw [FiveLevels.opposite, h.direction]
  have hbest : ∀ x ∈ p.orders, p.opposite.level a ≤ p.opposite.level x := fun x hx =>
    signedPrice_le_of_rank_le (h.level_le hp x hx)
  have hnext : ∀ x, Reached q x ↔ q.levelNum + Supply.levelsUpTo p.opposite.level
      (p.engine.rest p.opposite) (p.opposite.level a) x ≤ 5 := fun x => by
    have hlevel : p.opposite.signedPrice q.lastPriceLevel = p.opposite.level a := by
      rw [h.level, Direction.level]
    rw [Reached, hopp, hlevel, h.orders_eq', levelsUpTo_residue]
  have hnone := Supply.levelsUpTo_eq_zero hbest
  have hle := hp.levelNum_le
  rcases h.count with ⟨hprice, hcount⟩ | ⟨hne, hcount, hfive⟩
  · have hlast : p.opposite.signedPrice p.lastPriceLevel = p.opposite.level a := by
      rw [← hprice, Direction.level]
    refine ⟨?_, fun x hx => ?_⟩
    · rw [Reached, hlast, hnone]
      exact hle
    · rw [hnext, Reached, hlast, h.orders_eq, Supply.levelsUpTo_cons_self, hcount]
  · have hskip : p.opposite.signedPrice p.lastPriceLevel ∉
        (a ::ₘ p.engine.rest p.opposite).map p.opposite.level := by
      rw [← h.orders_eq]
      exact hp.level_notMem h.fill.isEmpty_opposite (by rw [h.fill.top_opposite]; exact hne)
    rw [h.orders_eq] at hbest hnone
    rw [Supply.levelsUpTo_cons_self] at hnone
    refine ⟨?_, fun x hx => ?_⟩
    · rw [Reached, h.orders_eq, Supply.levelsUpTo_cons_of_notMem hskip le_rfl, hnone]
      exact hfive
    · rw [hnext, Reached, h.orders_eq,
        Supply.levelsUpTo_cons_of_notMem hskip (hbest x (Multiset.mem_cons_of_mem hx)), hcount]
      omega

end Pass

/-- Where the loop stops its order is filled, or it reaches no order any more. -/
theorem Counting.stop {p : FiveLevels Q} (hp : Counting p) (h : bestFiveStep p = none) :
    p.order.volume = 0 ∨ p.orders.filter (Reached p) = 0 := by
  by_cases hvol : p.order.volume = 0
  · exact .inl hvol
  right
  have hpos : 0 < p.order.volume := lt_of_le_of_ne hp.volume_nonneg (Ne.symm hvol)
  cases he : OrderQueue.isEmpty (p.engine.heap p.opposite) with
  | true =>
    have hempty : p.orders = 0 := (LawfulOrderQueue.isEmpty_iff _).mp he
    rw [hempty, Multiset.filter_zero]
  | false =>
    -- The loop broke off: the top would be the sixth level.
    have hcan : p.engine.CanFill p.order := ⟨hpos, he⟩
    have hgrid := hp.grid _ _ (mem_book_top he)
    simp only [bestFiveStep, if_pos hcan, priceNeq_iff hgrid hp.onGrid_level] at h
    split at h
    · next hne =>
      simp only [ite_eq_left_iff, reduceCtorEq, imp_false, not_not] at h
      refine Multiset.filter_eq_nil.mpr fun x hx hreached => ?_
      rw [Reached, Supply.levelsUpTo_eq_better hx (hp.level_notMem he hne)] at hreached
      omega
    · cases h

/-! ## The whole loop -/

/-- The volume that the loop can still reach. -/
def reachable (p : FiveLevels Q) : ℤ := totalVolume (p.orders.filter (Reached p))

theorem Counting.reachable_nonneg {p : FiveLevels Q} (hp : Counting p) : 0 ≤ reachable p :=
  Supply.total_nonneg (S := p.opposite.supply) fun a ha =>
    (hp.volume_pos a (Multiset.mem_of_mem_filter ha)).le

/-- From `p` to `e` the loop sweeps the volume it can reach, up to that of its order. -/
structure SweptTo (p e : FiveLevels Q) (l : List Deal) : Prop where
  deals : deals p.opposite e.engine.history = deals p.opposite p.engine.history ++ l
  volume : dealtVolume l = min p.order.volume (reachable p)
  sweeps : p.opposite.supply.Sweeps p.orders (l.map Deal.taken) (e.engine.book p.opposite)
  reached : ∀ x ∈ l, Reached p x.order
  book_own : e.engine.book p.order.direction = p.engine.book p.order.direction
  left : e.order.volume = p.order.volume - dealtVolume l

theorem Counting.sweptTo_stop {p : FiveLevels Q} (hp : Counting p) (h : bestFiveStep p = none) :
    SweptTo p p [] := by
  refine ⟨(List.append_nil _).symm, ?_, .stop _, fun x hx => absurd hx List.not_mem_nil, rfl, ?_⟩
  · rw [dealtVolume_nil]
    rcases hp.stop h with hvol | hnone
    · rw [hvol, min_eq_left hp.reachable_nonneg]
    · have hzero : reachable p = 0 := by rw [reachable, hnone]; rfl
      rw [hzero, min_eq_right hp.volume_nonneg]
  · rw [dealtVolume_nil, sub_zero]

theorem SweptTo.sweepsUpTo {p e : FiveLevels Q} {l : List Deal} (h : SweptTo p e l) :
    p.opposite.supply.SweepsUpTo (Reached p) p.orders p.order.volume (l.map Deal.taken)
      (e.engine.book p.opposite) where
  sweeps := h.sweeps
  volume := (dealtVolume_eq_taken l).symm.trans h.volume
  taken x hx := by
    obtain ⟨y, hy, rfl⟩ := List.mem_map.mp hx
    exact h.reached y hy

/-- A pass goes before the sweep that follows it. -/
theorem Pass.sweptTo {p q e : FiveLevels Q} {a : CompactOrderLog} {l : List Deal}
    (h : Pass p q a) (hp : Counting p) (hq : SweptTo q e l) :
    SweptTo p e (⟨a, tradePrice (roles p.order a).1 (roles p.order a).2,
      tradeVolumeWith p.order a⟩ :: l) := by
  have hopp : q.opposite = p.opposite := by rw [FiveLevels.opposite, h.direction]
  obtain ⟨hreached, hiff⟩ := h.reached_iff hp
  have hmin : tradeVolumeWith p.order a = min p.order.volume a.volume :=
    tradeVolumeWith_eq_min p.order a
  have hvol : q.order.volume = p.order.volume - tradeVolumeWith p.order a := by
    rw [h.order, CompactOrderLog.volume_reduce]
  have hrest : ∀ x ∈ p.engine.rest p.opposite, x ∈ p.orders := fun x hx => by
    rw [h.orders_eq]
    exact Multiset.mem_cons_of_mem hx
  have hsweep := hq.sweepsUpTo
  rw [hopp, hvol, h.orders_eq', hmin] at hsweep
  have hsweep' := hsweep.head (fun x hx => h.level_le hp x (hrest x hx)) h.fill.volume_pos hreached
    hiff (fun x hx => hp.volume_pos x (by rwa [h.orders_eq]))
  have hdeals := hq.deals
  rw [hopp] at hdeals
  have hown := hq.book_own
  rw [h.direction] at hown
  refine ⟨?_, ?_, ?_, fun x hx => ?_, hown.trans h.fill.book_own, ?_⟩
  · rw [hdeals, h.fill.deals, List.append_assoc]
    rfl
  · rw [dealtVolume_eq_taken, hmin, reachable, h.orders_eq]
    exact hsweep'.volume
  · rw [h.orders_eq, List.map_cons, Deal.taken, hmin]
    exact hsweep'.sweeps
  · rcases List.mem_cons.mp hx with rfl | hx
    · exact hreached
    · exact hsweep'.taken x.taken (List.mem_cons_of_mem _ (List.mem_map_of_mem hx))
  · rw [hq.left, hvol, dealtVolume_cons]
    ring

/-- **The loop of `BestFivePriceNoLeft` is a sweep** of the orders that it can reach. -/
theorem Counting.sweptTo {p : FiveLevels Q} (hp : Counting p) :
    ∃ l, SweptTo p (Loop.exec bestFiveStep (fun p => fillMeasure p.engine p.order) p) l := by
  have hd : Loop.Decreases Counting (bestFiveStep (Q := Q) (A := .exact)) fun p =>
      fillMeasure p.engine p.order :=
    fun p q hp hstep => ⟨(hp.pass hstep).counting hp, (bestFiveStep_decreases p q trivial hstep).2⟩
  refine Loop.exec_induction hd (fun p e => ∃ l, SweptTo p e l) ?_ ?_ hp
  · intro p hp hstop
    exact ⟨[], hp.sweptTo_stop hstop⟩
  · rintro p q hp hstep ⟨l, hl⟩
    exact ⟨_, (hp.pass hstep).sweptTo hp hl⟩

/-- At its start the loop can reach the orders at the five best prices. -/
theorem reached_iff_inTopFive {p : FiveLevels Q} (hnum : p.levelNum = 0)
    (hlast : ∀ a ∈ p.orders, a.price ≠ p.lastPriceLevel) {a : CompactOrderLog}
    (ha : a ∈ p.orders) : Reached p a ↔ InTopFive p.opposite p.orders a := by
  have hskip : p.opposite.signedPrice p.lastPriceLevel ∉ p.orders.map p.opposite.level := by
    intro hmem
    obtain ⟨y, hy, hlevel⟩ := Multiset.mem_map.mp hmem
    exact hlast y hy (p.opposite.signedPrice_injective hlevel)
  rw [Reached, hnum, Supply.levelsUpTo_eq_better ha hskip, InTopFive]
  omega

/-- What a `BestFivePriceNoLeft` order does to a book in order whose prices are not negative. -/
theorem runImmediate_bestFivePrice {s : ContractEngine Q} (hs : Tidy s) {o : CompactOrderLog}
    (hq : 0 < o.volume) (hpos : ∀ a ∈ s.book o.direction.opposite, 0 < a.volume)
    (hnonneg : ∀ a ∈ s.book o.direction.opposite, 0 ≤ a.price) :
    let d := o.direction.opposite
    let t := s.runImmediate bestFivePrice o
    ∃ l, deals d t.history = deals d s.history ++ l ∧
      dealtVolume l =
        min o.volume (totalVolume ((s.book d).filter (InTopFive d (s.book d)))) ∧
      d.supply.Sweeps (s.book d) (l.map Deal.taken) (t.book d) ∧
      (t.book d).filter (fun a => ¬ InTopFive d (s.book d) a) =
        (s.book d).filter (fun a => ¬ InTopFive d (s.book d) a) ∧
      t.book o.direction = s.book o.direction ∧
      ∃ o', t.history.getLast? = some (.discard o') ∧ o'.volume = o.volume - dealtVolume l := by
  intro d t
  set p : FiveLevels Q := ⟨s.log (.immediate (s.named o)), s.named o, 0, -1⟩ with hp
  have hlast : ∀ a ∈ p.orders, a.price ≠ p.lastPriceLevel := fun a ha heq => by
    have := hnonneg a ha
    rw [heq] at this
    norm_num [hp] at this
  have hcounting : Counting p := by
    refine ⟨hs.grid, hs.inOrder, hpos, hq.le, ⟨-100, by norm_num [hp]⟩, by norm_num [hp], ?_⟩
    exact fun a ha heq => absurd heq (hlast a ha)
  obtain ⟨l, hdeals, hvolume, hsweeps, hreached, hown, hleft⟩ := hcounting.sweptTo
  have hfilter : p.orders.filter (Reached p) = (s.book d).filter (InTopFive d (s.book d)) :=
    Multiset.filter_congr fun a ha => reached_iff_inTopFive rfl hlast ha
  refine ⟨l, ?_, ?_, hsweeps, ?_, hown, _, List.getLast?_concat, hleft⟩
  · rw [deals_runImmediate]
    exact hdeals.trans (congrArg (· ++ l) (deals_log_immediate d s _))
  · rw [hvolume, reachable, hfilter]
    rfl
  · refine hsweeps.filter_eq (P := InTopFive d (s.book d)) (fun _ _ ha => ha) fun x hx => ?_
    obtain ⟨y, hy, rfl⟩ := List.mem_map.mp hx
    exact (reached_iff_inTopFive rfl hlast (hsweeps.mem _ hx)).mp (hreached y hy)

omit [LawfulOrderQueue Q] in
theorem insertOrderLog_of_bestFivePrice (s : ContractEngine Q) {o : CompactOrderLog}
    (htype : o.type = ContractType.BestFivePriceNoLeft.code) :
    s.insertOrderLog o = (s.releaseDue o.timestamp).runImmediate bestFivePrice o := by
  simp [insertOrderLog, insertImmediateOrder, htype, ContractType.code]

/-- **BestFivePriceNoLeft sweeps exactly five levels**: it trades its volume or all that rests
at the five best prices, in order of rank, and leaves everything else. -/
theorem bestFive_fills (sessionNum sessionLength : ℤ) {info : CompactPrevTradeInfo}
    (hinfo : OnGrid info.prevClosePrice) (instrument : UInt64) {ops : List Op}
    (hok : LogsSatisfy (fun o => 0 < o.volume ∧ OnGrid o.price) ops) {o : CompactOrderLog}
    (htype : o.type = ContractType.BestFivePriceNoLeft.code) (hq : 0 < o.volume) :
    let d := o.direction.opposite
    let before := (new sessionNum sessionLength info instrument : ContractEngine OrderHeap).run ops
    let s := before.releaseDue o.timestamp
    let t := before.insertOrderLog o
    (∀ a ∈ s.book d, 0 ≤ a.price) →
    ∃ l, deals d t.history = deals d s.history ++ l ∧
      dealtVolume l =
        min o.volume (totalVolume ((s.book d).filter (InTopFive d (s.book d)))) ∧
      d.supply.Sweeps (s.book d) (l.map Deal.taken) (t.book d) ∧
      (t.book d).filter (fun a => ¬ InTopFive d (s.book d) a) =
        (s.book d).filter (fun a => ¬ InTopFive d (s.book d) a) ∧
      t.book o.direction = s.book o.direction ∧
      ∃ o', t.history.getLast? = some (.discard o') ∧ o'.volume = o.volume - dealtVolume l := by
  intro d before s t hnonneg
  have hs : Sound s ∧ Tidy s ∧ Uncrossed s := by
    have hrun := order_run OrderHeap sessionNum sessionLength hinfo instrument hok
    have hrelease := order_settles.release o.timestamp hrun
    rwa [← releaseDue_eq] at hrelease
  have ht : t = s.runImmediate bestFivePrice o := insertOrderLog_of_bestFivePrice before htype
  rw [ht]
  exact runImmediate_bestFivePrice hs.2.1 hq
    (fun a ha => (hs.1.resting d a ha).volume_pos) hnonneg

/-- Six levels of sales, and a buy that could take them all. -/
theorem bestFive_of_six_levels :
    let ops : List Op := [.insertOrderLog ⟨0, 1, 6 / 100, 0, 0⟩,
      .insertOrderLog ⟨1, 2, -1 / 100, 0, 0⟩, .insertOrderLog ⟨2, 1, -1 / 100, 0, 0⟩,
      .insertOrderLog ⟨3, 1, -1 / 100, 0, 0⟩, .insertOrderLog ⟨4, 3, -1 / 100, 0, 0⟩,
      .insertOrderLog ⟨5, 1, -1 / 100, 0, 0⟩]
    let s := (new 3 1 ⟨10, 0⟩ 1 : ContractEngine OrderHeap).run ops
    ∃ l, deals .Sale (s.insertOrderLog ⟨6, 20, 0, 11, 0⟩).history =
      deals .Sale (s.releaseDue 6).history ++ l ∧ dealtVolume l = 8 := by
  intro ops s
  have hinfo : OnGrid (⟨10, 0⟩ : CompactPrevTradeInfo).prevClosePrice := by decide +kernel
  have hok : LogsSatisfy (fun o => 0 < o.volume ∧ OnGrid o.price) ops := by decide +kernel
  have hnonneg : ∀ a ∈ (s.releaseDue 6).book .Sale, 0 ≤ a.price := by decide +kernel
  have hvolume : min 20 (totalVolume (((s.releaseDue 6).book .Sale).filter
      (InTopFive .Sale ((s.releaseDue 6).book .Sale)))) = 8 := by decide +kernel
  obtain ⟨l, hdeals, hl, -⟩ := bestFive_fills 3 1 hinfo 1 hok (o := ⟨6, 20, 0, 11, 0⟩) (by decide)
    (by decide) hnonneg
  exact ⟨l, hdeals, hl.trans hvolume⟩

end ContractEngine
end MatchingEngine
