import Mathlib
import MatchingEngine.Contract.Volume

/-!
# The own position

The own position is meant to follow the target: what is held, what rests in the book and
what is still planned add up to `targetVolume`.  `tradeOrder` debits the own sale of a
trade and credits the own buy of it only if the sale is foreign, so a trade between two
own orders moves the position off the target by its volume, and nothing else does.

## Main definitions

* `ownVolume s d` — the own volume that rests on side `d`.
* `Tracks s` — the own position tracks the target.
* `selfTraded` — the volume of the trades between two own orders.
* `tracks_run_iff` — the position tracks the target until the first such trade.
-/

namespace MatchingEngine

/-- Both orders of the trade are own orders. -/
def Event.IsSelfTrade : Event → Prop
  | .trade saleOrder buyOrder _ _ _ => saleOrder.IsOwn ∧ buyOrder.IsOwn
  | _ => False

instance : DecidablePred Event.IsSelfTrade
  | .trade a b _ _ _ => inferInstanceAs (Decidable (a.IsOwn ∧ b.IsOwn))
  | .insert _ _ | .immediate _ | .discard _ => inferInstanceAs (Decidable False)

/-- The volume of a trade between two own orders. -/
def Event.selfTraded : Event → ℤ
  | .trade saleOrder buyOrder _ tradeVolume _ =>
    if saleOrder.IsOwn ∧ buyOrder.IsOwn then tradeVolume else 0
  | _ => 0

/-- The volume of a trade. -/
def Event.tradeVolume : Event → ℤ
  | .trade _ _ _ tradeVolume _ => tradeVolume
  | _ => 0

/-- The volume of the trades between two own orders. -/
def selfTraded (history : List Event) : ℤ := (history.map Event.selfTraded).sum

@[simp] theorem selfTraded_append (history : List Event) (e : Event) :
    selfTraded (history ++ [e]) = selfTraded history + e.selfTraded := by
  simp [selfTraded]

/-- If trades have positive volume, no volume is self-traded just if no trade is. -/
theorem selfTraded_eq_zero_iff {history : List Event}
    (hpos : ∀ e ∈ history, e.IsSelfTrade → 0 < e.tradeVolume) :
    selfTraded history = 0 ↔ ∀ e ∈ history, ¬ e.IsSelfTrade := by
  have hevent : ∀ e ∈ history, 0 ≤ e.selfTraded ∧ (e.selfTraded = 0 ↔ ¬ e.IsSelfTrade) := by
    intro e he
    have hvol := hpos e he
    cases e with
    | trade a b p v n =>
      by_cases hown : a.IsOwn ∧ b.IsOwn
      · have hv : 0 < v := hvol hown
        refine ⟨?_, fun hzero => ?_, fun hne => absurd hown hne⟩
        · rw [Event.selfTraded, if_pos hown]
          exact hv.le
        · rw [Event.selfTraded, if_pos hown] at hzero
          exact absurd hzero hv.ne'
      · rw [Event.selfTraded, if_neg hown]
        exact ⟨le_rfl, fun _ => hown, fun _ => rfl⟩
    | insert d o => simp [Event.selfTraded, Event.IsSelfTrade]
    | immediate o => simp [Event.selfTraded, Event.IsSelfTrade]
    | discard o => simp [Event.selfTraded, Event.IsSelfTrade]
  induction history with
  | nil => simp [selfTraded]
  | cons e history ih =>
    have htail : 0 ≤ selfTraded history := List.sum_nonneg fun v hv => by
      obtain ⟨e', he', rfl⟩ := List.mem_map.mp hv
      exact (hevent e' (List.mem_cons_of_mem _ he')).1
    have hhead := hevent e List.mem_cons_self
    have hrest : selfTraded history = 0 ↔ ∀ e ∈ history, ¬ e.IsSelfTrade :=
      ih (fun e' he' => hpos e' (List.mem_cons_of_mem _ he'))
        fun e' he' => hevent e' (List.mem_cons_of_mem _ he')
    have hcons : selfTraded (e :: history) = e.selfTraded + selfTraded history := rfl
    rw [List.forall_mem_cons, ← hrest, ← hhead.2, hcons]
    omega

namespace ContractEngine
variable {Q : Direction → Type} [OrderQueue Q]

omit [OrderQueue Q] in
theorem portion_isOwn_named (s : ContractEngine Q) (o : CompactOrderLog) (v : ℤ) :
    portion CompactOrderLog.IsOwn (s.named o) v = if o.IsOwn then v else 0 := rfl

omit [OrderQueue Q] in
/-- What `tradeOrder` does to the own position. -/
theorem volume_account (s : ContractEngine Q) (a b : CompactOrderLog) :
    (s.account a b).2 = s.volume - portion CompactOrderLog.IsOwn a (tradeVolume a b) +
      portion CompactOrderLog.IsOwn b (tradeVolume a b) -
      if a.IsOwn ∧ b.IsOwn then tradeVolume a b else 0 := by
  unfold account portion
  by_cases ha : a.IsOwn <;> by_cases hb : b.IsOwn <;> simp [ha, hb]

variable [LawfulOrderQueue Q]

/-- The own volume that rests on side `d`. -/
def ownVolume (s : ContractEngine Q) (d : Direction) : ℤ :=
  volumeOf CompactOrderLog.IsOwn (s.book d)

/-- The own position, what rests in the book and what is still planned. -/
def committed (s : ContractEngine Q) : ℤ :=
  s.volume + s.ownVolume .Buy - s.ownVolume .Sale + s.pendingVolume

/-- **The own position tracks the target.** -/
def Tracks (s : ContractEngine Q) : Prop := s.committed = s.targetVolume

instance (s : ContractEngine Q) : Decidable s.Tracks := inferInstanceAs (Decidable (_ = _))

/-- The position is off the target by the self-traded volume. -/
structure Accounted (s : ContractEngine Q) : Prop where
  sessionNum_pos : 0 < s.sessionNum
  committed_eq : s.committed + selfTraded s.history = s.targetVolume
  volume_pos : ∀ e ∈ s.history, e.IsSelfTrade → 0 < e.tradeVolume

theorem accounted_new {sessionNum : ℤ} (hn : 0 < sessionNum) (sessionLength : ℤ)
    (info : CompactPrevTradeInfo) (instrument : UInt64) :
    Accounted (new sessionNum sessionLength info instrument : ContractEngine Q) := by
  refine ⟨hn, ?_, fun e he => absurd he List.not_mem_nil⟩
  have hbook : ∀ d, (new sessionNum sessionLength info instrument : ContractEngine Q).book d = 0 :=
    fun d => LawfulOrderQueue.contents_new d
  rw [committed, ownVolume, ownVolume, hbook, hbook]
  simp [pendingVolume, selfTraded, new]

/-! ## The steps -/

section insert
variable {s : ContractEngine Q} {d : Direction} {o : CompactOrderLog}

theorem ownVolume_insertOrder_of_not_isOwn (ho : ¬ o.IsOwn) (e : Direction) :
    (s.insertOrder d o).ownVolume e = s.ownVolume e := by
  by_cases he : e = d
  · subst he
    rw [ownVolume, volumeOf_book_insertOrder_self, portion_isOwn_named, if_neg ho, zero_add,
      ownVolume]
  · rw [ownVolume, book_insertOrder_of_ne _ _ he, ownVolume]

/-- An own order that enters the book adds its signed volume to what is committed. -/
theorem committed_insertOrder_of_isOwn (ho : o.IsOwn) :
    (s.insertOrder d o).committed = s.committed + d.sign * o.volume := by
  have hself : (s.insertOrder d o).ownVolume d = o.volume + s.ownVolume d := by
    rw [ownVolume, volumeOf_book_insertOrder_self, portion_isOwn_named, if_pos ho, ownVolume]
  have hother : ∀ e, e ≠ d → (s.insertOrder d o).ownVolume e = s.ownVolume e := fun e he => by
    rw [ownVolume, book_insertOrder_of_ne _ _ he, ownVolume]
  have hvol : (s.insertOrder d o).volume = s.volume := rfl
  have hpend : (s.insertOrder d o).pendingVolume = s.pendingVolume := rfl
  unfold committed
  rw [hvol, hpend]
  cases d with
  | Sale => rw [hself, hother .Buy (by decide), Direction.sign]; ring
  | Buy => rw [hself, hother .Sale (by decide), Direction.sign]; ring

end insert

/-- Entering a TWAP order moves its volume from the plan to the book. -/
theorem committed_enterTwap {s : ContractEngine Q} (h : s.plan.Valid) {o : CompactOrderLog}
    (ho : s.twapOrders[s.twapHead]? = some o) : (s.enterTwap o).committed = s.committed := by
  obtain ⟨d, hd, henter⟩ := enterTwap_eq h ho
  have hpass : (s.passTwap o).committed = s.committed - signedVolume o := by
    have hvol : (s.passTwap o).volume = s.volume := rfl
    have hown : ∀ e, (s.passTwap o).ownVolume e = s.ownVolume e := fun _ => rfl
    rw [committed, committed, pendingVolume_passTwap ho, hvol, hown, hown]
    ring
  have hsigned : signedVolume o = d.sign * o.volume := by rw [signedVolume, hd]
  have hpriced : (s.priced o).IsOwn := (h.planned_head ho).isOwn
  rw [henter]
  by_cases hvol : o.volume = 0
  · rw [if_neg (not_not.mpr hvol), hpass, hsigned, hvol, mul_zero, sub_zero]
  · rw [if_pos hvol, committed_insertOrder_of_isOwn hpriced, hpass, hsigned]
    exact sub_add_cancel _ _

omit [OrderQueue Q] [LawfulOrderQueue Q] in
theorem Traded.pendingVolume {s t : ContractEngine Q} {a b : CompactOrderLog}
    (h : Traded s t a b) : t.pendingVolume = s.pendingVolume := by
  rw [ContractEngine.pendingVolume, ContractEngine.pendingVolume, h.twapOrders, h.twapHead]

omit [OrderQueue Q] [LawfulOrderQueue Q] in
theorem Traded.selfTraded {s t : ContractEngine Q} {a b : CompactOrderLog} (h : Traded s t a b) :
    selfTraded t.history = selfTraded s.history +
      if a.IsOwn ∧ b.IsOwn then tradeVolume a b else 0 := by
  rw [h.history, selfTraded_append]
  rfl

/-- A trade of the tops keeps the balance: the self-traded volume is what goes missing. -/
theorem Cross.committed_add {s t : ContractEngine Q} {a b : CompactOrderLog} (h : Cross s t a b) :
    t.committed + MatchingEngine.selfTraded t.history =
      s.committed + MatchingEngine.selfTraded s.history := by
  have hown : ∀ (o : CompactOrderLog) v, (o.reduce v).IsOwn ↔ o.IsOwn := fun o v => Iff.rfl
  rw [committed, committed, ownVolume, ownVolume, ownVolume, ownVolume, h.volumeOf_sale hown,
    h.volumeOf_buy hown, h.traded.volume, volume_account, h.traded.pendingVolume,
    h.traded.selfTraded]
  ring

/-- So does a trade of a foreign incoming order, which is never a self-trade. -/
theorem Fill.committed_add {s t : ContractEngine Q} {o a : CompactOrderLog} (h : Fill s o t a)
    (ho : ¬ o.IsOwn) : t.committed + MatchingEngine.selfTraded t.history =
      s.committed + MatchingEngine.selfTraded s.history := by
  have hown : ∀ (o : CompactOrderLog) v, (o.reduce v).IsOwn ↔ o.IsOwn := fun o v => Iff.rfl
  have hopp := h.volumeOf_opposite hown
  have hsame := h.book_own
  have hvol := h.traded.volume
  have hself := h.traded.selfTraded
  rw [volume_account] at hvol
  rw [committed, committed, ownVolume, ownVolume, ownVolume, ownVolume, h.traded.pendingVolume]
  unfold tradeVolumeWith roles at hopp
  unfold roles at hvol hself
  cases hd : o.direction with
  | Sale =>
    simp only [hd, Direction.opposite] at hopp hsame hvol hself
    rw [hopp, hsame, hvol, hself, portion, if_neg ho]
    ring
  | Buy =>
    simp only [hd, Direction.opposite] at hopp hsame hvol hself
    rw [hopp, hsame, hvol, hself]
    simp only [portion, if_neg ho]
    ring

/-! ## The runs -/

theorem Accounted.traded {s t : ContractEngine Q} {a b : CompactOrderLog} (hs : Accounted s)
    (h : Traded s t a b) (hpos : 0 < tradeVolume a b)
    (heq : t.committed + MatchingEngine.selfTraded t.history =
      s.committed + MatchingEngine.selfTraded s.history) : Accounted t := by
  have hnum : t.sessionNum = s.sessionNum := congrArg Plan.sessionNum h.plan
  refine ⟨hnum ▸ hs.sessionNum_pos, by rw [heq, hs.committed_eq, h.targetVolume], ?_⟩
  rw [h.history]
  intro e he
  rcases List.mem_append.mp he with he | he
  · exact hs.volume_pos e he
  · rw [List.mem_singleton.mp he]
    exact fun _ => hpos

theorem Accounted.insertAlpha {s : ContractEngine Q} (hs : Accounted s) (h : s.plan.Valid)
    (alpha : CompactAlpha) : Accounted (s.insertAlpha alpha) := by
  have hpend := pendingVolume_insertAlpha h hs.sessionNum_pos alpha
  have heq := hs.committed_eq
  unfold committed at heq
  refine ⟨?_, ?_, ?_⟩ <;> rw [insertAlpha_eq] at *
  · exact hs.sessionNum_pos
  · have hown : ∀ d, ContractEngine.ownVolume { s with
        targetVolume := alpha.targetVolume
        twapOrders := s.twapOrders ++ s.slices alpha } d = s.ownVolume d := fun _ => rfl
    rw [committed, hown, hown, hpend]
    simp only
    linarith
  · exact hs.volume_pos

/-- An event that is no trade leaves the balance as it is. -/
theorem Accounted.log {s : ContractEngine Q} (hs : Accounted s) {e : Event}
    (he : e.selfTraded = 0) (hne : ¬ e.IsSelfTrade) : Accounted (s.log e) := by
  refine ⟨hs.sessionNum_pos, ?_, ?_⟩
  · rw [history_log, selfTraded_append, he, add_zero]
    exact hs.committed_eq
  · rw [history_log]
    intro e' he'
    rcases List.mem_append.mp he' with he' | he'
    · exact hs.volume_pos e' he'
    · rw [List.mem_singleton.mp he']
      exact fun h => absurd h hne

theorem Accounted.insertOrder {s : ContractEngine Q} (hs : Accounted s) {d : Direction}
    {o : CompactOrderLog} (ho : ¬ o.IsOwn) : Accounted (s.insertOrder d o) := by
  have hown := ownVolume_insertOrder_of_not_isOwn (s := s) (d := d) ho
  have hcommitted : (s.insertOrder d o).committed = s.committed := by
    rw [committed, hown, hown]
    rfl
  refine ⟨hs.sessionNum_pos, ?_, ?_⟩
  · rw [hcommitted, history_insertOrder, selfTraded_append]
    exact (congrArg (s.committed + ·) (add_zero _)).trans hs.committed_eq
  · rw [history_insertOrder]
    intro e he
    rcases List.mem_append.mp he with he | he
    · exact hs.volume_pos e he
    · rw [List.mem_singleton.mp he]
      exact False.elim

theorem Accounted.enterTwap {s : ContractEngine Q} (hs : Accounted s) (h : s.plan.Valid)
    {o : CompactOrderLog} (ho : s.twapOrders[s.twapHead]? = some o) :
    Accounted (s.enterTwap o) := by
  have heq := hs.committed_eq
  rw [← committed_enterTwap h ho] at heq
  obtain ⟨d, -, henter⟩ := enterTwap_eq h ho
  rw [henter] at heq ⊢
  split at heq
  · next hvol =>
    rw [if_pos hvol]
    refine ⟨hs.sessionNum_pos, ?_, ?_⟩
    · rw [history_insertOrder, selfTraded_append]
      exact (congrArg (_ + ·) (add_zero _)).trans heq
    · rw [history_insertOrder]
      intro e he
      rcases List.mem_append.mp he with he | he
      · exact hs.volume_pos e he
      · rw [List.mem_singleton.mp he]
        exact False.elim
  · next hvol =>
    rw [if_neg hvol]
    exact ⟨hs.sessionNum_pos, heq, hs.volume_pos⟩

theorem Accounted.same {s t : ContractEngine Q} (hs : Accounted s) (h : SameBook s t) :
    Accounted t := by
  have hown : ∀ d, t.ownVolume d = s.ownVolume d := fun d => congrArg _ (h.book d)
  have heq := hs.committed_eq
  unfold committed at heq
  rw [← hown, ← hown] at heq
  obtain ⟨hscalars, -⟩ := h
  rw [hscalars] at heq ⊢
  exact ⟨hs.sessionNum_pos, heq, hs.volume_pos⟩

theorem accounted_kept : Kept (fun s : ContractEngine Q => Sound s ∧ Accounted s)
    (fun o => 0 < o.volume) fun s o => Sound.With s o ∧ Accounted s where
  alpha _ alpha hs := ⟨hs.1.insertAlpha alpha, hs.2.insertAlpha hs.1.valid alpha⟩
  enter _ _ hs ho := ⟨hs.1.enterTwap ho, hs.2.enterTwap hs.1.valid ho⟩
  insert _ o p hs hvol htype :=
    ⟨hs.1.insertOrder hvol rfl, hs.2.insertOrder fun hown => by
      change o.type = _ at hown
      rw [hown] at htype
      exact absurd htype (by decide)⟩
  cross _ _ _ _ hs h :=
    ⟨hs.1.cross h, hs.2.traded h.traded (h.tradeVolume_pos hs.1) h.committed_add⟩
  arrive _ _ hs hvol _ htype := ⟨hs.1.arrive hvol htype, hs.2.log rfl not_false⟩
  fill := {
    fill := fun _ _ _ _ hs h => ⟨hs.1.fill h,
      hs.2.traded h.traded (h.tradeVolume_pos hs.1.sound) (h.committed_add hs.1.not_isOwn)⟩
    same := fun _ _ _ hs h => ⟨hs.1.same h, hs.2.same h⟩ }
  finish _ o hs := ⟨hs.1.sound.log (.discard o), hs.2.log rfl not_false⟩

/-- In every reachable state the position is off the target by the self-traded volume. -/
theorem accounted_run {sessionNum : ℤ} (hn : 0 < sessionNum) (sessionLength : ℤ)
    (info : CompactPrevTradeInfo) (instrument : UInt64) {ops : List Op}
    (hok : LogsSatisfy (fun o => 0 < o.volume) ops) :
    Accounted ((new sessionNum sessionLength info instrument : ContractEngine Q).run ops) :=
  (accounted_kept.run ⟨sound_new .., accounted_new hn ..⟩ hok).2

/-- **The own position tracks the target just as long as `tradeOrder` has not been called
with two own orders.** -/
theorem tracks_run_iff {sessionNum : ℤ} (hn : 0 < sessionNum) (sessionLength : ℤ)
    (info : CompactPrevTradeInfo) (instrument : UInt64) {ops : List Op}
    (hok : LogsSatisfy (fun o => 0 < o.volume) ops) :
    let s := (new sessionNum sessionLength info instrument : ContractEngine OrderHeap).run ops
    Tracks s ↔ ∀ e ∈ s.history, ¬ e.IsSelfTrade := by
  intro s
  have hs : Accounted s := accounted_run hn sessionLength info instrument hok
  rw [← selfTraded_eq_zero_iff hs.volume_pos, Tracks, ← hs.committed_eq, left_eq_add]

/-- A foreign buy fills the own sales, and the position follows the target. -/
theorem tracks_of_foreign_buy :
    Tracks ((new 3 1 ⟨10, 0⟩ 1 : ContractEngine OrderHeap).run
      [.insertAlpha ⟨0, -3⟩, .insertOrderLog ⟨5000, 2, 0, 8, 0⟩, .onComplete]) :=
  (tracks_run_iff (by decide) 1 ⟨10, 0⟩ 1 (by decide)).mpr (by decide +kernel)

/-- After a change of sign the own buys meet the own sales, and the position runs away. -/
theorem not_tracks_of_self_trade :
    ¬ ∀ (sessionNum sessionLength : ℤ) (info : CompactPrevTradeInfo) (instrument : UInt64)
      (ops : List Op), 0 < sessionNum →
      LogsSatisfy (fun o => 0 < o.volume ∧ o.type ≤ ContractType.AllOrNothing.code) ops →
      Tracks ((new sessionNum sessionLength info instrument : ContractEngine OrderHeap).run ops) := by
  intro h
  have htracks := h 3 1 ⟨10, 0⟩ 1 [.insertAlpha ⟨0, -3⟩, .insertAlpha ⟨3000, 0⟩, .onComplete]
    (by decide) (by decide)
  exact absurd htracks (by decide +kernel)

end ContractEngine
end MatchingEngine
