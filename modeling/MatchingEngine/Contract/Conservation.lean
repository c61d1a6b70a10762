import Mathlib
import MatchingEngine.Contract.Volume

/-!
# Conservation of volume

The history names every accepted order by its place, and follows the name through every
copy of the order.  At every point the volume an order came with is the volume of its
trades, what rests of it in the book and, for an immediate order, what was discarded.

## Main definitions

* `Event.original` — the volume of an arrival.
* `traded k`, `discarded k`, `restingVolume k` — where the volume of the order `k` is.
* `PartOf` — an order is what is left of an arrival.
* `Conserved` — the invariant; `conserved_run` — what it says of a run.
-/

namespace MatchingEngine

/-! ## Where volume goes -/

/-- The volume an arriving order comes with. -/
def Event.original : Event → ℤ
  | .insert _ o => o.volume
  | .immediate o => o.volume
  | .trade _ _ _ _ _ => 0
  | .discard _ => 0

/-- The volume of the order `k` that a trade takes. -/
def Event.traded (k : ℕ) : Event → ℤ
  | .trade saleOrder buyOrder _ tradeVolume _ =>
    portion (fun o => o.id = k) saleOrder tradeVolume +
      portion (fun o => o.id = k) buyOrder tradeVolume
  | _ => 0

/-- The volume of the order `k` that is discarded. -/
def Event.discarded (k : ℕ) : Event → ℤ
  | .discard o => portion (fun o => o.id = k) o o.volume
  | _ => 0

/-- The volume the order `k` came with. -/
def original (history : List Event) (k : ℕ) : ℤ := (history[k]?.map Event.original).getD 0

/-- The volume the order `k` traded. -/
def traded (history : List Event) (k : ℕ) : ℤ := (history.map (Event.traded k)).sum

/-- The volume of the order `k` that was discarded. -/
def discarded (history : List Event) (k : ℕ) : ℤ := (history.map (Event.discarded k)).sum

section append
variable (history : List Event) (e : Event) (k : ℕ)

theorem original_append : original (history ++ [e]) k =
    original history k + if k = history.length then e.original else 0 := by
  unfold original
  rcases lt_trichotomy k history.length with hk | rfl | hk
  · rw [List.getElem?_append_left hk, if_neg hk.ne, add_zero]
  · simp
  · rw [List.getElem?_eq_none (by simp; omega), List.getElem?_eq_none hk.le, if_neg hk.ne']
    rfl

@[simp] theorem traded_append :
    traded (history ++ [e]) k = traded history k + e.traded k := by simp [traded]

@[simp] theorem discarded_append :
    discarded (history ++ [e]) k = discarded history k + e.discarded k := by simp [discarded]

end append

theorem getElem?_append_of_some {history : List Event} {i : ℕ} {e e' : Event}
    (h : history[i]? = some e) : (history ++ [e'])[i]? = some e := by
  rw [List.getElem?_append_left (List.getElem?_eq_some_iff.mp h).1, h]

/-! ## What the events say -/

/-- What is left of `o` after trades. -/
def PartOf (o' o : CompactOrderLog) : Prop := o' = o.reduce (o.volume - o'.volume)

theorem PartOf.refl (o : CompactOrderLog) : PartOf o o := by simp [PartOf]

theorem PartOf.reduce {o' o : CompactOrderLog} (h : PartOf o' o) (v : ℤ) :
    PartOf (o'.reduce v) o := by
  unfold PartOf at h ⊢
  conv_lhs => rw [h]
  rw [CompactOrderLog.reduce_reduce, CompactOrderLog.volume_reduce]
  congr 1
  ring

/-- `o` is what is left of an order that entered the heap of side `d`. -/
def Entered (history : List Event) (d : Direction) (o : CompactOrderLog) : Prop :=
  ∃ o', history[o.id]? = some (.insert d o') ∧ PartOf o o'

/-- `o` is what is left of an immediate order. -/
def Came (history : List Event) (o : CompactOrderLog) : Prop :=
  ∃ o', history[o.id]? = some (.immediate o') ∧ PartOf o o'

/-- `o` takes part in a trade on side `d`: an order that arrived, and of that direction. -/
def TakesPart (history : List Event) (d : Direction) (o : CompactOrderLog) : Prop :=
  (Entered history d o ∨ Came history o) ∧ o.direction = d

/-- The event at place `i` of `history` is in order. -/
def Event.InOrder (history : List Event) (i : ℕ) : Event → Prop
  | .insert d o => o.id = i ∧ 0 < o.volume ∧ o.direction = d
  | .immediate o => o.id = i ∧ 0 < o.volume
  | .trade saleOrder buyOrder _ tradeVolume _ =>
    0 < tradeVolume ∧ tradeVolume ≤ saleOrder.volume ∧ tradeVolume ≤ buyOrder.volume ∧
      TakesPart history .Sale saleOrder ∧ TakesPart history .Buy buyOrder ∧
      saleOrder.id ≠ buyOrder.id
  | .discard o => 0 ≤ o.volume ∧ Came history o

section mono
variable {history : List Event} {d : Direction} {o : CompactOrderLog} (e' : Event)

theorem Entered.append (h : Entered history d o) : Entered (history ++ [e']) d o := by
  obtain ⟨o', ho', hpart⟩ := h
  exact ⟨o', getElem?_append_of_some ho', hpart⟩

theorem Entered.reduce (h : Entered history d o) (v : ℤ) : Entered history d (o.reduce v) := by
  obtain ⟨o', ho', hpart⟩ := h
  exact ⟨o', ho', hpart.reduce v⟩

theorem Came.append (h : Came history o) : Came (history ++ [e']) o := by
  obtain ⟨o', ho', hpart⟩ := h
  exact ⟨o', getElem?_append_of_some ho', hpart⟩

theorem Came.reduce (h : Came history o) (v : ℤ) : Came history (o.reduce v) := by
  obtain ⟨o', ho', hpart⟩ := h
  exact ⟨o', ho', hpart.reduce v⟩

theorem TakesPart.append (h : TakesPart history d o) : TakesPart (history ++ [e']) d o :=
  ⟨h.1.imp (·.append e') (·.append e'), h.2⟩

theorem Event.InOrder.append {i : ℕ} {e : Event} (h : e.InOrder history i) :
    e.InOrder (history ++ [e']) i := by
  cases e with
  | insert d o => exact h
  | immediate o => exact h
  | trade a b p v n =>
    obtain ⟨hv, ha, hb, hsale, hbuy, hne⟩ := h
    exact ⟨hv, ha, hb, hsale.append e', hbuy.append e', hne⟩
  | discard o => exact ⟨h.1, h.2.append e'⟩

end mono

namespace ContractEngine
variable {Q : Direction → Type} [OrderQueue Q] [LawfulOrderQueue Q]

/-! ## The invariant -/

/-- The volume of the order `k` that rests in the book. -/
def restingVolume (s : ContractEngine Q) (k : ℕ) : ℤ :=
  volumeOf (fun o => o.id = k) (s.book .Sale) + volumeOf (fun o => o.id = k) (s.book .Buy)

theorem restingVolume_eq (s : ContractEngine Q) (k : ℕ) (d : Direction) : s.restingVolume k =
    volumeOf (fun o => o.id = k) (s.book d) + volumeOf (fun o => o.id = k) (s.book d.opposite) := by
  cases d with
  | Sale => rfl
  | Buy => exact add_comm _ _

/-- The volume of every order is accounted for, save `incoming k` of the order `k`. -/
structure Conserved (s : ContractEngine Q) (incoming : ℕ → ℤ) : Prop where
  balance : ∀ k, original s.history k =
    traded s.history k + s.restingVolume k + discarded s.history k + incoming k
  events : ∀ i (e : Event), s.history[i]? = some e → e.InOrder s.history i
  entered : ∀ d, ∀ o ∈ s.book d, Entered s.history d o

theorem conserved_new (sessionNum sessionLength : ℤ) (info : CompactPrevTradeInfo)
    (instrument : UInt64) :
    Conserved (new sessionNum sessionLength info instrument : ContractEngine Q) 0 := by
  have hbook : ∀ d, (new sessionNum sessionLength info instrument : ContractEngine Q).book d = 0 :=
    fun d => LawfulOrderQueue.contents_new d
  refine ⟨fun k => ?_, fun i e he => ?_, fun d o ho => ?_⟩
  · rw [restingVolume, hbook, hbook]
    simp [original, traded, discarded, new]
  · cases he
  · rw [hbook] at ho
    exact absurd ho (Multiset.notMem_zero o)

/-- An event that is in order extends a history in order. -/
theorem events_append {history : List Event} {e : Event}
    (h : ∀ i (e : Event), history[i]? = some e → e.InOrder history i)
    (he : e.InOrder (history ++ [e]) history.length) :
    ∀ i (e' : Event), (history ++ [e])[i]? = some e' → e'.InOrder (history ++ [e]) i := by
  intro i e' he'
  rcases lt_trichotomy i history.length with hi | rfl | hi
  · rw [List.getElem?_append_left hi] at he'
    exact (h i e' he').append e
  · rw [List.getElem?_concat_length, Option.some.injEq] at he'
    exact he' ▸ he
  · rw [List.getElem?_eq_none (by simp; omega)] at he'
    cases he'

section steps
variable {s t : ContractEngine Q}

theorem Conserved.insertOrder (hs : Conserved s 0) {d : Direction} {o : CompactOrderLog}
    (hvol : 0 < o.volume) (hdir : o.direction = d) : Conserved (s.insertOrder d o) 0 := by
  have hcame : (s.insertOrder d o).history[(s.named o).id]? = some (.insert d (s.named o)) := by
    rw [history_insertOrder]
    exact List.getElem?_concat_length
  refine ⟨fun k => ?_, ?_, ?_⟩
  · have hrest : (s.insertOrder d o).restingVolume k =
        (if s.history.length = k then o.volume else 0) + s.restingVolume k := by
      rw [restingVolume_eq _ k d, restingVolume_eq s k d, volumeOf_book_insertOrder_self,
        book_insertOrder_of_ne _ _ (by simp), ← add_assoc]
      rfl
    have horig : original (s.insertOrder d o).history k =
        original s.history k + if s.history.length = k then o.volume else 0 := by
      rw [history_insertOrder, original_append, if_congr eq_comm rfl rfl]
      rfl
    have htraded : traded (s.insertOrder d o).history k = traded s.history k := by
      rw [history_insertOrder, traded_append]
      exact add_zero _
    have hdisc : discarded (s.insertOrder d o).history k = discarded s.history k := by
      rw [history_insertOrder, discarded_append]
      exact add_zero _
    rw [horig, hs.balance, hrest, htraded, hdisc]
    ring
  · rw [history_insertOrder]
    exact events_append hs.events ⟨rfl, hvol, hdir⟩
  · exact forall_book_insertOrder (fun d a ha => (hs.entered d a ha).append _)
      ⟨s.named o, hcame, PartOf.refl _⟩

/-- A trade of `a` and `b` that takes `v` off what is in the book and what is incoming. -/
theorem Conserved.trade {incoming incoming' : ℕ → ℤ} (hs : Conserved s incoming)
    {a b : CompactOrderLog} (h : Traded s t a b)
    (hbook : ∀ k, t.restingVolume k + incoming' k + portion (fun o => o.id = k) a (tradeVolume a b) +
      portion (fun o => o.id = k) b (tradeVolume a b) = s.restingVolume k + incoming k)
    (hvol : 0 < tradeVolume a b) (ha : TakesPart s.history .Sale a)
    (hb : TakesPart s.history .Buy b) (hne : a.id ≠ b.id)
    (hentered : ∀ d, ∀ o ∈ t.book d, Entered s.history d o) : Conserved t incoming' := by
  refine ⟨fun k => ?_, ?_, fun d o ho => ?_⟩
  · have horig := hs.balance k
    have hk := hbook k
    rw [h.history, original_append, traded_append, discarded_append]
    simp only [Event.original, Event.traded, Event.discarded, ite_self]
    linarith
  · rw [h.history]
    exact events_append hs.events ⟨hvol, tradeVolume_le_left a b, tradeVolume_le_right a b,
      ha.append _, hb.append _, hne⟩
  · rw [h.history]
    exact (hentered d o ho).append _

theorem Conserved.cross (hs : Conserved s 0) (hsound : Sound s) {a b : CompactOrderLog}
    (h : Cross s t a b) : Conserved t 0 := by
  have hclass : ∀ k, ∀ (o : CompactOrderLog) v, (o.reduce v).id = k ↔ o.id = k :=
    fun k o v => Iff.rfl
  have ha : a ∈ s.book .Sale := h.top_sale ▸ mem_book_top h.isEmpty_sale
  have hb : b ∈ s.book .Buy := h.top_buy ▸ mem_book_top h.isEmpty_buy
  refine hs.trade h.traded (fun k => ?_) (h.tradeVolume_pos hsound)
    ⟨.inl (hs.entered _ a ha), (hsound.resting _ a ha).direction⟩
    ⟨.inl (hs.entered _ b hb), (hsound.resting _ b hb).direction⟩ ?_ ?_
  · rw [restingVolume, restingVolume, h.volumeOf_sale (hclass k), h.volumeOf_buy (hclass k)]
    simp only [Pi.zero_apply]
    ring
  · -- The two tops are on different sides, and a name is on one side only.
    intro heq
    exact Multiset.disjoint_left.mp (Multiset.disjoint_of_nodup_add hsound.nodup)
      (Multiset.mem_map_of_mem _ ha) (heq ▸ Multiset.mem_map_of_mem _ hb)
  · exact h.forall_book (fun _ _ v ho _ => ho.reduce v) hs.entered

/-- What is incoming while the immediate order `o` is handled. -/
def incoming (o : CompactOrderLog) (k : ℕ) : ℤ := portion (fun o => o.id = k) o o.volume

theorem Conserved.fill {o a : CompactOrderLog} (hs : Conserved s (incoming o))
    (hsound : Sound.With s o) (hcame : Came s.history o) (h : Fill s o t a) :
    Conserved t (incoming (o.reduce (tradeVolumeWith o a))) := by
  have hclass : ∀ k, ∀ (o : CompactOrderLog) v, (o.reduce v).id = k ↔ o.id = k :=
    fun k o v => Iff.rfl
  have ha : a ∈ s.book o.direction.opposite := h.top_opposite ▸ mem_book_top h.isEmpty_opposite
  have hdir := (hsound.sound.resting _ a ha).direction
  have hne : a.id ≠ o.id := fun heq => hsound.id_notMem (heq ▸ mem_ids ha)
  have hpos := h.tradeVolume_pos hsound.sound
  have hbook : ∀ k, t.restingVolume k + incoming (o.reduce (tradeVolumeWith o a)) k +
      portion (fun o => o.id = k) o (tradeVolumeWith o a) +
      portion (fun o => o.id = k) a (tradeVolumeWith o a) = s.restingVolume k + incoming o k := by
    intro k
    rw [restingVolume_eq _ k o.direction, restingVolume_eq s k o.direction, h.book_own,
      h.volumeOf_opposite (hclass k), incoming, incoming, CompactOrderLog.volume_reduce,
      portion_reduce (hclass k), portion_sub]
    ring
  have hentered := h.forall_book (P := fun d o => Entered s.history d o)
    (fun _ _ v ho _ => ho.reduce v) hs.entered
  have htraded := h.traded
  unfold tradeVolumeWith roles at hpos hbook ⊢
  unfold roles at htraded
  cases hd : o.direction with
  | Sale =>
    simp only [hd, Direction.opposite] at ha hdir hpos hbook htraded ⊢
    exact hs.trade htraded (fun k => hbook k) hpos ⟨.inr hcame, hd⟩
      ⟨.inl (hs.entered _ a ha), hdir⟩ hne.symm hentered
  | Buy =>
    simp only [hd, Direction.opposite] at ha hdir hpos hbook htraded ⊢
    refine hs.trade htraded (fun k => ?_) hpos ⟨.inl (hs.entered _ a ha), hdir⟩
      ⟨.inr hcame, hd⟩ hne hentered
    rw [add_right_comm]
    exact hbook k

theorem Conserved.same {incoming : ℕ → ℤ} (hs : Conserved s incoming) (h : SameBook s t) :
    Conserved t incoming := by
  have hhist : t.history = s.history := by rw [h.scalars]
  refine ⟨fun k => ?_, hhist ▸ hs.events, fun d => ?_⟩
  · rw [restingVolume, h.book, h.book, hhist]
    exact hs.balance k
  · rw [h.book, hhist]
    exact hs.entered d

theorem Conserved.insertAlpha (hs : Conserved s 0) (alpha : CompactAlpha) :
    Conserved (s.insertAlpha alpha) 0 := by
  rw [insertAlpha_eq]
  exact ⟨hs.balance, hs.events, hs.entered⟩

theorem Conserved.enterTwap (hs : Conserved s 0) (hsound : Sound s) {o : CompactOrderLog}
    (ho : s.twapOrders[s.twapHead]? = some o) : Conserved (s.enterTwap o) 0 := by
  obtain ⟨d, hd, henter⟩ := enterTwap_eq hsound.valid ho
  have hpass : Conserved (s.passTwap o) 0 := ⟨hs.balance, hs.events, hs.entered⟩
  rw [henter]
  split
  · next hvol =>
    exact hpass.insertOrder
      (lt_of_le_of_ne (hsound.valid.planned_head ho).volume_nonneg (Ne.symm hvol))
      (CompactOrderLog.direction_of_twapDirection hd)
  · exact hpass

/-- An immediate order arrives with its whole volume. -/
theorem Conserved.arrive (hs : Conserved s 0) {o : CompactOrderLog} (hvol : 0 < o.volume) :
    Conserved (s.log (.immediate (s.named o))) (incoming (s.named o)) ∧
      Came (s.log (.immediate (s.named o))).history (s.named o) := by
  refine ⟨⟨fun k => ?_, ?_, fun d a ha => ?_⟩, s.named o, ?_, PartOf.refl _⟩
  · have horig := hs.balance k
    rw [history_log, original_append, traded_append, discarded_append, if_congr eq_comm rfl rfl]
    change original s.history k + incoming (s.named o) k =
      traded s.history k + 0 + s.restingVolume k + (discarded s.history k + 0) + _
    rw [horig, Pi.zero_apply]
    ring
  · rw [history_log]
    exact events_append hs.events ⟨rfl, hvol⟩
  · rw [history_log]
    exact (hs.entered d a ha).append _
  · rw [history_log]
    exact List.getElem?_concat_length

/-- What is left of an immediate order is discarded. -/
theorem Conserved.finish {o : CompactOrderLog} (hs : Conserved s (incoming o))
    (hcame : Came s.history o) (hvol : 0 ≤ o.volume) : Conserved (s.log (.discard o)) 0 := by
  refine ⟨fun k => ?_, ?_, fun d a ha => ?_⟩
  · have horig := hs.balance k
    rw [history_log, original_append, traded_append, discarded_append]
    change original s.history k + (if _ then 0 else 0) =
      traded s.history k + 0 + s.restingVolume k + (discarded s.history k + incoming o k) + 0
    rw [ite_self, horig]
    ring
  · rw [history_log]
    exact events_append hs.events ⟨hvol, hcame.append _⟩
  · rw [history_log]
    exact (hs.entered d a ha).append _

end steps

/-! ## The runs -/

theorem conserved_kept : Kept (fun s : ContractEngine Q => Sound s ∧ Conserved s 0)
    (fun o => 0 < o.volume)
    fun s o => Sound.With s o ∧ Conserved s (incoming o) ∧ Came s.history o where
  alpha _ alpha hs := ⟨hs.1.insertAlpha alpha, hs.2.insertAlpha alpha⟩
  enter _ _ hs ho := ⟨hs.1.enterTwap ho, hs.2.enterTwap hs.1 ho⟩
  insert _ _ _ hs hvol _ := ⟨hs.1.insertOrder hvol rfl, hs.2.insertOrder hvol rfl⟩
  cross _ _ _ _ hs h := ⟨hs.1.cross h, hs.2.cross hs.1 h⟩
  arrive _ _ hs hvol _ htype := ⟨hs.1.arrive hvol htype, hs.2.arrive hvol⟩
  fill := {
    fill := fun s o t a hs h => ⟨hs.1.fill h, hs.2.1.fill hs.1 hs.2.2 h, by
      rw [h.traded.history]
      exact (hs.2.2.reduce _).append _⟩
    same := fun s o t hs h => ⟨hs.1.same h, hs.2.1.same h, by
      rw [h.scalars]
      exact hs.2.2⟩ }
  finish _ o hs := ⟨hs.1.sound.log (.discard o), hs.2.1.finish hs.2.2 hs.1.volume_nonneg⟩

/-! ## What is zero, and what is not negative -/

section conserved
variable {s : ContractEngine Q} {k : ℕ}

theorem Conserved.balance_of_getElem? (hs : Conserved s 0) {e : Event}
    (he : s.history[k]? = some e) :
    e.original = traded s.history k + s.restingVolume k + discarded s.history k := by
  have hbal := hs.balance k
  rw [original, he, Pi.zero_apply, add_zero] at hbal
  exact hbal

/-- Only immediate orders are discarded. -/
theorem Conserved.discarded_eq_zero (hs : Conserved s 0)
    (hk : ∀ o, s.history[k]? ≠ some (.immediate o)) : discarded s.history k = 0 := by
  refine List.sum_eq_zero fun v hv => ?_
  obtain ⟨e, he, rfl⟩ := List.mem_map.mp hv
  obtain ⟨i, hi⟩ := List.getElem?_of_mem he
  cases e with
  | discard o =>
    obtain ⟨-, o', ho', -⟩ := hs.events i _ hi
    exact if_neg fun hid : o.id = k => hk o' (hid ▸ ho')
  | insert d o => rfl
  | immediate o => rfl
  | trade a b p v n => rfl

theorem Conserved.discarded_nonneg (hs : Conserved s 0) (k : ℕ) : 0 ≤ discarded s.history k := by
  refine List.sum_nonneg fun v hv => ?_
  obtain ⟨e, he, rfl⟩ := List.mem_map.mp hv
  obtain ⟨i, hi⟩ := List.getElem?_of_mem he
  cases e with
  | discard o => exact portion_nonneg (fun o => o.id = k) (hs.events i _ hi).1
  | insert d o => exact le_rfl
  | immediate o => exact le_rfl
  | trade a b p v n => exact le_rfl

/-- Only orders that entered a heap rest. -/
theorem Conserved.restingVolume_eq_zero (hs : Conserved s 0)
    (hk : ∀ d o, s.history[k]? ≠ some (.insert d o)) : s.restingVolume k = 0 := by
  have hside : ∀ d, volumeOf (fun o => o.id = k) (s.book d) = 0 := fun d =>
    volumeOf_eq_zero _ fun o ho hid => by
      obtain ⟨o', ho', -⟩ := hs.entered d o ho
      exact hk d o' (hid ▸ ho')
  rw [restingVolume, hside, hside, add_zero]

theorem Sound.restingVolume_nonneg (hs : Sound s) (k : ℕ) : 0 ≤ s.restingVolume k :=
  add_nonneg (volumeOf_nonneg _ fun o ho => (hs.resting _ o ho).volume_pos.le)
    (volumeOf_nonneg _ fun o ho => (hs.resting _ o ho).volume_pos.le)

end conserved

theorem sound_conserved_run (sessionNum sessionLength : ℤ) (info : CompactPrevTradeInfo)
    (instrument : UInt64) {ops : List Op} (hok : LogsSatisfy (fun o => 0 < o.volume) ops) :
    Sound ((new sessionNum sessionLength info instrument : ContractEngine Q).run ops) ∧
      Conserved ((new sessionNum sessionLength info instrument : ContractEngine Q).run ops) 0 :=
  conserved_kept.run ⟨sound_new .., conserved_new ..⟩ hok

/-- **Volume is neither created nor lost.**  The volume of an order that entered the book is
what it traded and what rests of it, that of an immediate order what it traded and what was
discarded; every trade takes one positive volume from a sale and from a buy order, and
every resting order is what is left of one arrival and rests once. -/
theorem volume_conserved (sessionNum sessionLength : ℤ) (info : CompactPrevTradeInfo)
    (instrument : UInt64) {ops : List Op} (hok : LogsSatisfy (fun o => 0 < o.volume) ops) :
    let s := (new sessionNum sessionLength info instrument : ContractEngine OrderHeap).run ops
    (∀ k d o, s.history[k]? = some (.insert d o) → o.id = k ∧ discarded s.history k = 0 ∧
      o.volume = traded s.history k + s.restingVolume k ∧ traded s.history k ≤ o.volume) ∧
    (∀ k o, s.history[k]? = some (.immediate o) → o.id = k ∧ s.restingVolume k = 0 ∧
      o.volume = traded s.history k + discarded s.history k ∧ traded s.history k ≤ o.volume) ∧
    (∀ a b p v n, Event.trade a b p v n ∈ s.history →
      0 < v ∧ TakesPart s.history .Sale a ∧ TakesPart s.history .Buy b ∧ a.id ≠ b.id) ∧
    s.ids.Nodup ∧ ∀ d, ∀ o ∈ s.book d, Entered s.history d o := by
  intro s
  obtain ⟨hsound, hs⟩ : Sound s ∧ Conserved s 0 :=
    sound_conserved_run sessionNum sessionLength info instrument hok
  refine ⟨fun k d o ho => ?_, fun k o ho => ?_, fun a b p v n htrade => ?_, hsound.nodup, hs.entered⟩
  · have hdisc := hs.discarded_eq_zero fun o' ho' => by rw [ho] at ho'; cases ho'
    have hbal := hs.balance_of_getElem? ho
    have hrest := hsound.restingVolume_nonneg k
    rw [hdisc, add_zero] at hbal
    change o.volume = _ at hbal
    exact ⟨(hs.events k _ ho).1, hdisc, hbal, by omega⟩
  · have hrest := hs.restingVolume_eq_zero fun d o' ho' => by rw [ho] at ho'; cases ho'
    have hbal := hs.balance_of_getElem? ho
    have hdisc := hs.discarded_nonneg k
    rw [hrest, add_zero] at hbal
    change o.volume = _ at hbal
    exact ⟨(hs.events k _ ho).1, hrest, hbal, by omega⟩
  · obtain ⟨i, hi⟩ := List.getElem?_of_mem htrade
    obtain ⟨hv, -, -, ha, hb, hne⟩ := hs.events i _ hi
    exact ⟨hv, ha, hb, hne⟩

/-- A sale trades with an immediate buy, which discards what is left of it. -/
theorem volume_conserved_of_immediate :
    let s := (new 3 1 ⟨10, 0⟩ 1 : ContractEngine OrderHeap).run
      [.insertOrderLog ⟨0, 2, 0, 0, 0⟩, .insertOrderLog ⟨1, 5, 0, 12, 0⟩]
    s.history[1]? = some (.immediate ⟨1, 5, 0, 12, 1⟩) ∧
      (5 : ℤ) = traded s.history 1 + discarded s.history 1 := by
  intro s
  have hcame : s.history[1]? = some (.immediate ⟨1, 5, 0, 12, 1⟩) := by decide +kernel
  have hok : LogsSatisfy (fun o => 0 < o.volume)
      [.insertOrderLog ⟨0, 2, 0, 0, 0⟩, .insertOrderLog ⟨1, 5, 0, 12, 0⟩] := by decide
  exact ⟨hcame, ((volume_conserved 3 1 ⟨10, 0⟩ 1 hok).2.1 1 _ hcame).2.2.1⟩

end ContractEngine
end MatchingEngine
