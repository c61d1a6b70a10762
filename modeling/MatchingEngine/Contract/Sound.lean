import Mathlib
import MatchingEngine.Contract.Twap

/-!
# Sound states

What holds in every state of every run with positive order volumes, whatever the prices:
the plan is valid, every resting order has volume left and rests on its own side, and no
two resting orders have one name.

## Main definitions

* `Resting`, `Sound` — the invariant between the steps.
* `Sound.With` — the invariant while an immediate order is handled.
* `Sound.run` — it holds after every run.
-/

namespace MatchingEngine

/-- The direction read without a mask is the one read with it. -/
theorem CompactOrderLog.direction_of_twapDirection {o : CompactOrderLog} {d : Direction}
    (h : o.twapDirection = some d) : o.direction = d := by
  have hcode : o.directionAndType >>> directionOffset = d.code := by
    unfold twapDirection at h
    split at h
    · next hc => rw [hc, ← Option.some.inj h]
    · split at h
      · next hc => rw [hc, ← Option.some.inj h]
      · cases h
  have hmask : (o.directionAndType &&& directionMask) >>> directionOffset = d.code := by
    rw [UInt8.shiftRight_and, hcode]
    cases d <;> decide
  unfold direction
  rw [hmask]
  cases d <;> rfl

namespace ContractEngine
variable {Q : Direction → Type} [OrderQueue Q] [LawfulOrderQueue Q]

/-- A resting order of side `d`, named before the `n`th event. -/
structure Resting (n : ℕ) (d : Direction) (o : CompactOrderLog) : Prop where
  volume_pos : 0 < o.volume
  direction : o.direction = d
  id_lt : o.id < n

theorem Resting.mono {m n : ℕ} (hmn : m ≤ n) {d : Direction} {o : CompactOrderLog}
    (h : Resting m d o) : Resting n d o := ⟨h.volume_pos, h.direction, h.id_lt.trans_le hmn⟩

theorem Resting.reduce {n : ℕ} {d : Direction} {o : CompactOrderLog} {v : ℤ}
    (h : Resting n d o) (hv : v < o.volume) : Resting n d (o.reduce v) :=
  ⟨by rw [CompactOrderLog.volume_reduce]; omega, h.direction, h.id_lt⟩

/-- The names of the resting orders. -/
def ids (s : ContractEngine Q) : Multiset ℕ :=
  ((s.book .Sale).map CompactOrderLog.id) + ((s.book .Buy).map CompactOrderLog.id)

/-- The names on either side of an order. -/
theorem ids_eq (s : ContractEngine Q) (d : Direction) : s.ids =
    ((s.book d).map CompactOrderLog.id) + ((s.book d.opposite).map CompactOrderLog.id) := by
  cases d with
  | Sale => rfl
  | Buy => exact add_comm _ _

/-- The state is well formed. -/
structure Sound (s : ContractEngine Q) : Prop where
  valid : s.plan.Valid
  resting : ∀ d, ∀ o ∈ s.book d, Resting s.history.length d o
  nodup : s.ids.Nodup

/-- The state is well formed, and `o` is what is left of an incoming order. -/
structure Sound.With (s : ContractEngine Q) (o : CompactOrderLog) : Prop where
  sound : Sound s
  volume_nonneg : 0 ≤ o.volume
  not_isOwn : ¬ o.IsOwn
  id_lt : o.id < s.history.length
  id_notMem : o.id ∉ s.ids

theorem sound_new (sessionNum sessionLength : ℤ) (info : CompactPrevTradeInfo)
    (instrument : UInt64) :
    Sound (new sessionNum sessionLength info instrument : ContractEngine Q) := by
  have hbook : ∀ d, (new sessionNum sessionLength info instrument : ContractEngine Q).book d = 0 :=
    fun d => LawfulOrderQueue.contents_new d
  refine ⟨valid_plan_new .., fun d o ho => ?_, ?_⟩
  · rw [hbook] at ho
    exact absurd ho (Multiset.notMem_zero o)
  · rw [ids, hbook, hbook]
    exact Multiset.nodup_zero

/-! ## The names under the steps -/

theorem map_id_residue_le (o : CompactOrderLog) (v : ℤ) :
    (residue o v).map CompactOrderLog.id ≤ {o.id} := by
  unfold residue
  split
  · exact Multiset.zero_le _
  · rw [Multiset.map_singleton, CompactOrderLog.id_reduce]

/-- Taking volume off a top brings no new name. -/
theorem map_id_residue_add_le {s : ContractEngine Q} {d : Direction}
    (he : OrderQueue.isEmpty (s.heap d) = false) (v : ℤ) :
    (residue (OrderQueue.top (s.heap d)) v + s.rest d).map CompactOrderLog.id ≤
      (s.book d).map CompactOrderLog.id := by
  rw [book_eq_top_cons he, Multiset.map_add, Multiset.map_cons, ← Multiset.singleton_add]
  exact add_le_add_left (map_id_residue_le _ _) _

theorem Cross.ids_le {s t : ContractEngine Q} {a b : CompactOrderLog} (h : Cross s t a b) :
    t.ids ≤ s.ids := by
  rw [ids, h.book_sale, h.book_buy, ← h.top_sale, ← h.top_buy]
  exact add_le_add (map_id_residue_add_le h.isEmpty_sale _) (map_id_residue_add_le h.isEmpty_buy _)

theorem Fill.ids_le {s t : ContractEngine Q} {o a : CompactOrderLog} (h : Fill s o t a) :
    t.ids ≤ s.ids := by
  rw [ids_eq t o.direction, ids_eq s o.direction, h.book_own, h.book_opposite, ← h.top_opposite]
  exact add_le_add le_rfl (map_id_residue_add_le h.isEmpty_opposite _)

theorem ids_insertOrder (s : ContractEngine Q) (d : Direction) (o : CompactOrderLog) :
    (s.insertOrder d o).ids = s.history.length ::ₘ s.ids := by
  rw [ids_eq _ d, ids_eq s d, book_insertOrder_self, book_insertOrder_of_ne _ _ (by simp),
    Multiset.map_cons, Multiset.cons_add]
  rfl

theorem ids_congr {s t : ContractEngine Q} (h : ∀ d, t.book d = s.book d) : t.ids = s.ids := by
  rw [ids, ids, h, h]

theorem Sound.id_lt {s : ContractEngine Q} (hs : Sound s) {k : ℕ} (hk : k ∈ s.ids) :
    k < s.history.length := by
  rcases Multiset.mem_add.mp hk with hk | hk <;>
  · obtain ⟨o, ho, rfl⟩ := Multiset.mem_map.mp hk
    exact (hs.resting _ o ho).id_lt

theorem mem_ids {s : ContractEngine Q} {d : Direction} {o : CompactOrderLog} (ho : o ∈ s.book d) :
    o.id ∈ s.ids := by
  rw [ids_eq s d]
  exact Multiset.mem_add.mpr (.inl (Multiset.mem_map_of_mem _ ho))

/-! ## Soundness under the steps -/

omit [LawfulOrderQueue Q] in
theorem length_history_insertOrder (s : ContractEngine Q) (d : Direction) (o : CompactOrderLog) :
    (s.insertOrder d o).history.length = s.history.length + 1 := by
  rw [history_insertOrder, List.length_append, List.length_singleton]

omit [OrderQueue Q] [LawfulOrderQueue Q] in
theorem Traded.length_history {s t : ContractEngine Q} {a b : CompactOrderLog}
    (h : Traded s t a b) : t.history.length = s.history.length + 1 := by
  rw [h.history, List.length_append, List.length_singleton]

section steps
variable {s t : ContractEngine Q} (hs : Sound s)
include hs

theorem Sound.insertAlpha (alpha : CompactAlpha) : Sound (s.insertAlpha alpha) := by
  have hvalid := hs.valid.insertAlpha alpha
  rw [insertAlpha_eq] at hvalid ⊢
  exact ⟨hvalid, hs.resting, hs.nodup⟩

/-- An event leaves the book as it is. -/
theorem Sound.log (e : Event) : Sound (s.log e) :=
  ⟨hs.valid, fun d o ho => (hs.resting d o ho).mono (by simp), hs.nodup⟩

theorem Sound.insertOrder {d : Direction} {o : CompactOrderLog} (hvol : 0 < o.volume)
    (hdir : o.direction = d) : Sound (s.insertOrder d o) := by
  have hlen := length_history_insertOrder s d o
  refine ⟨hs.valid, ?_, ?_⟩
  · rw [hlen]
    exact forall_book_insertOrder
      (fun d a ha => (hs.resting d a ha).mono (Nat.le_succ _))
      ⟨hvol, hdir, Nat.lt_succ_self s.history.length⟩
  · rw [ids_insertOrder]
    exact Multiset.nodup_cons.mpr ⟨fun hmem => lt_irrefl _ (hs.id_lt hmem), hs.nodup⟩

theorem Sound.enterTwap {o : CompactOrderLog} (ho : s.twapOrders[s.twapHead]? = some o) :
    Sound (s.enterTwap o) := by
  have hvalid := hs.valid.enterTwap ho
  obtain ⟨d, hd, henter⟩ := enterTwap_eq hs.valid ho
  rw [henter] at hvalid ⊢
  by_cases hvol : o.volume = 0
  · rw [if_neg (not_not.mpr hvol)] at hvalid ⊢
    exact ⟨hvalid, hs.resting, hs.nodup⟩
  · rw [if_pos hvol] at hvalid ⊢
    have hpass : Sound (s.passTwap o) := ⟨hvalid, hs.resting, hs.nodup⟩
    have hpos : 0 < o.volume :=
      lt_of_le_of_ne (hs.valid.planned_head ho).volume_nonneg (Ne.symm hvol)
    exact hpass.insertOrder hpos (CompactOrderLog.direction_of_twapDirection hd)

theorem Sound.cross {a b : CompactOrderLog} (h : Cross s t a b) : Sound t := by
  refine ⟨h.traded.plan ▸ hs.valid, ?_, Multiset.nodup_of_le h.ids_le hs.nodup⟩
  exact h.forall_book (fun _ _ _ hr hv => hr.reduce hv) fun d o ho =>
    (hs.resting d o ho).mono (by rw [h.traded.length_history]; exact Nat.le_succ _)

end steps

section With
variable {s t : ContractEngine Q} {o : CompactOrderLog} (hs : Sound.With s o)
include hs

theorem Sound.With.fill {a : CompactOrderLog} (h : Fill s o t a) :
    Sound.With t (o.reduce (tradeVolumeWith o a)) := by
  have hlen := h.traded.length_history
  refine ⟨⟨h.traded.plan ▸ hs.sound.valid, ?_, Multiset.nodup_of_le h.ids_le hs.sound.nodup⟩,
    ?_, hs.not_isOwn, ?_, fun hmem => hs.id_notMem (Multiset.subset_of_le h.ids_le hmem)⟩
  · exact h.forall_book (fun _ _ _ hr hv => hr.reduce hv) fun d a ha =>
      (hs.sound.resting d a ha).mono (by rw [hlen]; exact Nat.le_succ _)
  · rw [CompactOrderLog.volume_reduce, tradeVolumeWith_eq_min]
    omega
  · rw [CompactOrderLog.id_reduce, hlen]
    exact hs.id_lt.trans (Nat.lt_succ_self _)

theorem Sound.With.same (h : SameBook s t) : Sound.With t o := by
  have hids := ids_congr h.book
  have hhist : t.history = s.history := by rw [h.scalars]
  have hplan : t.plan = s.plan := by rw [h.scalars]; rfl
  refine ⟨⟨hplan ▸ hs.sound.valid, fun d => ?_, hids ▸ hs.sound.nodup⟩, hs.volume_nonneg,
    hs.not_isOwn, hhist ▸ hs.id_lt, hids ▸ hs.id_notMem⟩
  rw [h.book, hhist]
  exact hs.sound.resting d

end With

/-- An order of an immediate type arrives. -/
theorem Sound.arrive {s : ContractEngine Q} (hs : Sound s) {o : CompactOrderLog}
    (hvol : 0 < o.volume) (htype : o.type ≤ ContractType.AllOrNothing.code) :
    Sound.With (s.log (.immediate (s.named o))) (s.named o) := by
  refine ⟨hs.log _, hvol.le, fun hown => ?_, ?_, fun hmem => lt_irrefl _ (hs.id_lt hmem)⟩
  · rw [CompactOrderLog.IsOwn] at hown
    change o.type = _ at hown
    rw [hown] at htype
    exact absurd htype (by decide)
  · rw [history_log, List.length_append, List.length_singleton]
    exact Nat.lt_succ_self _

theorem sound_kept : Kept Sound (fun o => 0 < o.volume) (Sound.With (Q := Q)) where
  alpha _ alpha hs := hs.insertAlpha alpha
  enter _ _ hs ho := hs.enterTwap ho
  insert _ _ _ hs hvol _ := hs.insertOrder hvol rfl
  cross _ _ _ _ hs h := hs.cross h
  arrive _ _ hs hvol _ htype := hs.arrive hvol htype
  fill := ⟨fun _ _ _ _ hs h => hs.fill h, fun _ _ _ hs h => hs.same h⟩
  finish _ o hs := hs.sound.log (.discard o)

/-- **Every reachable state is sound.** -/
theorem Sound.run {s : ContractEngine Q} {ops : List Op} (hs : Sound s)
    (hok : LogsSatisfy (fun o => 0 < o.volume) ops) : Sound (s.run ops) :=
  sound_kept.run hs hok

/-! ## Trades take a positive volume -/

theorem Cross.tradeVolume_pos {s t : ContractEngine Q} {a b : CompactOrderLog}
    (h : Cross s t a b) (hs : Sound s) : 0 < tradeVolume a b := by
  have ha := (hs.resting .Sale a (h.top_sale ▸ mem_book_top h.isEmpty_sale)).volume_pos
  have hb := (hs.resting .Buy b (h.top_buy ▸ mem_book_top h.isEmpty_buy)).volume_pos
  unfold tradeVolume
  omega

theorem Fill.tradeVolume_pos {s t : ContractEngine Q} {o a : CompactOrderLog} (h : Fill s o t a)
    (hs : Sound s) : 0 < tradeVolumeWith o a := by
  have ha := (hs.resting _ a (h.top_opposite ▸ mem_book_top h.isEmpty_opposite)).volume_pos
  have ho := h.volume_pos
  rw [tradeVolumeWith_eq_min]
  omega

end ContractEngine
end MatchingEngine
