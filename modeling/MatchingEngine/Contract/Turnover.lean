import Mathlib
import MatchingEngine.Contract.Position
import MatchingEngine.Contract.Release

/-!
# The turnover of the own orders

Trades between two own orders move the position off the target, but they do not make the engine
trade more than it has planned: on each side, what the own orders have traded and what rests of
them is what the release has brought into the book, and that is at most what the alphas have
moved the target to that side.

## Main definitions

* `ownFilled history d` — what the own orders of side `d` have traded.
* `releasedVolume s d`, `plannedVolume s d` — the volume of the entries of direction `d`.
* `moved d target targets` — how far the alphas move the target to side `d`.
* `turnover target targets` — how far they move it.
* `own_turnover` — what is traded, rests and is planned.
-/

namespace MatchingEngine

/-- The volume of a trade, if the order on side `d` is an own one. -/
def Event.ownFilled (d : Direction) : Event → ℤ
  | .trade saleOrder buyOrder _ tradeVolume _ => portion CompactOrderLog.IsOwn
      (match d with | .Sale => saleOrder | .Buy => buyOrder) tradeVolume
  | _ => 0

/-- What the own orders of side `d` have traded. -/
def ownFilled (history : List Event) (d : Direction) : ℤ :=
  (history.map (Event.ownFilled d)).sum

@[simp] theorem ownFilled_append (history : List Event) (e : Event) (d : Direction) :
    ownFilled (history ++ [e]) d = ownFilled history d + e.ownFilled d := by
  simp [ownFilled]

/-- The volume of a TWAP entry, if its direction is `d`. -/
def directedVolume (d : Direction) (o : CompactOrderLog) : ℤ :=
  portion (fun o => o.twapDirection = some d) o o.volume

namespace ContractEngine

/-- How far the targets, one after the other, move a target to side `d`. -/
def moved (d : Direction) : ℤ → List ℤ → ℤ
  | _, [] => 0
  | target, next :: targets => max 0 (d.sign * (next - target)) + moved d next targets

/-- How far the targets move a target to either side. -/
def turnover : ℤ → List ℤ → ℤ
  | _, [] => 0
  | target, next :: targets => |next - target| + turnover next targets

theorem moved_add_moved (targets : List ℤ) (target : ℤ) :
    moved .Sale target targets + moved .Buy target targets = turnover target targets := by
  induction targets generalizing target with
  | nil => rfl
  | cons next targets ih =>
    have hstep : max 0 (Direction.Sale.sign * (next - target)) +
        max 0 (Direction.Buy.sign * (next - target)) = |next - target| := by
      simp only [Direction.sign]
      rcases abs_cases (next - target) with ⟨habs, h⟩ | ⟨habs, h⟩ <;> rw [habs] <;> omega
    rw [moved, moved, turnover, ← ih, ← hstep]
    ring

theorem turnover_le_add (targets : List ℤ) (target target' : ℤ) :
    turnover target targets ≤ |target' - target| + turnover target' targets := by
  cases targets with
  | nil => exact (abs_nonneg _).trans_eq (add_zero _).symm
  | cons next targets =>
    rw [turnover, turnover, ← add_assoc]
    have htriangle := abs_sub_le next target' target
    omega

/-- Fewer targets move a target less. -/
theorem turnover_sublist {targets targets' : List ℤ} (h : targets.Sublist targets') (target : ℤ) :
    turnover target targets ≤ turnover target targets' := by
  induction h generalizing target with
  | slnil => exact le_rfl
  | cons next _ ih => exact (turnover_le_add _ target next).trans (add_le_add_right (ih next) _)
  | cons_cons next _ ih => exact add_le_add_right (ih next) _

/-- The targets of the alphas among the calls. -/
def targets (ops : List Op) : List ℤ := (ops.filterMap Op.alpha?).map CompactAlpha.targetVolume

variable {Q : Direction → Type} [OrderQueue Q]

omit [OrderQueue Q] in
/-- The volume of the entries of direction `d`. -/
def plannedVolume (s : ContractEngine Q) (d : Direction) : ℤ :=
  (s.twapOrders.map (directedVolume d)).sum

variable [LawfulOrderQueue Q]

/-- The volume of the entries of direction `d` that the release has passed. -/
def releasedVolume (s : ContractEngine Q) (d : Direction) : ℤ :=
  (s.passedEntries.map (directedVolume d)).sum

/-- What has been released is what has been traded and what rests. -/
structure Filled (s : ContractEngine Q) : Prop where
  balance : ∀ d, ownFilled s.history d + s.ownVolume d = s.releasedVolume d
  volume_pos : ∀ e ∈ s.history, ∀ a b p v n, e = .trade a b p v n → 0 < v

theorem filled_new (sessionNum sessionLength : ℤ) (info : CompactPrevTradeInfo)
    (instrument : UInt64) :
    Filled (new sessionNum sessionLength info instrument : ContractEngine Q) := by
  refine ⟨fun d => ?_, fun e he => absurd he List.not_mem_nil⟩
  have hbook : (new sessionNum sessionLength info instrument : ContractEngine Q).book d = 0 :=
    LawfulOrderQueue.contents_new d
  rw [ownVolume, hbook]
  simp [releasedVolume, passedEntries, ownFilled, new]

/-! ## The steps -/

section steps
variable {s t : ContractEngine Q} (hs : Filled s)
include hs

theorem Filled.insertAlpha (h : s.plan.Valid) (alpha : CompactAlpha) :
    Filled (s.insertAlpha alpha) := by
  have hreleased : ∀ d, (s.insertAlpha alpha).releasedVolume d = s.releasedVolume d := fun d => by
    rw [releasedVolume, passedEntries_insertAlpha h, releasedVolume]
  refine ⟨fun d => ?_, ?_⟩
  · rw [hreleased, insertAlpha_eq]
    exact hs.balance d
  · rw [insertAlpha_eq]
    exact hs.volume_pos

/-- An event that is no trade of an own order. -/
theorem Filled.extend {e : Event} (hhistory : t.history = s.history ++ [e])
    (he : ∀ a b p v n, e = .trade a b p v n → 0 < v)
    (hbalance : ∀ d, e.ownFilled d + t.ownVolume d = s.ownVolume d)
    (hreleased : ∀ d, t.releasedVolume d = s.releasedVolume d) : Filled t := by
  refine ⟨fun d => ?_, fun e' he' => ?_⟩
  · rw [hhistory, ownFilled_append, hreleased, ← hs.balance, ← hbalance]
    ring
  · rw [hhistory] at he'
    rcases List.mem_append.mp he' with he' | he'
    · exact hs.volume_pos e' he'
    · rw [List.mem_singleton.mp he']
      exact he

theorem Filled.log {e : Event} (he : ∀ a b p v n, e ≠ .trade a b p v n) : Filled (s.log e) := by
  refine hs.extend (history_log ..) (fun a b p v n h => absurd h (he a b p v n)) (fun d => ?_)
    fun _ => rfl
  have hown : (s.log e).ownVolume d = s.ownVolume d := rfl
  cases e with
  | trade a b p v n => exact absurd rfl (he a b p v n)
  | insert | immediate | discard => exact (zero_add _).trans hown

theorem Filled.insertOrder {d : Direction} {o : CompactOrderLog} (ho : ¬ o.IsOwn) :
    Filled (s.insertOrder d o) :=
  hs.extend (history_insertOrder ..) (fun _ _ _ _ _ h => by cases h)
    (fun e => (zero_add _).trans (ownVolume_insertOrder_of_not_isOwn ho e)) fun _ => rfl

/-- An entry is released with its volume, and enters the book with it. -/
theorem Filled.enterTwap (h : s.plan.Valid) {o : CompactOrderLog}
    (ho : s.twapOrders[s.twapHead]? = some o) : Filled (s.enterTwap o) := by
  obtain ⟨d, hd, henter⟩ := enterTwap_eq h ho
  have hown : (s.priced o).IsOwn := (h.planned_head ho).isOwn
  have hreleased : ∀ e, (s.passTwap o).releasedVolume e =
      s.releasedVolume e + if d = e then o.volume else 0 := fun e => by
    have hentry : directedVolume e (s.priced o) = if d = e then o.volume else 0 := by
      have hiff : (s.priced o).twapDirection = some e ↔ d = e := by
        change o.twapDirection = some e ↔ d = e
        rw [hd, Option.some.injEq]
      rw [directedVolume, portion, if_congr hiff rfl rfl]
      rfl
    rw [releasedVolume, passedEntries_passTwap ho, List.map_append, List.sum_append, List.map_singleton,
      List.sum_singleton, hentry, releasedVolume]
  rw [henter]
  by_cases hvol : o.volume = 0
  · rw [if_neg (not_not.mpr hvol)]
    refine ⟨fun e => ?_, hs.volume_pos⟩
    rw [hreleased, hvol, ite_self, add_zero]
    exact hs.balance e
  · rw [if_pos hvol]
    refine ⟨fun e => ?_, fun e' he' => ?_⟩
    · have hinsert : ((s.passTwap o).insertOrder d (s.priced o)).ownVolume e =
          s.ownVolume e + if d = e then o.volume else 0 := by
        by_cases he : d = e
        · subst he
          rw [if_pos rfl, ownVolume, volumeOf_book_insertOrder_self, portion_isOwn_named,
            if_pos hown, add_comm]
          rfl
        · rw [if_neg he, add_zero, ownVolume, book_insertOrder_of_ne _ _ (Ne.symm he)]
          rfl
      have hkept : ((s.passTwap o).insertOrder d (s.priced o)).releasedVolume e =
          (s.passTwap o).releasedVolume e := rfl
      rw [hinsert, hkept, hreleased, history_insertOrder, ownFilled_append, ← hs.balance]
      simp only [Event.ownFilled, passTwap]
      ring
    · rw [history_insertOrder] at he'
      rcases List.mem_append.mp he' with he' | he'
      · exact hs.volume_pos e' he'
      · rw [List.mem_singleton.mp he']
        exact fun _ _ _ _ _ h => by cases h

omit hs [OrderQueue Q] [LawfulOrderQueue Q] in
theorem releasedVolume_congr (h : t.plan = s.plan) (d : Direction) :
    t.releasedVolume d = s.releasedVolume d := by
  have horders : t.twapOrders = s.twapOrders := congrArg Plan.twapOrders h
  have hhead : t.twapHead = s.twapHead := congrArg Plan.twapHead h
  rw [releasedVolume, passedEntries, horders, hhead]
  rfl

theorem Filled.cross {a b : CompactOrderLog} (h : Cross s t a b) (hpos : 0 < tradeVolume a b) :
    Filled t := by
  have hown : ∀ (o : CompactOrderLog) v, (o.reduce v).IsOwn ↔ o.IsOwn := fun o v => Iff.rfl
  refine hs.extend h.traded.history (fun _ _ _ _ _ he => ?_) (fun d => ?_)
    (releasedVolume_congr h.traded.plan)
  · cases he
    exact hpos
  · cases d with
    | Sale =>
      rw [ownVolume, h.volumeOf_sale hown]
      exact add_sub_cancel _ _
    | Buy =>
      rw [ownVolume, h.volumeOf_buy hown]
      exact add_sub_cancel _ _

theorem Filled.fill {o a : CompactOrderLog} (h : Fill s o t a) (ho : ¬ o.IsOwn)
    (hpos : 0 < tradeVolumeWith o a) : Filled t := by
  have hown : ∀ (o : CompactOrderLog) v, (o.reduce v).IsOwn ↔ o.IsOwn := fun o v => Iff.rfl
  have hopposite := h.volumeOf_opposite hown
  have hsame := h.book_own
  have hhistory := h.traded.history
  unfold tradeVolumeWith roles at hpos hopposite
  unfold roles at hhistory
  refine hs.extend hhistory (fun _ _ _ _ _ he => ?_) (fun d => ?_) (releasedVolume_congr h.traded.plan)
  · cases he
    exact hpos
  · cases hd : o.direction with
    | Sale =>
      simp only [hd, Direction.opposite] at hopposite hsame ⊢
      cases d with
      | Sale =>
        rw [ownVolume, hsame, Event.ownFilled, portion, if_neg ho, zero_add, ownVolume]
      | Buy =>
        rw [ownVolume, hopposite]
        exact add_sub_cancel _ _
    | Buy =>
      simp only [hd, Direction.opposite] at hopposite hsame ⊢
      cases d with
      | Sale =>
        rw [ownVolume, hopposite]
        exact add_sub_cancel _ _
      | Buy =>
        rw [ownVolume, hsame, Event.ownFilled, portion, if_neg ho, zero_add, ownVolume]

theorem Filled.same (h : SameBook s t) : Filled t := by
  have hown : ∀ d, t.ownVolume d = s.ownVolume d := fun d => congrArg _ (h.book d)
  have hhistory : t.history = s.history := by rw [h.scalars]
  have hplan : t.plan = s.plan := by rw [h.scalars]; rfl
  refine ⟨fun d => ?_, hhistory ▸ hs.volume_pos⟩
  rw [hhistory, hown, releasedVolume_congr hplan]
  exact hs.balance d

end steps

theorem filled_kept : Kept (fun s : ContractEngine Q => Sound s ∧ Filled s)
    (fun o => 0 < o.volume) fun s o => Sound.With s o ∧ Filled s where
  alpha _ alpha hs := ⟨hs.1.insertAlpha alpha, hs.2.insertAlpha hs.1.valid alpha⟩
  enter _ _ hs ho := ⟨hs.1.enterTwap ho, hs.2.enterTwap hs.1.valid ho⟩
  insert _ o p hs hvol htype := ⟨hs.1.insertOrder hvol rfl, hs.2.insertOrder fun hown => by
    change o.type = _ at hown
    rw [hown] at htype
    exact absurd htype (by decide)⟩
  cross _ _ _ _ hs h := ⟨hs.1.cross h, hs.2.cross h (h.tradeVolume_pos hs.1)⟩
  arrive _ _ hs hvol _ htype :=
    ⟨hs.1.arrive hvol htype, hs.2.log fun _ _ _ _ _ h => by cases h⟩
  fill := {
    fill := fun _ _ _ _ hs h =>
      ⟨hs.1.fill h, hs.2.fill h hs.1.not_isOwn (h.tradeVolume_pos hs.1.sound)⟩
    same := fun _ _ _ hs h => ⟨hs.1.same h, hs.2.same h⟩ }
  finish _ o hs :=
    ⟨hs.1.sound.log (.discard o), hs.2.log fun _ _ _ _ _ h => by cases h⟩

/-! ## What is planned -/

theorem directedVolume_nonneg (d : Direction) {o : CompactOrderLog} (h : 0 ≤ o.volume) :
    0 ≤ directedVolume d o := portion_nonneg _ h

/-- What is released is a part of what is planned. -/
theorem Sound.releasedVolume_le {s : ContractEngine Q} (h : Sound s) (d : Direction) :
    s.releasedVolume d ≤ s.plannedVolume d := by
  have hrest : 0 ≤ ((s.twapOrders.drop s.twapHead).map (directedVolume d)).sum := by
    refine List.sum_nonneg fun v hv => ?_
    obtain ⟨o, ho, rfl⟩ := List.mem_map.mp hv
    exact directedVolume_nonneg d (h.valid.planned o (List.mem_of_mem_drop ho)).volume_nonneg
  have hsplit : s.plannedVolume d =
      s.releasedVolume d + ((s.twapOrders.drop s.twapHead).map (directedVolume d)).sum := by
    rw [plannedVolume, releasedVolume, passedEntries, ← List.sum_append, ← List.map_append,
      List.take_append_drop]
  omega

omit [OrderQueue Q] [LawfulOrderQueue Q] in
theorem plannedVolume_eq (s : ContractEngine Q) (d : Direction) :
    s.plannedVolume d = (s.plan.assigned.map (directedVolume d)).sum := by
  rw [plannedVolume, Plan.assigned, List.map_map]
  rfl

omit [OrderQueue Q] [LawfulOrderQueue Q] in
/-- The slices of an alpha move the target to one side. -/
theorem sum_directedVolume_slices {s : ContractEngine Q} (hn : 0 < s.sessionNum)
    (alpha : CompactAlpha) (d : Direction) :
    ((s.slices alpha).map (directedVolume d)).sum =
      max 0 (d.sign * (alpha.targetVolume - s.targetVolume)) := by
  have hsum := sum_slices hn alpha
  rw [List.map_congr_left fun o ho => signedVolume_of_mem_slices ho, List.sum_map_mul_left] at hsum
  have hentry : (s.slices alpha).map (directedVolume d) = (s.slices alpha).map fun o =>
      (if s.alphaDirection alpha = d then 1 else 0) * o.volume := by
    refine List.map_congr_left fun o ho => ?_
    have hiff : o.twapDirection = some d ↔ s.alphaDirection alpha = d := by
      rw [twapDirection_of_mem_slices ho, Option.some.injEq]
    rw [directedVolume, portion, if_congr hiff rfl rfl, ite_mul, one_mul, zero_mul]
  have hnonneg : 0 ≤ ((s.slices alpha).map CompactOrderLog.volume).sum :=
    List.sum_nonneg fun v hv => by
      obtain ⟨o, ho, rfl⟩ := List.mem_map.mp hv
      exact (planned_of_mem_slices ho).volume_nonneg
  rw [hentry, List.sum_map_mul_left, ← hsum]
  generalize ((s.slices alpha).map CompactOrderLog.volume).sum = total at hnonneg
  generalize s.alphaDirection alpha = e
  cases d <;> cases e <;> simp [Direction.sign, hnonneg]

/-- An order log, or the last release, plans nothing. -/
theorem plannedVolume_apply (s : ContractEngine Q) {op : Op} (hop : op.alpha? = none) (d : Direction) :
    (s.apply op).plannedVolume d = s.plannedVolume d := by
  have hassigned : (s.apply op).plan.assigned = s.plan.assigned := by
    cases op with
    | insertAlpha alpha => cases hop
    | insertOrderLog o => exact assigned_insertOrderLog s o
    | onComplete => exact assigned_release maxInt s
  rw [plannedVolume_eq, hassigned, plannedVolume_eq]

/-- The alphas plan as much as they move the target. -/
theorem plannedVolume_run (ops : List Op) {s : ContractEngine Q} (hn : 0 < s.sessionNum)
    (d : Direction) : (s.run ops).plannedVolume d =
      s.plannedVolume d + moved d s.targetVolume (targets ops) := by
  induction ops generalizing s with
  | nil => exact (add_zero _).symm
  | cons op ops ih =>
    rw [run_cons]
    cases hop : op.alpha? with
    | none =>
      obtain ⟨-, htarget, hnum, -⟩ := timestamps_apply s hop
      rw [targets, List.filterMap_cons_none hop, ← targets, ih (hnum ▸ hn),
        plannedVolume_apply s hop, htarget]
    | some alpha =>
      obtain rfl : op = .insertAlpha alpha := by
        cases op <;> cases hop
        rfl
      have hplanned : (s.insertAlpha alpha).plannedVolume d =
          s.plannedVolume d + max 0 (d.sign * (alpha.targetVolume - s.targetVolume)) := by
        rw [insertAlpha_eq, ← sum_directedVolume_slices hn, plannedVolume, plannedVolume, List.map_append,
          List.sum_append]
      have htarget : (s.insertAlpha alpha).targetVolume = alpha.targetVolume := by
        rw [insertAlpha_eq]
      have hnum : (s.insertAlpha alpha).sessionNum = s.sessionNum := by rw [insertAlpha_eq]
      rw [targets, List.filterMap_cons_some hop, List.map_cons, ← targets, moved, apply,
        ih (hnum.symm ▸ hn), hplanned, htarget, add_assoc]

/-- In every reachable state what is released is what is traded and what rests. -/
theorem filled_run (sessionNum sessionLength : ℤ) (info : CompactPrevTradeInfo)
    (instrument : UInt64) {ops : List Op} (hok : LogsSatisfy (fun o => 0 < o.volume) ops) :
    Sound ((new sessionNum sessionLength info instrument : ContractEngine Q).run ops) ∧
      Filled ((new sessionNum sessionLength info instrument : ContractEngine Q).run ops) :=
  filled_kept.run ⟨sound_new .., filled_new ..⟩ hok

/-- **The own orders trade what is planned, and no more.**  On each side, in every reachable state,
what they have traded and what rests of them is what has been released, which is no more than what
the alphas have moved the target to that side, and after `onComplete` it is all of it. -/
theorem own_turnover {sessionNum : ℤ} (hn : 0 < sessionNum) (sessionLength : ℤ)
    (info : CompactPrevTradeInfo) (instrument : UInt64) {ops : List Op}
    (hok : LogsSatisfy (fun o => 0 < o.volume) ops) (d : Direction) :
    let s := (new sessionNum sessionLength info instrument : ContractEngine OrderHeap).run ops
    0 ≤ s.ownVolume d ∧ ownFilled s.history d + s.ownVolume d = s.releasedVolume d ∧
      s.releasedVolume d ≤ moved d info.prevPosition (targets ops) ∧
      ((∀ alpha ∈ effectiveAlphas info.prevPosition (ops.filterMap Op.alpha?),
          ∀ time ∈ sliceTimes sessionNum sessionLength alpha, time < maxInt) →
        ownFilled s.onComplete.history d + s.onComplete.ownVolume d =
          moved d info.prevPosition (targets ops)) := by
  intro s
  obtain ⟨hsound, hfilled⟩ : Sound s ∧ Filled s :=
    filled_run sessionNum sessionLength info instrument hok
  have hplanned : s.plannedVolume d = moved d info.prevPosition (targets ops) :=
    (plannedVolume_run ops hn d).trans (zero_add _)
  refine ⟨volumeOf_nonneg _ fun o ho => (hsound.resting _ o ho).volume_pos.le, hfilled.balance d,
    hplanned ▸ hsound.releasedVolume_le d, fun hmax => ?_⟩
  have hreleased : Released s := released_kept.run (released_new ..) fun _ _ => trivial
  have htimes : s.plan.timestamps =
      (effectiveAlphas info.prevPosition (ops.filterMap Op.alpha?)).flatMap
        (sliceTimes sessionNum sessionLength) :=
    (timestamps_run ops _).trans (List.nil_append _)
  have hhead := twapHead_onComplete hreleased fun time htime => by
    rw [htimes] at htime
    obtain ⟨alpha, halpha, htime⟩ := List.mem_flatMap.mp htime
    exact hmax alpha halpha time htime
  have hall : s.onComplete.releasedVolume d = s.onComplete.plannedVolume d := by
    rw [releasedVolume, passedEntries, hhead, twapSize, List.take_length, plannedVolume]
  have hcomplete := (filled_kept.settles.release maxInt ⟨hsound, hfilled⟩).2.balance d
  have hsame : s.onComplete.plannedVolume d = s.plannedVolume d :=
    plannedVolume_apply s (show Op.onComplete.alpha? = none from rfl) d
  exact hcomplete.trans (hall.trans (hsame.trans hplanned))

/-- The target goes up by 3 and down by 2; an own buy and an own sale trade with each other. -/
theorem own_turnover_of_self_trade :
    let ops : List Op := [.insertAlpha ⟨0, 3⟩, .insertAlpha ⟨1, 1⟩, .insertOrderLog ⟨5, 1, 0, 0, 0⟩]
    let s := (new 1 1 ⟨10, 0⟩ 1 : ContractEngine OrderHeap).run ops
    selfTraded s.history = 2 ∧
      ownFilled s.onComplete.history .Buy + s.onComplete.ownVolume .Buy = 3 ∧
      ownFilled s.onComplete.history .Sale + s.onComplete.ownVolume .Sale = 2 := by
  intro ops s
  have hok : LogsSatisfy (fun o => 0 < o.volume) ops := by decide
  have hrun := fun d => (own_turnover (by decide : (0 : ℤ) < 1) 1 ⟨10, 0⟩ 1 hok d).2.2.2
    (by decide)
  exact ⟨by decide +kernel, hrun .Buy, hrun .Sale⟩

end ContractEngine
end MatchingEngine
