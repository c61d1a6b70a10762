import Mathlib
import MatchingEngine.Lib.Cursor
import MatchingEngine.Contract.Sound

/-!
# The release of the TWAP orders

`twapHead` is a cursor over the TWAP array.  Releasing an entry writes its price and
nothing else; an entry with volume is inserted once, in array order, and after
`onComplete` none is left.  The cursor is on time after an order just if the alphas whose
slices are due do not overlap.

## Main definitions

* `unpriced` — an entry as `insertAlpha` makes it.
* `effectiveAlphas` — the alphas that change the target.
* `ownInserts` — the own orders that entered a heap, as the history has them.
* `onTime_iff_not_overlapping` — when the release is on time.
* `plan_complete` — the plan is complete, fair and never lost.
-/

namespace MatchingEngine
namespace ContractEngine
variable {Q : Direction → Type} [OrderQueue Q] [LawfulOrderQueue Q]

/-! ## What a release leaves as it is -/

/-- An entry without the price that the release writes. -/
def unpriced (o : CompactOrderLog) : CompactOrderLog := { o with price := 0 }

/-- The entries as `insertAlpha` made them. -/
def Plan.assigned (p : Plan) : List CompactOrderLog := p.twapOrders.map unpriced

omit [LawfulOrderQueue Q] in
theorem assigned_enterTwap {s : ContractEngine Q} {o : CompactOrderLog}
    (ho : s.twapOrders[s.twapHead]? = some o) :
    (s.enterTwap o).plan.assigned = s.plan.assigned := by
  obtain ⟨hlt, rfl⟩ := List.getElem?_eq_some_iff.mp ho
  have hlt' : s.twapHead < (s.twapOrders.map unpriced).length := by simpa using hlt
  have hsame : unpriced (s.priced s.twapOrders[s.twapHead]) =
      (s.twapOrders.map unpriced)[s.twapHead] := by
    rw [List.getElem_map]
    rfl
  rw [plan_enterTwap]
  simp only [Plan.assigned, plan, List.map_set]
  rw [hsame, List.set_getElem_self]

/-- The plan of a release: nothing but prices and the head change. -/
theorem assigned_release (currentTime : ℤ) (s : ContractEngine Q) :
    (s.processTwapOrdersIfNecessary currentTime).plan.assigned = s.plan.assigned :=
  processTwapOrdersIfNecessary_invariant (fun t => t.plan.assigned = s.plan.assigned)
    (fun t o ht ho _ => by rw [plan_processTrade, assigned_enterTwap ho, ht]) rfl

/-- A release changes no field of the plan but the entries and the head. -/
theorem plan_release (currentTime : ℤ) (s : ContractEngine Q) :
    (s.processTwapOrdersIfNecessary currentTime).plan = { s.plan with
      twapOrders := (s.processTwapOrdersIfNecessary currentTime).twapOrders
      twapHead := (s.processTwapOrdersIfNecessary currentTime).twapHead } := by
  refine processTwapOrdersIfNecessary_invariant (fun t => t.plan = { s.plan with
    twapOrders := t.twapOrders, twapHead := t.twapHead }) (fun t o ht _ _ => ?_) rfl
  have hplan := plan_releaseTwap t o
  rw [ht] at hplan
  have horders := congrArg Plan.twapOrders hplan
  have hhead := congrArg Plan.twapHead hplan
  simp only [plan] at horders hhead
  rw [hplan, horders, hhead]

theorem assigned_insertOrderLog (s : ContractEngine Q) (o : CompactOrderLog) :
    (s.insertOrderLog o).plan.assigned = s.plan.assigned := by
  rw [plan_insertOrderLog, assigned_release]

/-- The times of the entries. -/
def Plan.timestamps (p : Plan) : List ℤ := p.twapOrders.map CompactOrderLog.timestamp

theorem Plan.timestamps_eq (p : Plan) :
    p.timestamps = p.assigned.map CompactOrderLog.timestamp := by
  rw [timestamps, assigned, List.map_map]
  rfl

theorem timestamps_releaseTwap {s : ContractEngine Q} {o : CompactOrderLog}
    (ho : s.twapOrders[s.twapHead]? = some o) :
    (s.enterTwap o).processTrade.plan.timestamps = s.plan.timestamps := by
  rw [plan_processTrade, Plan.timestamps_eq, assigned_enterTwap ho, ← Plan.timestamps_eq]

/-! ## Where the head stops -/

/-- Every entry before the head is before `t`. -/
def Plan.PassedBefore (p : Plan) (t : ℤ) : Prop :=
  p.twapHead ≤ p.twapOrders.length ∧ ∀ i x, p.timestamps[i]? = some x → i < p.twapHead → x < t

/-- A release stops the cursor at its time. -/
theorem stopsAt_release {s : ContractEngine Q} {currentTime : ℤ}
    (hs : s.plan.PassedBefore currentTime) :
    Cursor.StopsAt s.plan.timestamps currentTime
      (s.processTwapOrdersIfNecessary currentTime).plan.twapHead := by
  have hkept : (s.processTwapOrdersIfNecessary currentTime).plan.timestamps = s.plan.timestamps ∧
      (s.processTwapOrdersIfNecessary currentTime).plan.PassedBefore currentTime := by
    refine processTwapOrdersIfNecessary_invariant
      (fun t => t.plan.timestamps = s.plan.timestamps ∧ t.plan.PassedBefore currentTime)
      (fun t o ⟨htimes, _, hpassed⟩ ho hlt => ?_) ⟨rfl, hs⟩
    have hhead := (List.getElem?_eq_some_iff.mp ho).1
    have hsame := timestamps_releaseTwap ho
    refine ⟨hsame.trans htimes, ?_, fun i x hx hi => ?_⟩
    · rw [plan_releaseTwap]
      simpa [plan] using hhead
    · rw [hsame] at hx
      rw [plan_releaseTwap] at hi
      -- The entry just passed is the one at the old head.
      rcases Nat.lt_succ_iff_lt_or_eq.mp hi with hi | rfl
      · exact hpassed i x hx hi
      · have hx' : t.plan.timestamps[t.twapHead]? = some o.timestamp := by
          rw [Plan.timestamps, List.getElem?_map]
          exact congrArg _ ho
        rw [hx', Option.some.injEq] at hx
        exact hx ▸ hlt
  obtain ⟨htimes, hle, hpassed⟩ := hkept
  refine ⟨?_, fun i x hx hi => hpassed i x (htimes ▸ hx) hi, fun x hx => ?_⟩
  · have hlen := congrArg List.length htimes
    simp only [Plan.timestamps, List.length_map] at hlen ⊢
    omega
  · have hdone := twapStep_eq_none.mp (processTwapOrdersIfNecessary_done currentTime s)
    rw [← htimes, Plan.timestamps, List.getElem?_map, Option.map_eq_some_iff] at hx
    obtain ⟨o, ho, rfl⟩ := hx
    exact hdone o ho

/-! ## The array after the alphas -/

/-- The alphas that change the target, which is `target` before them. -/
def effectiveAlphas : ℤ → List CompactAlpha → List CompactAlpha
  | _, [] => []
  | target, alpha :: alphas =>
    if alpha.targetVolume = target then effectiveAlphas target alphas
    else alpha :: effectiveAlphas alpha.targetVolume alphas

theorem mem_of_mem_effectiveAlphas {alpha : CompactAlpha} {alphas : List CompactAlpha} {target : ℤ}
    (h : alpha ∈ effectiveAlphas target alphas) : alpha ∈ alphas := by
  induction alphas generalizing target with
  | nil => cases h
  | cons first alphas ih =>
    rw [effectiveAlphas] at h
    split at h
    · exact List.mem_cons_of_mem _ (ih h)
    · exact (List.mem_cons.mp h).elim (fun heq => heq ▸ List.mem_cons_self)
        fun h => List.mem_cons_of_mem _ (ih h)

/-- The alpha with `c` taken off its time. -/
def advance (c : ℤ) (alpha : CompactAlpha) : CompactAlpha :=
  ⟨alpha.timestamp - c, alpha.targetVolume⟩

/-- Whether an alpha changes the target does not depend on its time. -/
theorem effectiveAlphas_advance (c : ℤ) (alphas : List CompactAlpha) (target : ℤ) :
    effectiveAlphas target (alphas.map (advance c)) =
      (effectiveAlphas target alphas).map (advance c) := by
  induction alphas generalizing target with
  | nil => rfl
  | cons first alphas ih =>
    have htarget : (advance c first).targetVolume = first.targetVolume := rfl
    rw [List.map_cons, effectiveAlphas, effectiveAlphas, htarget, ih, ih]
    split <;> rfl

/-- The times of the slices of an alpha. -/
def sliceTimes (sessionNum sessionLength : ℤ) (alpha : CompactAlpha) : List ℤ :=
  (List.range sessionNum.toNat).map fun i : ℕ => alpha.timestamp + i * sessionLength * 1000

/-- The slices of an earlier alpha are earlier. -/
theorem sliceTimes_advance (sessionNum sessionLength c : ℤ) (alpha : CompactAlpha) :
    sliceTimes sessionNum sessionLength (advance c alpha) =
      (sliceTimes sessionNum sessionLength alpha).map fun time => time - c := by
  rw [sliceTimes, sliceTimes, List.map_map]
  exact List.map_congr_left fun i _ => by simp only [advance, Function.comp_apply]; ring

omit [OrderQueue Q] [LawfulOrderQueue Q] in
theorem timestamps_slices (s : ContractEngine Q) (alpha : CompactAlpha) :
    (s.slices alpha).map CompactOrderLog.timestamp =
      if alpha.targetVolume = s.targetVolume then []
      else sliceTimes s.sessionNum s.sessionLength alpha := by
  unfold slices
  split
  · rfl
  · rw [List.map_map]
    rfl

/-- The alpha of a call. -/
def Op.alpha? : Op → Option CompactAlpha
  | .insertAlpha alpha => some alpha
  | _ => none

/-- An order log, or the last release, is a release as far as the array is concerned. -/
theorem timestamps_apply (s : ContractEngine Q) {op : Op} (hop : op.alpha? = none) :
    (s.apply op).plan.timestamps = s.plan.timestamps ∧
      (s.apply op).targetVolume = s.targetVolume ∧ (s.apply op).sessionNum = s.sessionNum ∧
      (s.apply op).sessionLength = s.sessionLength := by
  obtain ⟨currentTime, h⟩ : ∃ currentTime,
      (s.apply op).plan = (s.processTwapOrdersIfNecessary currentTime).plan := by
    cases op with
    | insertAlpha alpha => cases hop
    | insertOrderLog o => exact ⟨_, plan_insertOrderLog s o⟩
    | onComplete => exact ⟨_, rfl⟩
  have hplan := h.trans (plan_release currentTime s)
  refine ⟨?_, congrArg Plan.targetVolume hplan, congrArg Plan.sessionNum hplan,
    congrArg Plan.sessionLength hplan⟩
  rw [h, Plan.timestamps_eq, assigned_release, ← Plan.timestamps_eq]

/-- The alphas write the slices of the effective ones into the array, one after the other. -/
theorem timestamps_run (ops : List Op) (s : ContractEngine Q) :
    (s.run ops).plan.timestamps = s.plan.timestamps ++
      (effectiveAlphas s.targetVolume (ops.filterMap Op.alpha?)).flatMap
        (sliceTimes s.sessionNum s.sessionLength) := by
  induction ops generalizing s with
  | nil => simp [effectiveAlphas, run_nil]
  | cons op ops ih =>
    rw [run_cons, ih]
    cases hop : op.alpha? with
    | none =>
      obtain ⟨htimes, htarget, hnum, hlength⟩ := timestamps_apply s hop
      rw [List.filterMap_cons_none hop, htimes, htarget, hnum, hlength]
    | some alpha =>
      obtain rfl : op = .insertAlpha alpha := by
        cases op <;> cases hop
        rfl
      rw [List.filterMap_cons_some hop, effectiveAlphas, apply, insertAlpha_eq]
      simp only [Plan.timestamps, plan, List.map_append, timestamps_slices]
      by_cases h : alpha.targetVolume = s.targetVolume
      · rw [if_pos h, if_pos h, List.append_nil, h]
      · rw [if_neg h, if_neg h, List.flatMap_cons, List.append_assoc]

theorem timestamps_run_insertAlpha (alphas : List CompactAlpha) (s : ContractEngine Q) :
    (s.run (alphas.map .insertAlpha)).plan.timestamps = s.plan.timestamps ++
      (effectiveAlphas s.targetVolume alphas).flatMap (sliceTimes s.sessionNum s.sessionLength) := by
  have halphas : (alphas.map Op.insertAlpha).filterMap Op.alpha? = alphas := by
    rw [List.filterMap_map]
    exact List.filterMap_some
  rw [timestamps_run, halphas]

omit [LawfulOrderQueue Q] in
theorem twapHead_run_insertAlpha (alphas : List CompactAlpha) (s : ContractEngine Q) :
    (s.run (alphas.map .insertAlpha)).twapHead = s.twapHead := by
  induction alphas generalizing s with
  | nil => rfl
  | cons alpha alphas ih => rw [List.map_cons, run_cons, ih, apply, insertAlpha_eq]

/-! ## When the release is on time -/

theorem Plan.PassedBefore.mono {p : Plan} {t u : ℤ} (h : p.PassedBefore t) (htu : t ≤ u) :
    p.PassedBefore u := ⟨h.1, fun i x hx hi => (h.2 i x hx hi).trans_le htu⟩

theorem timestamps_insertOrderLog (s : ContractEngine Q) (o : CompactOrderLog) :
    (s.insertOrderLog o).plan.timestamps = s.plan.timestamps :=
  (timestamps_apply s (show (Op.insertOrderLog o).alpha? = none from rfl)).1

/-- After an order log the cursor is stopped at the time of the log. -/
theorem stopsAt_insertOrderLog {s : ContractEngine Q} {o : CompactOrderLog}
    (hs : s.plan.PassedBefore o.timestamp) :
    Cursor.StopsAt (s.insertOrderLog o).plan.timestamps o.timestamp
      (s.insertOrderLog o).plan.twapHead := by
  rw [timestamps_insertOrderLog, plan_insertOrderLog]
  exact stopsAt_release hs

theorem passedBefore_insertOrderLog {s : ContractEngine Q} {o : CompactOrderLog}
    (hs : s.plan.PassedBefore o.timestamp) :
    (s.insertOrderLog o).plan.PassedBefore o.timestamp := by
  have hstop := stopsAt_insertOrderLog hs
  refine ⟨?_, hstop.passed⟩
  simpa [Plan.timestamps] using hstop.le_length

/-- Order logs that come in order of time leave passed what is before the time of the last. -/
theorem passedBefore_run {t : ℤ} (logs : List CompactOrderLog) (s : ContractEngine Q)
    (hsorted : logs.Pairwise fun a b => a.timestamp ≤ b.timestamp)
    (hs : ∀ o ∈ logs, s.plan.PassedBefore o.timestamp) (hst : s.plan.PassedBefore t)
    (ht : ∀ o ∈ logs, o.timestamp ≤ t) :
    (s.run (logs.map .insertOrderLog)).plan.PassedBefore t ∧
      (s.run (logs.map .insertOrderLog)).plan.timestamps = s.plan.timestamps := by
  induction logs generalizing s with
  | nil => exact ⟨hst, rfl⟩
  | cons o logs ih =>
    have hfirst := passedBefore_insertOrderLog (hs o List.mem_cons_self)
    rw [List.map_cons, run_cons, apply, ← timestamps_insertOrderLog s o]
    exact ih (s.insertOrderLog o) hsorted.of_cons
      (fun o' ho' => hfirst.mono (List.rel_of_pairwise_cons hsorted ho'))
      (hfirst.mono (ht o List.mem_cons_self)) fun o' ho' => ht o' (List.mem_cons_of_mem _ ho')

/-- Slices of two alphas are in order before `t` just if the first ends before the second
starts, or the second is not due. -/
theorem sliceTimes_inOrder_iff {sessionNum sessionLength : ℤ} (hn : 0 < sessionNum)
    (hlen : 0 ≤ sessionLength) (a b : CompactAlpha) (t : ℤ) :
    (∀ x ∈ sliceTimes sessionNum sessionLength a, ∀ y ∈ sliceTimes sessionNum sessionLength b,
        y < t → x ≤ y) ↔
      (b.timestamp < t → a.timestamp + (sessionNum - 1) * sessionLength * 1000 ≤ b.timestamp) := by
  constructor
  · intro h hb
    have hlast : a.timestamp + (sessionNum - 1) * sessionLength * 1000 ∈
        sliceTimes sessionNum sessionLength a :=
      List.mem_map.mpr ⟨(sessionNum - 1).toNat, List.mem_range.mpr (by omega), by
        rw [Int.toNat_of_nonneg (by omega)]⟩
    have hfirst : b.timestamp ∈ sliceTimes sessionNum sessionLength b :=
      List.mem_map.mpr ⟨0, List.mem_range.mpr (by omega), by simp⟩
    exact h _ hlast _ hfirst hb
  · intro h x hx y hy hyt
    obtain ⟨i, hi, rfl⟩ := List.mem_map.mp hx
    obtain ⟨j, -, rfl⟩ := List.mem_map.mp hy
    rw [List.mem_range] at hi
    have hj : 0 ≤ (j : ℤ) * sessionLength * 1000 := by positivity
    have hil : (i : ℤ) * sessionLength ≤ (sessionNum - 1) * sessionLength :=
      mul_le_mul_of_nonneg_right (by omega) hlen
    have := h (by omega)
    omega

theorem sliceTimes_sortedBefore {sessionNum sessionLength : ℤ} (hlen : 0 ≤ sessionLength)
    (a : CompactAlpha) (t : ℤ) :
    Cursor.SortedBefore t (sliceTimes sessionNum sessionLength a) := by
  refine List.pairwise_map.mpr (List.pairwise_lt_range.imp fun {i j} hij _ => ?_)
  have hle : (i : ℤ) * sessionLength ≤ j * sessionLength :=
    mul_le_mul_of_nonneg_right (by exact_mod_cast hij.le) hlen
  omega

/-- The entries due at `t` are released, no other one, and they were released in order. -/
def ReleasedOnTime (s : ContractEngine Q) (t : ℤ) : Prop :=
  (∀ i o, s.twapOrders[i]? = some o → (i < s.twapHead ↔ o.timestamp < t)) ∧
    ((s.twapOrders.take s.twapHead).map CompactOrderLog.timestamp).Pairwise (· ≤ ·)

omit [OrderQueue Q] [LawfulOrderQueue Q] in
theorem releasedOnTime_iff (s : ContractEngine Q) (t : ℤ) :
    ReleasedOnTime s t ↔ Cursor.OnTime s.plan.timestamps t s.plan.twapHead := by
  have htake : s.plan.timestamps.take s.plan.twapHead =
      (s.twapOrders.take s.twapHead).map CompactOrderLog.timestamp := List.map_take.symm
  constructor
  · rintro ⟨hiff, hsorted⟩
    refine ⟨fun i x hx => ?_, htake ▸ hsorted⟩
    rw [Plan.timestamps, List.getElem?_map, Option.map_eq_some_iff] at hx
    obtain ⟨o, ho, rfl⟩ := hx
    exact hiff i o ho
  · rintro ⟨hiff, hsorted⟩
    refine ⟨fun i o ho => hiff i _ ?_, htake ▸ hsorted⟩
    rw [Plan.timestamps, List.getElem?_map]
    exact congrArg _ ho

theorem session_pos {sessionNum sessionLength : ℤ} (h : (sessionNum, sessionLength) ∈ sessions) :
    0 < sessionNum ∧ 0 ≤ sessionLength := by
  have hall : ∀ p ∈ sessions, 0 < p.1 ∧ 0 ≤ p.2 := by decide
  exact hall _ h

/-- **The release is on time just if the alphas that are due do not overlap**: the last slice
of each is no later than the first slice of every due one after it. -/
theorem onTime_iff_not_overlapping {sessionNum sessionLength : ℤ}
    (hsession : (sessionNum, sessionLength) ∈ sessions) (info : CompactPrevTradeInfo)
    (instrument : UInt64) (alphas : List CompactAlpha) (logs : List CompactOrderLog)
    (o : CompactOrderLog)
    (hsorted : (logs ++ [o]).Pairwise fun a b => a.timestamp ≤ b.timestamp) :
    ReleasedOnTime ((new sessionNum sessionLength info instrument : ContractEngine OrderHeap).run
        (alphas.map .insertAlpha ++ (logs ++ [o]).map .insertOrderLog)) o.timestamp ↔
      (effectiveAlphas info.prevPosition alphas).Pairwise fun a b => b.timestamp < o.timestamp →
        a.timestamp + (sessionNum - 1) * sessionLength * 1000 ≤ b.timestamp := by
  obtain ⟨hn, hlen⟩ := session_pos hsession
  set s := (new sessionNum sessionLength info instrument : ContractEngine OrderHeap).run
    (alphas.map .insertAlpha) with hs
  have hpassed : ∀ t, s.plan.PassedBefore t := fun t => by
    have hhead : s.plan.twapHead = 0 := twapHead_run_insertAlpha alphas _
    refine ⟨by rw [hhead]; exact Nat.zero_le _, fun i x _ hi => ?_⟩
    rw [hhead] at hi
    exact absurd hi (Nat.not_lt_zero i)
  obtain ⟨hsortedLogs, -, hlast⟩ := List.pairwise_append.mp hsorted
  obtain ⟨hbefore, htimes⟩ := passedBefore_run (t := o.timestamp) logs s hsortedLogs
    (fun _ _ => hpassed _) (hpassed _) fun o' ho' => hlast o' ho' o (List.mem_singleton_self o)
  have hstop := stopsAt_insertOrderLog hbefore
  have harray : s.plan.timestamps = (effectiveAlphas info.prevPosition alphas).flatMap
      (sliceTimes sessionNum sessionLength) := timestamps_run_insertAlpha alphas _
  have hrun : (new sessionNum sessionLength info instrument : ContractEngine OrderHeap).run
      (alphas.map .insertAlpha ++ (logs ++ [o]).map .insertOrderLog) =
      (s.run (logs.map .insertOrderLog)).insertOrderLog o := by
    rw [run_append, List.map_append, run_append]
    rfl
  rw [hrun, releasedOnTime_iff, hstop.onTime_iff, timestamps_insertOrderLog, htimes, harray,
    Cursor.SortedBefore, List.pairwise_flatMap]
  constructor
  · rintro ⟨-, h⟩
    exact h.imp fun {a b} hab => (sliceTimes_inOrder_iff hn hlen a b _).mp hab
  · intro h
    exact ⟨fun a _ => sliceTimes_sortedBefore hlen a _,
      h.imp fun {a b} hab => (sliceTimes_inOrder_iff hn hlen a b _).mpr hab⟩

/-- Two alphas three seconds apart do not overlap in the session `(3, 1)`. -/
theorem releasedOnTime_of_spaced :
    ReleasedOnTime ((new 3 1 ⟨10, 0⟩ 1 : ContractEngine OrderHeap).run
      (([⟨0, 3⟩, ⟨3000, 0⟩] : List CompactAlpha).map .insertAlpha ++
        ([⟨1500, 1, 0, 0, 0⟩] ++ [⟨3500, 1, 0, 0, 0⟩] : List CompactOrderLog).map
          .insertOrderLog)) 3500 :=
  have hsession : ((3, 1) : ℤ × ℤ) ∈ sessions := by decide
  (onTime_iff_not_overlapping hsession ⟨10, 0⟩ 1 [⟨0, 3⟩, ⟨3000, 0⟩] [⟨1500, 1, 0, 0, 0⟩]
    ⟨3500, 1, 0, 0, 0⟩ (by decide)).mpr (by decide)

/-- Two alphas one second apart overlap: the first slice of the second is due, but waits
behind the last slice of the first. -/
theorem not_releasedOnTime_of_overlapping :
    ¬ ∀ (sessionNum sessionLength : ℤ) (info : CompactPrevTradeInfo) (instrument : UInt64)
      (alphas : List CompactAlpha) (logs : List CompactOrderLog) (o : CompactOrderLog),
      (sessionNum, sessionLength) ∈ sessions →
      (alphas.Pairwise fun a b => a.timestamp ≤ b.timestamp) →
      ((logs ++ [o]).Pairwise fun a b => a.timestamp ≤ b.timestamp) →
      ReleasedOnTime ((new sessionNum sessionLength info instrument : ContractEngine OrderHeap).run
        (alphas.map .insertAlpha ++ (logs ++ [o]).map .insertOrderLog)) o.timestamp := by
  intro h
  have hreleased := h 3 1 ⟨10, 0⟩ 1 [⟨0, 3⟩, ⟨1000, 6⟩] [] ⟨1500, 1, 0, 0, 0⟩
    (by decide) (by decide) (by decide)
  have hwaits := hreleased.1 3 ⟨1000, 1, 0, 14, 0⟩ (by decide +kernel)
  exact absurd hwaits (by decide +kernel)

/-! ## The plan is complete and never lost -/

/-- An order as it enters a heap, without its name. -/
def entry (d : Option Direction) (o : CompactOrderLog) : Option Direction × CompactOrderLog :=
  (d, { o with id := 0 })

/-- The own order that an event brings into a heap. -/
def ownInsert? : Event → Option (Option Direction × CompactOrderLog)
  | .insert d o => if o.IsOwn then some (entry (some d) o) else none
  | _ => none

/-- The own orders that entered a heap, with the side they entered. -/
def ownInserts (history : List Event) : List (Option Direction × CompactOrderLog) :=
  history.filterMap ownInsert?

@[simp] theorem ownInserts_append (history history' : List Event) :
    ownInserts (history ++ history') = ownInserts history ++ ownInserts history' :=
  List.filterMap_append

/-- The entries with volume among the first `n`, with the side of their direction. -/
def nonEmptyEntries (orders : List CompactOrderLog) :
    List (Option Direction × CompactOrderLog) :=
  (orders.filter fun o => o.volume ≠ 0).map fun o => entry o.twapDirection o

/-- The own orders that entered a heap are the released entries with volume, in array order. -/
structure Released (s : ContractEngine Q) : Prop where
  valid : s.plan.Valid
  ownInserts_eq : ownInserts s.history = nonEmptyEntries (s.twapOrders.take s.twapHead)

section Released
variable {s t : ContractEngine Q} (hs : Released s)
include hs
omit [LawfulOrderQueue Q]

omit [OrderQueue Q] in
theorem Released.insertAlpha (alpha : CompactAlpha) : Released (s.insertAlpha alpha) := by
  have hvalid := hs.valid.insertAlpha alpha
  have htake : (s.twapOrders ++ s.slices alpha).take s.twapHead =
      s.twapOrders.take s.twapHead := List.take_append_of_le_length hs.valid.head_le
  rw [insertAlpha_eq] at hvalid ⊢
  exact ⟨hvalid, by rw [htake]; exact hs.ownInserts_eq⟩

omit [OrderQueue Q] in
/-- An event that is no own arrival leaves the inserts as they are. -/
theorem Released.extend {e : Event} (hplan : t.plan = s.plan)
    (hhist : t.history = s.history ++ [e]) (he : ownInserts [e] = []) : Released t := by
  have horders : t.twapOrders = s.twapOrders := congrArg Plan.twapOrders hplan
  have hhead : t.twapHead = s.twapHead := congrArg Plan.twapHead hplan
  refine ⟨hplan ▸ hs.valid, ?_⟩
  rw [hhist, ownInserts_append, he, List.append_nil, horders, hhead]
  exact hs.ownInserts_eq

theorem Released.enterTwap {o : CompactOrderLog} (ho : s.twapOrders[s.twapHead]? = some o) :
    Released (s.enterTwap o) := by
  have hvalid := hs.valid.enterTwap ho
  obtain ⟨d, hd, henter⟩ := enterTwap_eq hs.valid ho
  have hpass : nonEmptyEntries (s.passTwap o).passedEntries =
      ownInserts s.history ++ nonEmptyEntries [s.priced o] := by
    rw [hs.ownInserts_eq, passedEntries_passTwap ho]
    simp only [passedEntries, nonEmptyEntries, List.filter_append, List.map_append]
  have hown : (s.priced o).IsOwn := (hs.valid.planned_head ho).isOwn
  have hdir : (s.priced o).twapDirection = some d := hd
  rw [henter] at hvalid ⊢
  by_cases hvol : o.volume = 0
  · have hempty : nonEmptyEntries [s.priced o] = [] := by
      have : (s.priced o).volume = 0 := hvol
      simp [nonEmptyEntries, this]
    rw [if_neg (not_not.mpr hvol)] at hvalid ⊢
    rw [hempty, List.append_nil] at hpass
    exact ⟨hvalid, hpass.symm⟩
  · have hone : nonEmptyEntries [s.priced o] = [entry (some d) (s.priced o)] := by
      have : (s.priced o).volume ≠ 0 := hvol
      simp [nonEmptyEntries, this, hdir]
    have hevent : ownInserts [.insert d ((s.passTwap o).named (s.priced o))] =
        [entry (some d) (s.priced o)] := by
      have hsome : ownInsert? (.insert d ((s.passTwap o).named (s.priced o))) =
          some (entry (some d) (s.priced o)) := if_pos hown
      rw [ownInserts, List.filterMap_cons, hsome]
      rfl
    rw [if_pos hvol] at hvalid ⊢
    refine ⟨hvalid, ?_⟩
    rw [history_insertOrder, ownInserts_append, hevent, ← hone]
    exact hpass.symm

end Released

theorem released_kept : Kept Released (fun _ => True) fun (s : ContractEngine Q) _ => Released s where
  alpha _ alpha hs := hs.insertAlpha alpha
  enter _ _ hs ho := hs.enterTwap ho
  insert s o p hs _ htype := by
    have hown : ¬ (s.named { o with price := p }).IsOwn := fun hown => by
      change o.type = _ at hown
      rw [hown] at htype
      exact absurd htype (by decide)
    have hnone : ownInsert? (.insert o.direction (s.named { o with price := p })) = none :=
      if_neg hown
    exact hs.extend rfl (history_insertOrder ..) (by rw [ownInserts, List.filterMap_cons, hnone]; rfl)
  cross _ _ _ _ hs h := hs.extend h.traded.plan h.traded.history rfl
  arrive _ _ hs _ _ _ := hs.extend rfl (history_log ..) rfl
  fill := {
    fill := fun _ _ _ _ hs h => hs.extend h.traded.plan h.traded.history rfl
    same := fun _ _ _ hs h => by
      rw [h.scalars]
      exact ⟨hs.valid, hs.ownInserts_eq⟩ }
  finish _ _ hs := hs.extend rfl (history_log ..) rfl

omit [LawfulOrderQueue Q] in
theorem released_new (sessionNum sessionLength : ℤ) (info : CompactPrevTradeInfo)
    (instrument : UInt64) :
    Released (new sessionNum sessionLength info instrument : ContractEngine Q) :=
  ⟨valid_plan_new .., rfl⟩

/-- The slices of one alpha: not negative, of one direction, and equal up to one lot. -/
structure Fair (part : List CompactOrderLog) : Prop where
  volume_nonneg : ∀ o ∈ part, 0 ≤ o.volume
  direction : ∃ d, ∀ o ∈ part, o.twapDirection = some d
  volume_le : ∀ o ∈ part, ∀ o' ∈ part, o.volume ≤ o'.volume + 1

omit [OrderQueue Q] [LawfulOrderQueue Q] in
theorem fair_slices (s : ContractEngine Q) (alpha : CompactAlpha) : Fair (s.slices alpha) where
  volume_nonneg _ ho := (planned_of_mem_slices ho).volume_nonneg
  direction := ⟨_, fun _ ho => twapDirection_of_mem_slices ho⟩
  volume_le o ho o' ho' := by
    obtain ⟨hn, i, hi⟩ := volume_of_mem_slices ho
    obtain ⟨-, j, hj⟩ := volume_of_mem_slices ho'
    rw [hi, hj]
    exact FairSplit.share_le_add_one hn i j

section alphas
variable (alphas : List CompactAlpha) (s : ContractEngine Q)
omit [LawfulOrderQueue Q]

theorem targetVolume_run_insertAlpha : (s.run (alphas.map .insertAlpha)).targetVolume =
    (alphas.getLast?.map CompactAlpha.targetVolume).getD s.targetVolume := by
  induction alphas generalizing s with
  | nil => rfl
  | cons alpha alphas ih =>
    rw [List.map_cons, run_cons, ih, apply, insertAlpha_eq]
    cases alphas with
    | nil => rfl
    | cons alpha' alphas => rw [List.getLast?_cons_cons, List.getLast?_cons]; rfl

theorem twapOrders_run_insertAlpha :
    ∃ rest, (s.run (alphas.map .insertAlpha)).twapOrders = s.twapOrders ++ rest := by
  induction alphas generalizing s with
  | nil => exact ⟨[], (List.append_nil _).symm⟩
  | cons alpha alphas ih =>
    obtain ⟨rest, hrest⟩ := ih (s.insertAlpha alpha)
    refine ⟨s.slices alpha ++ rest, ?_⟩
    rw [List.map_cons, run_cons, apply, hrest, insertAlpha_eq, List.append_assoc]

/-- The signed volumes of the array move with the target. -/
theorem sum_run_insertAlpha (hn : 0 < s.sessionNum) :
    ((s.run (alphas.map .insertAlpha)).twapOrders.map signedVolume).sum - (s.run
      (alphas.map .insertAlpha)).targetVolume = (s.twapOrders.map signedVolume).sum - s.targetVolume := by
  induction alphas generalizing s with
  | nil => rfl
  | cons alpha alphas ih =>
    rw [List.map_cons, run_cons, apply, ih _ (by rw [insertAlpha_eq]; exact hn), insertAlpha_eq]
    simp only [List.map_append, List.sum_append, sum_slices hn]
    ring

end alphas

theorem assigned_run_insertOrderLog (logs : List CompactOrderLog) (s : ContractEngine Q) :
    (s.run (logs.map .insertOrderLog ++ [.onComplete])).plan.assigned = s.plan.assigned := by
  induction logs generalizing s with
  | nil => exact assigned_release maxInt s
  | cons o logs ih =>
    rw [List.map_cons, List.cons_append, run_cons, ih]
    exact assigned_insertOrderLog s o

theorem sum_signedVolume_assigned (p : Plan) :
    (p.assigned.map signedVolume).sum = (p.twapOrders.map signedVolume).sum := by
  rw [Plan.assigned, List.map_map]
  rfl

/-- Entries before `maxInt` are all released by `onComplete`. -/
theorem twapHead_onComplete {s : ContractEngine Q} (hs : Released s)
    (hmax : ∀ t ∈ s.plan.timestamps, t < maxInt) : s.onComplete.twapHead = s.onComplete.twapSize := by
  have hvalid : Released s.onComplete := released_kept.settles.release maxInt hs
  have htimes : s.onComplete.plan.timestamps = s.plan.timestamps := by
    rw [Plan.timestamps_eq, Plan.timestamps_eq]
    exact congrArg _ (assigned_release maxInt s)
  refine le_antisymm hvalid.valid.head_le (not_lt.mp fun hlt => ?_)
  have hget := List.getElem?_eq_getElem hlt
  have hdue := twapStep_eq_none.mp (processTwapOrdersIfNecessary_done maxInt s) _ hget
  refine absurd (hmax _ ?_) hdue.not_gt
  rw [← htimes]
  exact List.mem_map_of_mem (List.getElem_mem hlt)

/-- After order logs and `onComplete`, entries before `maxInt` are all released. -/
theorem twapHead_run_onComplete {planned : ContractEngine Q} (hplanned : Released planned)
    (logs : List CompactOrderLog) (hmax : ∀ t ∈ planned.plan.timestamps, t < maxInt) :
    let s := planned.run (logs.map .insertOrderLog ++ [.onComplete])
    s.twapHead = s.twapSize := by
  intro s
  have hs : s = (planned.run (logs.map .insertOrderLog)).onComplete := by
    change planned.run _ = _
    rw [run_append]
    rfl
  have htimes : (planned.run (logs.map .insertOrderLog)).plan.timestamps =
      planned.plan.timestamps := by
    have hlogs : (logs.map Op.insertOrderLog).filterMap Op.alpha? = [] :=
      List.filterMap_eq_nil_iff.mpr fun op hop => by
        obtain ⟨o, -, rfl⟩ := List.mem_map.mp hop
        rfl
    rw [timestamps_run, hlogs, effectiveAlphas, List.flatMap_nil, List.append_nil]
  rw [hs]
  refine twapHead_onComplete (released_kept.run hplanned fun _ _ => trivial) fun t ht => ?_
  rw [htimes] at ht
  exact hmax t ht

omit [LawfulOrderQueue Q] in
/-- Each alpha writes its fair slices behind those of the alphas before it. -/
theorem exists_slices_run_insertAlpha (start : ContractEngine Q) {alphas pre post : List CompactAlpha}
    {alpha : CompactAlpha} (halphas : alphas = pre ++ alpha :: post) :
    ∃ part rest, Fair part ∧
      ((start.run (pre.map .insertAlpha)).insertAlpha alpha).twapOrders =
        (start.run (pre.map .insertAlpha)).twapOrders ++ part ∧
      (start.run (alphas.map .insertAlpha)).twapOrders =
        (start.run (pre.map .insertAlpha)).twapOrders ++ part ++ rest := by
  obtain ⟨rest, hrest⟩ := twapOrders_run_insertAlpha post
    ((start.run (pre.map .insertAlpha)).insertAlpha alpha)
  have happend : ((start.run (pre.map .insertAlpha)).insertAlpha alpha).twapOrders =
      (start.run (pre.map .insertAlpha)).twapOrders ++
        (start.run (pre.map .insertAlpha)).slices alpha := by rw [insertAlpha_eq]
  refine ⟨_, rest, fair_slices (start.run (pre.map .insertAlpha)) alpha, happend, ?_⟩
  rw [← happend, ← hrest, halphas, List.map_append, run_append, List.map_cons, run_cons]
  rfl

/-- **The TWAP plan is complete, fair and never lost.** -/
theorem plan_complete {sessionNum : ℤ} (hn : 0 < sessionNum) (sessionLength : ℤ)
    (info : CompactPrevTradeInfo) (instrument : UInt64) (alphas : List CompactAlpha)
    (logs : List CompactOrderLog)
    (hmax : ∀ o ∈ ((new sessionNum sessionLength info instrument : ContractEngine OrderHeap).run
      (alphas.map .insertAlpha)).twapOrders, o.timestamp < maxInt) :
    let start := (new sessionNum sessionLength info instrument : ContractEngine OrderHeap)
    let planned := start.run (alphas.map .insertAlpha)
    let s := planned.run (logs.map .insertOrderLog ++ [.onComplete])
    ((s.twapOrders.map signedVolume).sum =
        (alphas.getLast?.map CompactAlpha.targetVolume).getD info.prevPosition - info.prevPosition ∧
      ∀ pre alpha post, alphas = pre ++ alpha :: post → ∃ part rest, Fair part ∧
        ((start.run (pre.map .insertAlpha)).insertAlpha alpha).twapOrders =
          (start.run (pre.map .insertAlpha)).twapOrders ++ part ∧
        planned.twapOrders = (start.run (pre.map .insertAlpha)).twapOrders ++ part ++ rest) ∧
    ownInserts s.history = nonEmptyEntries s.twapOrders ∧
    s.twapHead = s.twapSize ∧ s.twapOrders.map unpriced = planned.twapOrders.map unpriced := by
  intro start planned s
  have hassigned : s.plan.assigned = planned.plan.assigned := assigned_run_insertOrderLog logs planned
  have hplanned : Released planned := released_kept.run (released_new ..) fun _ _ => trivial
  have hhead : s.twapHead = s.twapSize := twapHead_run_onComplete hplanned logs fun t ht => by
    obtain ⟨o, ho, rfl⟩ := List.mem_map.mp ht
    exact hmax o ho
  refine ⟨⟨?_, fun pre alpha post halphas => exists_slices_run_insertAlpha start halphas⟩, ?_, hhead,
    hassigned⟩
  · have hsum := sum_run_insertAlpha alphas start hn
    have htarget : planned.targetVolume = _ := targetVolume_run_insertAlpha alphas start
    change (planned.twapOrders.map signedVolume).sum - planned.targetVolume =
      0 - info.prevPosition at hsum
    have hsame : (s.twapOrders.map signedVolume).sum = (planned.twapOrders.map signedVolume).sum := by
      have := sum_signedVolume_assigned s.plan
      rw [hassigned, sum_signedVolume_assigned] at this
      exact this.symm
    rw [hsame]
    change _ = (alphas.getLast?.map CompactAlpha.targetVolume).getD start.targetVolume - _
    rw [← htarget]
    linarith
  · have hreleased : Released s := released_kept.run hplanned fun _ _ => trivial
    have heq := hreleased.ownInserts_eq
    rw [hhead, twapSize, List.take_length] at heq
    exact heq

/-- Two alphas of opposite sign, with a foreign buy between their slices. -/
theorem plan_complete_of_reversal :
    let planned := (new 3 1 ⟨10, 0⟩ 1 : ContractEngine OrderHeap).run
      (([⟨0, -3⟩, ⟨3000, 1⟩] : List CompactAlpha).map .insertAlpha)
    let s := planned.run (([⟨2500, 2, 0, 8, 0⟩] : List CompactOrderLog).map .insertOrderLog ++
      [.onComplete])
    (s.twapOrders.map signedVolume).sum = 1 ∧ ownInserts s.history = nonEmptyEntries s.twapOrders ∧
      s.twapHead = s.twapSize := by
  have hpos : (0 : ℤ) < 3 := by decide
  have hplan := plan_complete hpos 1 ⟨10, 0⟩ 1 [⟨0, -3⟩, ⟨3000, 1⟩] [⟨2500, 2, 0, 8, 0⟩]
    (by decide +kernel)
  exact ⟨hplan.1.1, hplan.2.1, hplan.2.2.1⟩

end ContractEngine
end MatchingEngine
