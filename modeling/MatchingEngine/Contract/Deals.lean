import Mathlib
import MatchingEngine.Lib.Sweep
import MatchingEngine.Contract.Volume

/-!
# Deals

A trade seen from one side of the book: the order of that side as it was, the price and the
volume.  `deals d` reads the trades of the history so; an immediate order of the other side
makes one deal with every pass of its loop.

## Main definitions

* `Deal`, `deals` — the trades as one side sees them.
* `Fill.deals`, `Cross.deals` — a step of the loops makes one deal.
* `Dealt` — what an immediate order has traded is what it and the opposite side lost.
-/

namespace MatchingEngine

/-- A trade seen from one side: its order of that side before the trade. -/
structure Deal where
  order : CompactOrderLog
  price : ℚ
  volume : ℤ
  deriving DecidableEq, Repr

/-- The order of side `d` of a trade. -/
def Direction.pick (d : Direction) (saleOrder buyOrder : CompactOrderLog) : CompactOrderLog :=
  match d with
  | .Sale => saleOrder
  | .Buy => buyOrder

def Event.deal? (d : Direction) : Event → Option Deal
  | .trade saleOrder buyOrder tradePrice tradeVolume _ =>
    some ⟨d.pick saleOrder buyOrder, tradePrice, tradeVolume⟩
  | _ => none

/-- The trades of a history as side `d` sees them, in order. -/
def deals (d : Direction) (history : List Event) : List Deal := history.filterMap (Event.deal? d)

/-- The volume that the deals moved. -/
def dealtVolume (l : List Deal) : ℤ := (l.map Deal.volume).sum

/-- The volume of the orders `m`. -/
def totalVolume (m : Multiset CompactOrderLog) : ℤ := (m.map CompactOrderLog.volume).sum

/-- A side of the book as a supply of volume, the best order first. -/
def Direction.supply (d : Direction) : Supply CompactOrderLog (ℚ ×ₗ ℤ ×ₗ ℕ) where
  key := rank d
  volume := CompactOrderLog.volume
  reduce := CompactOrderLog.reduce
  volume_reduce _ _ := rfl

/-- The order of a deal and the volume taken from it. -/
def Deal.taken (x : Deal) : CompactOrderLog × ℤ := (x.order, x.volume)

theorem dealtVolume_eq_taken (l : List Deal) :
    dealtVolume l = ((l.map Deal.taken).map Prod.snd).sum := by
  rw [List.map_map]
  rfl

theorem deals_append (d : Direction) (history history' : List Event) :
    deals d (history ++ history') = deals d history ++ deals d history' :=
  List.filterMap_append ..

@[simp] theorem dealtVolume_nil : dealtVolume [] = 0 := rfl

@[simp] theorem dealtVolume_append (l l' : List Deal) :
    dealtVolume (l ++ l') = dealtVolume l + dealtVolume l' := by
  simp [dealtVolume]

@[simp] theorem dealtVolume_cons (x : Deal) (l : List Deal) :
    dealtVolume (x :: l) = x.volume + dealtVolume l := by
  simp [dealtVolume]

theorem volumeOf_true (m : Multiset CompactOrderLog) :
    volumeOf (fun _ => True) m = totalVolume m := by
  simp [volumeOf, totalVolume, portion]

@[simp] theorem Direction.pick_opposite_roles (o a : CompactOrderLog) :
    o.direction.opposite.pick (ContractEngine.roles o a).1 (ContractEngine.roles o a).2 = a := by
  unfold ContractEngine.roles
  cases o.direction <;> rfl

namespace ContractEngine
variable {Q : Direction → Type} [OrderQueue Q] [LawfulOrderQueue Q]

/-- A fill is a deal with the top. -/
theorem Fill.deals {s t : ContractEngine Q} {o a : CompactOrderLog} (h : Fill s o t a) :
    deals o.direction.opposite t.history = deals o.direction.opposite s.history ++
      [⟨a, tradePrice (roles o a).1 (roles o a).2, tradeVolumeWith o a⟩] := by
  rw [h.traded.history, deals_append]
  simp [MatchingEngine.deals, Event.deal?, tradeVolumeWith]

/-- A trade of the tops is a deal of either side with its top. -/
theorem Cross.deals {s t : ContractEngine Q} {a b : CompactOrderLog} (h : Cross s t a b)
    (d : Direction) : deals d t.history = deals d s.history ++
      [⟨d.pick a b, tradePrice a b, tradeVolume a b⟩] := by
  rw [h.traded.history, deals_append]
  rfl

omit [OrderQueue Q] [LawfulOrderQueue Q] in
theorem deals_log_immediate (d : Direction) (s : ContractEngine Q) (o : CompactOrderLog) :
    deals d (s.log (.immediate o)).history = deals d s.history := by
  rw [history_log, deals_append]
  exact List.append_nil _

omit [OrderQueue Q] [LawfulOrderQueue Q] in
/-- The record of an immediate order makes no deal. -/
theorem deals_runImmediate (d : Direction)
    (fill : ContractEngine Q → CompactOrderLog → ContractEngine Q × CompactOrderLog)
    (s : ContractEngine Q) (o : CompactOrderLog) :
    deals d (s.runImmediate fill o).history =
      deals d (fill (s.log (.immediate (s.named o))) (s.named o)).1.history := by
  rw [runImmediate, history_log, deals_append]
  exact List.append_nil _

/-- From `s` and `o` on, the immediate order has come to `t` and `o'`: what it traded is what
it and the opposite side lost. -/
structure Dealt (s : ContractEngine Q) (o : CompactOrderLog) (t : ContractEngine Q)
    (o' : CompactOrderLog) : Prop where
  direction : o'.direction = o.direction
  volume_nonneg : 0 ≤ o'.volume
  exists_deals : ∃ l, deals o.direction.opposite t.history =
    deals o.direction.opposite s.history ++ l ∧ dealtVolume l + o'.volume = o.volume ∧
      dealtVolume l + totalVolume (t.book o.direction.opposite) =
        totalVolume (s.book o.direction.opposite)

theorem Dealt.refl (s : ContractEngine Q) {o : CompactOrderLog} (ho : 0 ≤ o.volume) :
    Dealt s o s o := ⟨rfl, ho, [], by simp, by simp, by simp⟩

/-- Every pass of an immediate loop keeps the account of the volumes. -/
theorem fillInvariant_dealt (s : ContractEngine Q) (o : CompactOrderLog) :
    FillInvariant (Dealt s o) where
  fill t o' u a h hfill := by
    obtain ⟨l, hl, hown, hopp⟩ := h.exists_deals
    have hdeal := hfill.deals
    have htotal := hfill.volumeOf_opposite (P := fun _ => True) fun _ _ => Iff.rfl
    rw [volumeOf_true, volumeOf_true] at htotal
    rw [h.direction] at hdeal htotal
    have hportion : portion (fun _ => True) a (tradeVolumeWith o' a) = tradeVolumeWith o' a :=
      if_pos trivial
    rw [hportion] at htotal
    refine ⟨h.direction, ?_, l ++ [_], by rw [hdeal, hl, List.append_assoc], ?_, ?_⟩
    · have := tradeVolumeWith_eq_min o' a
      rw [CompactOrderLog.volume_reduce]
      omega
    · simp only [dealtVolume_append, dealtVolume_cons, dealtVolume_nil,
        CompactOrderLog.volume_reduce]
      omega
    · simp only [dealtVolume_append, dealtVolume_cons, dealtVolume_nil]
      omega
  same t o' u h hsame := by
    obtain ⟨l, hl, hown, hopp⟩ := h.exists_deals
    refine ⟨h.direction, h.volume_nonneg, l, ?_, hown, ?_⟩
    · rw [hsame.scalars]
      exact hl
    · rw [hsame.book]
      exact hopp

end ContractEngine
end MatchingEngine
