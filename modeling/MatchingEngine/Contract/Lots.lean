import Mathlib
import MatchingEngine.Lib.Refinement
import MatchingEngine.Contract.Order
import MatchingEngine.Contract.Volume

/-!
# The book by lots

An order of volume `v` is seen as `v` lots that carry its price, its timestamp and its type.
Trading is then deterministic: one lot of the best sale trades with one lot of the best
buy, and two lots of one rank are equal, so it does not matter which order of a tie a heap
serves.  A trade of volume `v` is `v` unit trades.

## Main definitions

* `Lot`, `lots` — the lots of an order, of a book.
* `LotState`, `abs` — the state of an engine by lots.
* `UnitCross`, `UnitFill` — the unit trades of the matching loop and of an immediate order.
* `Cross.unitCross`, `Fill.unitFill` — a trade is a run of unit trades.
-/

namespace MatchingEngine

open Relation

/-! ## Lots -/

/-- One lot of an order: what the engine reads of the order, save its volume. -/
structure Lot where
  price : ℚ
  timestamp : ℤ
  type : ℕ
  deriving DecidableEq, Repr

/-- The lots of an order are all like this one. -/
def CompactOrderLog.lot (o : CompactOrderLog) : Lot := ⟨o.price, o.timestamp, o.type⟩

@[simp] theorem lot_reduce (o : CompactOrderLog) (v : ℤ) : (o.reduce v).lot = o.lot := rfl

/-- The rank of a lot is that of its order. -/
def Lot.rank (d : Direction) (l : Lot) : ℚ ×ₗ ℤ ×ₗ ℕ :=
  toLex (d.signedPrice l.price, toLex (l.timestamp, l.type))

theorem Lot.rank_injective (d : Direction) : Function.Injective (Lot.rank d) := by
  intro l l' h
  obtain ⟨p, t, k⟩ := l
  obtain ⟨p', t', k'⟩ := l'
  have hsigned : d.signedPrice p = d.signedPrice p' := congrArg (fun r => (ofLex r).1) h
  have hrest : (t, k) = (t', k') := congrArg (fun r => ofLex (ofLex r).2) h
  have hprice : p = p' := by
    cases d with
    | Sale => exact hsigned
    | Buy => exact neg_injective hsigned
  obtain ⟨rfl, rfl⟩ := Prod.mk.inj hrest
  rw [hprice]

/-- No lot of `m` is better than `l`. -/
def Best (d : Direction) (l : Lot) (m : Multiset Lot) : Prop := ∀ r ∈ m, l.rank d ≤ r.rank d

/-- The best lot of a side is unique, and so is what is below it. -/
theorem Best.unique {d : Direction} {l l' : Lot} {m m' : Multiset Lot} (h : Best d l m)
    (h' : Best d l' m') (heq : l ::ₘ m = l' ::ₘ m') : l = l' ∧ m = m' := by
  have hle : ∀ {a b : Lot} {n n' : Multiset Lot}, Best d a n → a ::ₘ n = b ::ₘ n' →
      a.rank d ≤ b.rank d := by
    intro a b n n' hbest hcons
    have hb : b ∈ a ::ₘ n := hcons ▸ Multiset.mem_cons_self b n'
    rcases Multiset.mem_cons.mp hb with rfl | hb
    · exact le_rfl
    · exact hbest b hb
  obtain rfl : l = l' := Lot.rank_injective d (le_antisymm (hle h heq) (hle h' heq.symm))
  exact ⟨rfl, (Multiset.cons_inj_right l).mp heq⟩

theorem Best.replicate_add {d : Direction} {l : Lot} {m : Multiset Lot} (h : Best d l m) (n : ℕ) :
    Best d l (Multiset.replicate n l + m) := by
  intro r hr
  rcases Multiset.mem_add.mp hr with hr | hr
  · rw [Multiset.eq_of_mem_replicate hr]
  · exact h r hr

/-- The lots of a book. -/
def lots (m : Multiset CompactOrderLog) : Multiset Lot :=
  m.bind fun o => Multiset.replicate o.volume.toNat o.lot

@[simp] theorem lots_zero : lots 0 = 0 := rfl

@[simp] theorem lots_cons (o : CompactOrderLog) (m : Multiset CompactOrderLog) :
    lots (o ::ₘ m) = Multiset.replicate o.volume.toNat o.lot + lots m := by
  simp [lots]

@[simp] theorem lots_add (m m' : Multiset CompactOrderLog) : lots (m + m') = lots m + lots m' := by
  simp [lots]

theorem mem_lots {m : Multiset CompactOrderLog} {l : Lot} (h : l ∈ lots m) :
    ∃ o ∈ m, o.lot = l := by
  obtain ⟨o, ho, hl⟩ := Multiset.mem_bind.mp h
  exact ⟨o, ho, (Multiset.eq_of_mem_replicate hl).symm⟩

theorem best_lots {d : Direction} {a : CompactOrderLog} {m : Multiset CompactOrderLog}
    (hm : ∀ o ∈ m, MatchingEngine.rank d a ≤ MatchingEngine.rank d o) : Best d a.lot (lots m) := by
  intro r hr
  obtain ⟨o, ho, rfl⟩ := mem_lots hr
  exact hm o ho

theorem lots_residue (o : CompactOrderLog) (v : ℤ) :
    lots (ContractEngine.residue o v) = Multiset.replicate (o.volume - v).toNat o.lot := by
  simp only [ContractEngine.residue]
  split
  · next h => simp [h]
  · rw [← Multiset.cons_zero, lots_cons, lots_zero, add_zero]
    rfl

/-- The volume at a price, a timestamp and a type is a number of lots. -/
theorem count_lots (l : Lot) {m : Multiset CompactOrderLog} (hm : ∀ o ∈ m, 0 ≤ o.volume) :
    ((lots m).count l : ℤ) = volumeOf (fun o => o.lot = l) m := by
  induction m using Multiset.induction_on with
  | empty => rfl
  | cons o m ih =>
    have hvol := hm o (Multiset.mem_cons_self o m)
    rw [lots_cons, volumeOf_cons, Multiset.count_add, Nat.cast_add,
      ih fun a ha => hm a (Multiset.mem_cons_of_mem ha), Multiset.count_replicate, portion]
    by_cases h : o.lot = l
    · simp [h, hvol]
    · simp [h]

theorem card_lots {m : Multiset CompactOrderLog} (hm : ∀ o ∈ m, 0 ≤ o.volume) :
    (Multiset.card (lots m) : ℤ) = (m.map CompactOrderLog.volume).sum := by
  induction m using Multiset.induction_on with
  | empty => rfl
  | cons o m ih =>
    have hvol := hm o (Multiset.mem_cons_self o m)
    rw [lots_cons, Multiset.card_add, Multiset.card_replicate, Multiset.map_cons,
      Multiset.sum_cons, Nat.cast_add, Int.toNat_of_nonneg hvol,
      ih fun a ha => hm a (Multiset.mem_cons_of_mem ha)]

/-! ## The state by lots -/

/-- The state of an engine, the book by lots. -/
structure LotState where
  lots : Direction → Multiset Lot
  lastPrice : ℚ
  income : ℚ
  volume : ℤ
  plan : ContractEngine.Plan

/-- A lot of an own order. -/
def Lot.IsOwn (l : Lot) : Prop := l.type = ContractType.MyContract.code

instance (l : Lot) : Decidable l.IsOwn := inferInstanceAs (Decidable (_ = _))

@[simp] theorem isOwn_lot (o : CompactOrderLog) : o.lot.IsOwn ↔ o.IsOwn := Iff.rfl

/-- The price of a trade of two lots. -/
def Lot.tradePrice (saleLot buyLot : Lot) : ℚ :=
  if priceEq saleLot.price buyLot.price then saleLot.price
  else if saleLot.timestamp > buyLot.timestamp then buyLot.price
  else saleLot.price

namespace LotState

/-- Account for a trade of `n` lots. -/
def trade (x : LotState) (a b : Lot) (n : ℤ) : LotState :=
  { x with
    lastPrice := Lot.tradePrice a b
    income := if a.IsOwn then x.income + Lot.tradePrice a b * n
      else if b.IsOwn then x.income - Lot.tradePrice a b * n else x.income
    volume := if a.IsOwn then x.volume - n else if b.IsOwn then x.volume + n else x.volume }

theorem trade_trade (x : LotState) (a b : Lot) (m n : ℤ) (f g : Direction → Multiset Lot) :
    { LotState.trade { x.trade a b m with lots := f } a b n with lots := g } =
      { x.trade a b (m + n) with lots := g } := by
  simp only [trade, LotState.mk.injEq, true_and, and_true]
  by_cases ha : a.IsOwn
  · simp only [if_pos ha]
    push_cast
    exact ⟨by ring, by ring⟩
  · by_cases hb : b.IsOwn
    · simp only [if_neg ha, if_pos hb]
      push_cast
      exact ⟨by ring, by ring⟩
    · simp [ha, hb]

end LotState

/-! ## Unit trades of the matching loop -/

/-- The two sides of a book. -/
def sides (S T : Multiset Lot) : Direction → Multiset Lot
  | .Sale => S
  | .Buy => T

/-- One lot of the best sale trades with one lot of the best buy. -/
def UnitCross (x y : LotState) : Prop :=
  ∃ a b S T, (x.lots .Sale = a ::ₘ S ∧ Best .Sale a S) ∧ (x.lots .Buy = b ::ₘ T ∧ Best .Buy b T) ∧
    ¬ priceGt a.price b.price ∧ y = { x.trade a b 1 with lots := sides S T }

theorem unitCross_rightUnique : Relator.RightUnique UnitCross := by
  rintro x y z ⟨a, b, S, T, ⟨hS, ha⟩, ⟨hT, hb⟩, -, rfl⟩
    ⟨a', b', S', T', ⟨hS', ha'⟩, ⟨hT', hb'⟩, -, rfl⟩
  obtain ⟨rfl, rfl⟩ := ha.unique ha' (hS.symm.trans hS')
  obtain ⟨rfl, rfl⟩ := hb.unique hb' (hT.symm.trans hT')
  rfl

/-- Equal lots on either side trade one after the other. -/
theorem unitCross_iterate {a b : Lot} {S T : Multiset Lot} (ha : Best .Sale a S)
    (hb : Best .Buy b T) (hab : ¬ priceGt a.price b.price) (n : ℕ) (x : LotState)
    (hS : x.lots .Sale = Multiset.replicate (n + 1) a + S)
    (hT : x.lots .Buy = Multiset.replicate (n + 1) b + T) :
    ReflTransGen UnitCross x { x.trade a b (n + 1) with lots := sides S T } := by
  induction n generalizing x with
  | zero =>
    refine .single ⟨a, b, S, T, ⟨by simpa using hS, ha⟩, ⟨by simpa using hT, hb⟩, hab, ?_⟩
    simp
  | succ n ih =>
    rw [Multiset.replicate_succ, Multiset.cons_add] at hS hT
    have hrest := ih { x.trade a b 1 with
      lots := sides (Multiset.replicate (n + 1) a + S) (Multiset.replicate (n + 1) b + T) } rfl rfl
    rw [LotState.trade_trade] at hrest
    have hsum : (1 : ℤ) + (n + 1) = ((n + 1 : ℕ) : ℤ) + 1 := by push_cast; ring
    rw [hsum] at hrest
    exact .head ⟨a, b, _, _, ⟨hS, ha.replicate_add _⟩, ⟨hT, hb.replicate_add _⟩, hab, rfl⟩ hrest

/-! ## Unit trades of an immediate order -/

/-- The sale and the buy lot of a trade of the incoming lot `l` of direction `d`. -/
def lotRoles (d : Direction) (l a : Lot) : Lot × Lot :=
  match d with
  | .Sale => (l, a)
  | .Buy => (a, l)

section UnitFill
variable {γ : Type*} (next : γ → ℚ → Option γ) (d : Direction) (l : Lot)

/-- One of the remaining lots of the incoming order trades with the best lot of the other
side, if `next` lets it trade at that price. -/
def UnitFill (p q : LotState × ℤ × γ) : Prop :=
  ∃ a S g, 0 < p.2.1 ∧ (p.1.lots d.opposite = a ::ₘ S ∧ Best d.opposite a S) ∧
    next p.2.2 a.price = some g ∧
    q = ({ p.1.trade (lotRoles d l a).1 (lotRoles d l a).2 1 with
      lots := Function.update p.1.lots d.opposite S }, p.2.1 - 1, g)

theorem unitFill_rightUnique : Relator.RightUnique (UnitFill next d l) := by
  rintro ⟨x, n, g⟩ y z ⟨a, S, g₁, -, ⟨hS, ha⟩, hg₁, rfl⟩ ⟨a', S', g₂, -, ⟨hS', ha'⟩, hg₂, rfl⟩
  obtain ⟨rfl, rfl⟩ := ha.unique ha' (hS.symm.trans hS')
  obtain rfl : g₁ = g₂ := Option.some.inj (hg₁.symm.trans hg₂)
  rfl

/-- Equal lots trade one after the other, once `next` has let the first one trade. -/
theorem unitFill_iterate {a : Lot} {S : Multiset Lot} (ha : Best d.opposite a S) {g : γ}
    (hg : next g a.price = some g) (n : ℕ) (x : LotState) (v : ℤ) (g₀ : γ)
    (hv : (n : ℤ) + 1 ≤ v) (hg₀ : next g₀ a.price = some g)
    (hS : x.lots d.opposite = Multiset.replicate (n + 1) a + S) :
    ReflTransGen (UnitFill next d l) (x, v, g₀)
      ({ x.trade (lotRoles d l a).1 (lotRoles d l a).2 (n + 1) with
        lots := Function.update x.lots d.opposite S }, v - (n + 1), g) := by
  induction n generalizing x v g₀ with
  | zero =>
    refine .single ⟨a, S, g, show (0 : ℤ) < v by omega, ⟨by simpa using hS, ha⟩, hg₀, ?_⟩
    simp
  | succ n ih =>
    rw [Multiset.replicate_succ, Multiset.cons_add] at hS
    have hrest := ih { x.trade (lotRoles d l a).1 (lotRoles d l a).2 1 with
      lots := Function.update x.lots d.opposite (Multiset.replicate (n + 1) a + S) } (v - 1) g
      (by omega) hg (Function.update_self ..)
    have hsum : (1 : ℤ) + (n + 1) = ((n + 1 : ℕ) : ℤ) + 1 := by push_cast; ring
    have hleft : v - 1 - ((n : ℤ) + 1) = v - (((n + 1 : ℕ) : ℤ) + 1) := by push_cast; ring
    rw [Function.update_idem, LotState.trade_trade, hsum, hleft] at hrest
    exact .head ⟨a, _, g, show (0 : ℤ) < v by omega, ⟨hS, ha.replicate_add _⟩, hg₀, rfl⟩ hrest

end UnitFill

end MatchingEngine
