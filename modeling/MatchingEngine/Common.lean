import Mathlib

/-!
# Prices, orders and comparators

The declarations of `common.h` and `config.h` that the engine uses.  A `double` is a rational
and an `int` an integer, and an `Arithmetic` says what an operation on them gives.  Where none
is named it is exact: prices are exact rationals, and nothing wraps around, since signed
overflow is undefined in the source.  The tolerance `eps` of the price comparisons is kept: on
prices that are multiples of `0.01` it has no effect (`priceEq_iff`), off that grid it makes
the comparators fail to be transitive.

## Main definitions

* `Arithmetic`, `Arithmetic.exact` — what the operations on `double` and on `int` give.
* `priceEq`, `priceNeq`, `priceLe`, `priceGt` — the tolerant comparisons.
* `highPrecisionRound2`, `highPrecisionRound2CoverNegative` — rounding to `0.01`.
* `CompactOrderLog` — an order, resting or incoming.
* `minBinaryHeapCmp`, `maxBinaryHeapCmp` — the comparators of the two heaps.
* `OnGrid` — a price is a multiple of `0.01`.
* `rank` — the key by which the comparators order orders on the grid.
-/

namespace MatchingEngine

/-! ## Arithmetic -/

/-- What an operation on `double` and one on `int` give in place of their exact results. -/
class Arithmetic where
  double : ℚ → ℚ
  int : ℤ → ℤ

open Arithmetic

/-- Exact arithmetic. -/
instance Arithmetic.exact : Arithmetic where
  double x := x
  int n := n

@[simp] theorem Arithmetic.double_exact (x : ℚ) : double x = x := rfl

@[simp] theorem Arithmetic.int_exact (n : ℤ) : int n = n := rfl

/-! ## Constants -/

/-- The tolerance `EPS` of the price comparisons. -/
def eps : ℚ := 1 / 1000000

/-- `MAX_INT`, the timestamp by which `onComplete` releases every TWAP order. -/
def maxInt : ℤ := 2147483647

def typeMask : UInt8 := 7
def directionMask : UInt8 := 8
def directionOffset : UInt8 := 3

/-- The sessions `(sessionNum, sessionLength)` of the matching threads. -/
def sessions : List (ℤ × ℤ) := [(3, 1), (3, 3), (3, 5), (5, 2), (5, 3)]

/-! ## Tolerant comparisons -/

section comparisons
variable [A : Arithmetic]

/-- `_eq`: equal up to the tolerance. -/
def priceEq (x y : ℚ) : Prop :=
  (if double (x - y) < 0 then -double (x - y) else double (x - y)) ≤ double eps

/-- `_neq`: further apart than the tolerance. -/
def priceNeq (x y : ℚ) : Prop :=
  double eps < if double (x - y) < 0 then -double (x - y) else double (x - y)

/-- `_le`: strictly below, beyond the tolerance. -/
def priceLe (x y : ℚ) : Prop := x < y ∧ priceNeq x y

/-- `_gt`: strictly above, beyond the tolerance. -/
def priceGt (x y : ℚ) : Prop := y < x ∧ priceNeq x y

instance (x y : ℚ) : Decidable (priceEq x y) := inferInstanceAs (Decidable (_ ≤ _))
instance (x y : ℚ) : Decidable (priceNeq x y) := inferInstanceAs (Decidable (_ < _))
instance (x y : ℚ) : Decidable (priceLe x y) := inferInstanceAs (Decidable (_ ∧ _))
instance (x y : ℚ) : Decidable (priceGt x y) := inferInstanceAs (Decidable (_ ∧ _))

end comparisons

/-! ## Rounding -/

/-- The cast `(long long) x`, which drops the fraction. -/
def toLongLong (x : ℚ) : ℤ := x.num.tdiv x.den

/-- The conversion to `int`. -/
def toInt (x : ℤ) : ℤ := x.bmod (2 ^ 32)

section rounding
variable [A : Arithmetic]

/-- `0.5 + EPS` -/
def half : ℚ := double (1 / 2 + double eps)

/-- `(double) n / 100.0` -/
def hundredths (n : ℤ) : ℚ := double (double n / 100)

/-- Round to two decimals, for prices that are not negative. -/
def highPrecisionRound2 (x : ℚ) : ℚ :=
  hundredths (toLongLong (double (double (x * 100) + half)))

/-- Round to two decimals, away from zero on either side. -/
def highPrecisionRound2CoverNegative (x : ℚ) : ℚ :=
  hundredths (toLongLong
    (double (double (x * 100) + double (half * (if x < 0 then -1 else 1)))))

end rounding

/-- Rounding in exact arithmetic. -/
theorem highPrecisionRound2_eq (x : ℚ) :
    highPrecisionRound2 x = (toLongLong (x * 100 + (1 / 2 + eps)) : ℚ) / 100 := rfl

theorem highPrecisionRound2CoverNegative_eq (x : ℚ) : highPrecisionRound2CoverNegative x =
    (toLongLong (x * 100 + (1 / 2 + eps) * (if x < 0 then -1 else 1)) : ℚ) / 100 := rfl

/-! ## Orders -/

/-- The order types.  `MyContract` marks the engine's own TWAP orders. -/
inductive ContractType
  | PriceLimit
  | OppositeBestPrice
  | OurBestPrice
  | BestFivePriceNoLeft
  | ImmediateDealNoLeft
  | AllOrNothing
  | MyContract
  deriving DecidableEq, Repr

/-- The number an order type has in the source. -/
def ContractType.code : ContractType → ℕ
  | .PriceLimit => 0
  | .OppositeBestPrice => 1
  | .OurBestPrice => 2
  | .BestFivePriceNoLeft => 3
  | .ImmediateDealNoLeft => 4
  | .AllOrNothing => 5
  | .MyContract => 6

inductive Direction
  | Sale
  | Buy
  deriving DecidableEq, Repr

/-- The number a direction has in the source. -/
def Direction.code : Direction → UInt8
  | .Sale => 0
  | .Buy => 1

/-- The other side of the book. -/
def Direction.opposite : Direction → Direction
  | .Sale => .Buy
  | .Buy => .Sale

@[simp] theorem Direction.opposite_ne (d : Direction) : d.opposite ≠ d := by cases d <;> decide

@[simp] theorem Direction.ne_opposite (d : Direction) : d ≠ d.opposite := by cases d <;> decide

@[simp] theorem Direction.opposite_opposite (d : Direction) : d.opposite.opposite = d := by
  cases d <;> rfl

theorem Direction.eq_or_eq_opposite (d e : Direction) : e = d ∨ e = d.opposite := by
  cases d <;> cases e <;> decide

/-- An order.  The direction sits above the type bits of `directionAndType`.

`id` is a history variable: it names an order from its arrival on, follows it through
every copy the engine makes of it, and is read by no function of the engine. -/
structure CompactOrderLog where
  timestamp : ℤ
  volume : ℤ
  price : ℚ
  directionAndType : UInt8
  id : ℕ := 0
  deriving DecidableEq, Repr

instance : Inhabited CompactOrderLog := ⟨{ timestamp := 0, volume := 0, price := 0, directionAndType := 0 }⟩

namespace CompactOrderLog

/-- The type bits, as the engine reads them. -/
def type (o : CompactOrderLog) : ℕ := (o.directionAndType &&& typeMask).toNat

/-- The direction bit of an order log: `insertOrderLog` masks it out. -/
def direction (o : CompactOrderLog) : Direction :=
  if (o.directionAndType &&& directionMask) >>> directionOffset = Direction.Sale.code then .Sale
  else .Buy

/-- The direction of a TWAP order, which is read without a mask: a value that is neither
`Sale` nor `Buy` matches no case of the source's switches. -/
def twapDirection (o : CompactOrderLog) : Option Direction :=
  if o.directionAndType >>> directionOffset = Direction.Sale.code then some .Sale
  else if o.directionAndType >>> directionOffset = Direction.Buy.code then some .Buy
  else none

/-- An order of the engine's own account. -/
def IsOwn (o : CompactOrderLog) : Prop := o.type = ContractType.MyContract.code

instance (o : CompactOrderLog) : Decidable o.IsOwn := inferInstanceAs (Decidable (_ = _))

/-- The order with `v` of its volume traded away. -/
def reduce [A : Arithmetic] (o : CompactOrderLog) (v : ℤ) : CompactOrderLog :=
  { o with volume := int (o.volume - v) }

section reduce
variable (o : CompactOrderLog) (v w : ℤ)

@[simp] theorem volume_reduce : (o.reduce v).volume = o.volume - v := rfl
@[simp] theorem reduce_zero : o.reduce 0 = o := by simp [reduce]
@[simp] theorem reduce_reduce : (o.reduce v).reduce w = o.reduce (v + w) := by
  simp [reduce, sub_sub]

variable [A : Arithmetic]

@[simp] theorem timestamp_reduce : (o.reduce v).timestamp = o.timestamp := rfl
@[simp] theorem price_reduce : (o.reduce v).price = o.price := rfl
@[simp] theorem id_reduce : (o.reduce v).id = o.id := rfl
@[simp] theorem type_reduce : (o.reduce v).type = o.type := rfl
@[simp] theorem direction_reduce : (o.reduce v).direction = o.direction := rfl
@[simp] theorem isOwn_reduce : (o.reduce v).IsOwn ↔ o.IsOwn := Iff.rfl

end reduce

end CompactOrderLog

section comparators
variable [A : Arithmetic]

/-- `MinBinaryHeapCmp`: smaller price, then earlier, then smaller type. -/
def minBinaryHeapCmp (o1 o2 : CompactOrderLog) : Bool :=
  if priceNeq o1.price o2.price then o1.price < o2.price
  else if o1.timestamp ≠ o2.timestamp then o1.timestamp < o2.timestamp
  else o1.type < o2.type

/-- `MaxBinaryHeapCmp`: larger price, then earlier, then smaller type. -/
def maxBinaryHeapCmp (o1 o2 : CompactOrderLog) : Bool :=
  if priceNeq o1.price o2.price then o1.price > o2.price
  else if o1.timestamp ≠ o2.timestamp then o1.timestamp < o2.timestamp
  else o1.type < o2.type

/-- The comparator of each side's heap. -/
def Direction.cmp : Direction → CompactOrderLog → CompactOrderLog → Bool
  | .Sale => minBinaryHeapCmp
  | .Buy => maxBinaryHeapCmp

/-- The comparators read neither the volume nor the identity of an order. -/
@[simp] theorem cmp_reduce_left (d : Direction) (o1 o2 : CompactOrderLog) (v : ℤ) :
    d.cmp (o1.reduce v) o2 = d.cmp o1 o2 := by cases d <;> rfl

@[simp] theorem cmp_reduce_right (d : Direction) (o1 o2 : CompactOrderLog) (v : ℤ) :
    d.cmp o1 (o2.reduce v) = d.cmp o1 o2 := by cases d <;> rfl

end comparators

/-- `compact_prev_trade_info` -/
structure CompactPrevTradeInfo where
  prevClosePrice : ℚ
  prevPosition : ℤ
  deriving DecidableEq, Repr

/-- `compact_alpha` -/
structure CompactAlpha where
  timestamp : ℤ
  targetVolume : ℤ
  deriving DecidableEq, Repr

/-! ## The price grid -/

/-- A price is a multiple of `0.01`. -/
def OnGrid (p : ℚ) : Prop := ∃ k : ℤ, p = k / 100

instance (p : ℚ) : Decidable (OnGrid p) :=
  decidable_of_iff ((p * 100).den = 1) <| by
    constructor
    · intro h
      refine ⟨(p * 100).num, ?_⟩
      rw [Rat.den_eq_one_iff _ |>.mp h, mul_div_cancel_right₀ p (by norm_num)]
    · rintro ⟨k, rfl⟩
      rw [div_mul_cancel₀ _ (by norm_num : (100 : ℚ) ≠ 0), Rat.den_intCast]

namespace OnGrid
variable {x y : ℚ}

theorem add (hx : OnGrid x) (hy : OnGrid y) : OnGrid (x + y) := by
  obtain ⟨j, rfl⟩ := hx
  obtain ⟨k, rfl⟩ := hy
  exact ⟨j + k, by push_cast; ring⟩

theorem mul_int (hx : OnGrid x) (v : ℤ) : OnGrid (x * v) := by
  obtain ⟨j, rfl⟩ := hx
  exact ⟨j * v, by push_cast; ring⟩

/-- Two different prices of the grid are at least `0.01` apart. -/
theorem le_abs_sub (hx : OnGrid x) (hy : OnGrid y) (hne : x ≠ y) : 1 / 100 ≤ |x - y| := by
  obtain ⟨j, rfl⟩ := hx
  obtain ⟨k, rfl⟩ := hy
  have hjk : j - k ≠ 0 := fun h => hne (by rw [sub_eq_zero.mp h])
  have hone : (1 : ℚ) ≤ |((j - k : ℤ) : ℚ)| := by exact_mod_cast Int.one_le_abs hjk
  have hsub : (j : ℚ) / 100 - k / 100 = ((j - k : ℤ) : ℚ) / 100 := by push_cast; ring
  rw [hsub, abs_div, abs_of_pos (by norm_num : (0 : ℚ) < 100)]
  exact div_le_div_of_nonneg_right hone (by norm_num)

end OnGrid

private theorem ite_neg_eq_abs (z : ℚ) : (if z < 0 then -z else z) = |z| := by
  split
  · next h => rw [abs_of_neg h]
  · next h => rw [abs_of_nonneg (not_lt.mp h)]

theorem priceNeq_iff_not [A : Arithmetic] (x y : ℚ) : priceNeq x y ↔ ¬ priceEq x y := by
  rw [priceNeq, priceEq, not_le]

section Grid
variable {x y : ℚ} (hx : OnGrid x) (hy : OnGrid y)
include hx hy

/-- On the grid the tolerance decides equality. -/
theorem priceEq_iff : priceEq x y ↔ x = y := by
  rw [priceEq, ite_neg_eq_abs]
  constructor
  · intro h
    by_contra hne
    have := hx.le_abs_sub hy hne
    norm_num [eps] at h
    linarith
  · rintro rfl
    norm_num [eps]

theorem priceNeq_iff : priceNeq x y ↔ x ≠ y := by
  rw [priceNeq_iff_not, priceEq_iff hx hy]

theorem priceLe_iff : priceLe x y ↔ x < y := by
  rw [priceLe, priceNeq_iff hx hy]
  exact ⟨And.left, fun h => ⟨h, h.ne⟩⟩

theorem priceGt_iff : priceGt x y ↔ y < x := by
  rw [priceGt, priceNeq_iff hx hy]
  exact ⟨And.left, fun h => ⟨h, h.ne'⟩⟩

end Grid

theorem toLongLong_of_nonneg {x : ℚ} (hx : 0 ≤ x) : toLongLong x = ⌊x⌋ := by
  rw [toLongLong, Int.tdiv_eq_ediv_of_nonneg (Rat.num_nonneg.mpr hx), Rat.floor_def']

theorem onGrid_highPrecisionRound2 (x : ℚ) : OnGrid (highPrecisionRound2 x) := ⟨_, rfl⟩

theorem highPrecisionRound2_nonneg {x : ℚ} (hx : 0 ≤ x) : 0 ≤ highPrecisionRound2 x := by
  have hpos : 0 ≤ x * 100 + (1 / 2 + eps) := by
    have : 0 ≤ x * 100 := by positivity
    norm_num [eps]
    linarith
  rw [highPrecisionRound2_eq, toLongLong_of_nonneg hpos]
  have : (0 : ℚ) ≤ ⌊x * 100 + (1 / 2 + eps)⌋ := by exact_mod_cast Int.floor_nonneg.mpr hpos
  positivity

/-- Rounding is monotone on the prices that are not negative. -/
theorem highPrecisionRound2_mono {x y : ℚ} (hx : 0 ≤ x) (h : x ≤ y) :
    highPrecisionRound2 x ≤ highPrecisionRound2 y := by
  have hpos : ∀ {z : ℚ}, 0 ≤ z → 0 ≤ z * 100 + (1 / 2 + eps) := fun hz => by
    norm_num [eps]
    linarith
  rw [highPrecisionRound2_eq, highPrecisionRound2_eq, toLongLong_of_nonneg (hpos hx),
    toLongLong_of_nonneg (hpos (hx.trans h))]
  have hfloor : ⌊x * 100 + (1 / 2 + eps)⌋ ≤ ⌊y * 100 + (1 / 2 + eps)⌋ :=
    Int.floor_le_floor (by linarith)
  exact div_le_div_of_nonneg_right (by exact_mod_cast hfloor) (by norm_num)

/-- Rounding is exact on the part of the grid that is not negative. -/
theorem highPrecisionRound2_of_onGrid {x : ℚ} (hx : OnGrid x) (h0 : 0 ≤ x) :
    highPrecisionRound2 x = x := by
  obtain ⟨k, rfl⟩ := hx
  have hk : (k : ℚ) / 100 * 100 = k := by ring
  have hpos : 0 ≤ (k : ℚ) / 100 * 100 + (1 / 2 + eps) := by
    have : 0 ≤ (k : ℚ) / 100 * 100 := by positivity
    norm_num [eps] at this ⊢
    linarith
  have hfloor : ⌊(k : ℚ) / 100 * 100 + (1 / 2 + eps)⌋ = k := by
    rw [hk, Int.floor_eq_iff]
    norm_num [eps]
  rw [highPrecisionRound2_eq, toLongLong_of_nonneg hpos, hfloor]

theorem toLongLong_neg (x : ℚ) : toLongLong (-x) = -toLongLong x := by
  rw [toLongLong, toLongLong, Rat.neg_num, Rat.neg_den, Int.neg_tdiv]

/-- Rounding away from zero is exact on the whole grid. -/
theorem highPrecisionRound2CoverNegative_of_onGrid {x : ℚ} (hx : OnGrid x) :
    highPrecisionRound2CoverNegative x = x := by
  rw [highPrecisionRound2CoverNegative_eq]
  split
  · next hneg =>
    obtain ⟨k, hk⟩ := hx
    have hround : highPrecisionRound2 (-x) = -x :=
      highPrecisionRound2_of_onGrid ⟨-k, by rw [hk]; push_cast; ring⟩ (by linarith)
    have hflip : x * 100 + (1 / 2 + eps) * -1 = -(-x * 100 + (1 / 2 + eps)) := by ring
    rw [hflip, toLongLong_neg, Int.cast_neg, neg_div]
    exact neg_eq_iff_eq_neg.mpr hround
  · next hneg =>
    rw [mul_one]
    exact highPrecisionRound2_of_onGrid hx (not_lt.mp hneg)

/-! ## The order of the comparators -/

/-- The price as the side `d` ranks it: a sale is better cheaper, a buy dearer. -/
def Direction.signedPrice : Direction → ℚ → ℚ
  | .Sale, p => p
  | .Buy, p => -p

theorem Direction.signedPrice_injective (d : Direction) : Function.Injective d.signedPrice := by
  intro x y h
  cases d with
  | Sale => exact h
  | Buy => exact neg_inj.mp h

/-- The key by which the heap of side `d` orders its orders. -/
def rank (d : Direction) (o : CompactOrderLog) : ℚ ×ₗ ℤ ×ₗ ℕ :=
  toLex (d.signedPrice o.price, toLex (o.timestamp, o.type))

@[simp] theorem rank_reduce (d : Direction) (o : CompactOrderLog) (v : ℤ) :
    rank d (o.reduce v) = rank d o := rfl

/-- **On the grid the comparators compare ranks**, so they are strict weak orders there. -/
theorem cmp_iff_rank_lt (d : Direction) {a b : CompactOrderLog} (ha : OnGrid a.price)
    (hb : OnGrid b.price) : d.cmp a b = true ↔ rank d a < rank d b := by
  have hneg : -a.price = -b.price ↔ a.price = b.price := neg_inj
  cases d <;>
  · simp only [Direction.cmp, minBinaryHeapCmp, maxBinaryHeapCmp, rank, Direction.signedPrice,
      Prod.Lex.toLex_lt_toLex, priceNeq_iff ha hb, hneg]
    by_cases hp : a.price = b.price
    · by_cases ht : a.timestamp = b.timestamp <;> simp [hp, ht]
    · simp [hp]

end MatchingEngine
