import Mathlib

/-!
# Rounding to a floating-point format

The numbers of a format are the integers of some number of bits times powers of two from a
least one on.  A number is rounded to the nearest of them, and of two that are as near to the
even one.  The largest exponent is left out, so nothing overflows here.

## Main definitions

* `nearest` — the nearest integer, an even one of two.
* `Format`, `binary64` — a format, and that of `double`.
* `Format.round`, `Format.Represents` — rounding, and the numbers it leaves alone.
* `abs_round_sub_le` — how far away the rounded number is.
-/

namespace MatchingEngine.Rounding

/-! ## The nearest integer -/

/-- The nearest integer, and of two that are as near the even one. -/
def nearest (x : ℚ) : ℤ :=
  if Int.fract x < 1 / 2 then ⌊x⌋
  else if 1 / 2 < Int.fract x then ⌊x⌋ + 1
  else if Even ⌊x⌋ then ⌊x⌋ else ⌊x⌋ + 1

theorem abs_nearest_sub_le (x : ℚ) : |(nearest x : ℚ) - x| ≤ 1 / 2 := by
  have hnonneg := Int.fract_nonneg x
  have hlt := Int.fract_lt_one x
  have hx : x = ⌊x⌋ + Int.fract x := (Int.floor_add_fract x).symm
  rw [nearest, abs_le]
  split_ifs with hlow hhigh
  · constructor <;> linarith
  · push_cast
    constructor <;> linarith
  · constructor <;> linarith
  · push_cast
    constructor <;> linarith

@[simp] theorem nearest_intCast (n : ℤ) : nearest n = n := by
  simp [nearest]

/-- Rounding is the same on both sides of zero. -/
theorem nearest_neg (x : ℚ) : nearest (-x) = -nearest x := by
  by_cases hzero : Int.fract x = 0
  · have hx : x = (⌊x⌋ : ℤ) := by rw [← Int.floor_add_fract x, hzero]; simp
    rw [hx, ← Int.cast_neg, nearest_intCast, nearest_intCast]
  · have hfract : Int.fract (-x) = 1 - Int.fract x := Int.fract_neg hzero
    have hfloor : ⌊-x⌋ = -⌊x⌋ - 1 := by
      have hsum := Int.floor_add_fract (-x)
      have hsum' := Int.floor_add_fract x
      have hcast : ((⌊-x⌋ : ℤ) : ℚ) = ((-⌊x⌋ - 1 : ℤ) : ℚ) := by
        push_cast
        linarith
      exact_mod_cast hcast
    have heven : Even (-⌊x⌋ - 1) ↔ ¬ Even ⌊x⌋ := by
      rw [Int.even_sub_one, even_neg]
    rw [nearest, nearest, hfract, hfloor]
    rcases lt_trichotomy (Int.fract x) (1 / 2) with h | h | h
    · rw [if_neg (by linarith), if_pos (by linarith), if_pos h]
      ring
    · rw [h]
      by_cases hpar : Even ⌊x⌋
      · norm_num [heven, hpar]
      · norm_num [heven, hpar]
        ring
    · rw [if_pos (by linarith), if_neg (by linarith), if_pos h]
      ring

theorem nearest_nonneg {x : ℚ} (hx : 0 ≤ x) : 0 ≤ nearest x := by
  have hfloor : 0 ≤ ⌊x⌋ := Int.floor_nonneg.mpr hx
  rw [nearest]
  split_ifs <;> omega

/-- Rounding does not go past an integer. -/
theorem nearest_le {x : ℚ} {n : ℤ} (h : x ≤ n) : nearest x ≤ n := by
  have habs := abs_le.mp (abs_nearest_sub_le x)
  rcases h.eq_or_lt with heq | hlt
  · rw [heq, nearest_intCast]
  · have hcast : (nearest x : ℚ) < n + 1 := by linarith
    exact Int.lt_add_one_iff.mp (by exact_mod_cast hcast)

theorem le_nearest {x : ℚ} {n : ℤ} (h : n ≤ x) : n ≤ nearest x := by
  have habs := abs_le.mp (abs_nearest_sub_le x)
  rcases h.eq_or_lt with heq | hlt
  · rw [← heq, nearest_intCast]
  · have hcast : (n : ℚ) < nearest x + 1 := by linarith
    exact Int.lt_add_one_iff.mp (by exact_mod_cast hcast)

/-! ## Formats -/

/-- A floating-point format: the bits of an integer, and the least exponent of its power of
two. -/
structure Format where
  precision : ℕ
  minExponent : ℤ
  deriving DecidableEq, Repr

/-- The format of `double`. -/
def binary64 : Format := ⟨53, -1074⟩

namespace Format
variable (F : Format)

/-- The exponent of the last place of `x`. -/
def exponent (x : ℚ) : ℤ := max (Int.log 2 |x| - (F.precision - 1)) F.minExponent

/-- The unit in the last place of `x`. -/
def ulp (x : ℚ) : ℚ := 2 ^ F.exponent x

/-- The nearest number of the format. -/
def round (x : ℚ) : ℚ := nearest (x / F.ulp x) * F.ulp x

/-- A number of the format. -/
def Represents (x : ℚ) : Prop :=
  ∃ m e : ℤ, |m| < 2 ^ F.precision ∧ F.minExponent ≤ e ∧ x = m * 2 ^ e

theorem ulp_pos (x : ℚ) : 0 < F.ulp x := zpow_pos two_pos _

theorem exponent_neg (x : ℚ) : F.exponent (-x) = F.exponent x := by rw [exponent, exponent, abs_neg]

theorem round_neg (x : ℚ) : F.round (-x) = -F.round x := by
  rw [round, round, ulp, ulp, exponent_neg, neg_div, nearest_neg]
  push_cast
  ring

@[simp] theorem round_zero : F.round 0 = 0 := by simp [round, nearest]

theorem abs_round_sub_le_ulp (x : ℚ) : |F.round x - x| ≤ F.ulp x / 2 := by
  have hpos := F.ulp_pos x
  have hsplit : F.round x - x = (nearest (x / F.ulp x) - x / F.ulp x) * F.ulp x := by
    rw [round, sub_mul, div_mul_cancel₀ _ hpos.ne']
  rw [hsplit, abs_mul, abs_of_pos hpos]
  calc |(nearest (x / F.ulp x) : ℚ) - x / F.ulp x| * F.ulp x
      ≤ 1 / 2 * F.ulp x := by gcongr; exact abs_nearest_sub_le _
    _ = F.ulp x / 2 := by ring

/-- The last place of what is at most `B` is small against `B`. -/
theorem ulp_le {x B : ℚ} (hne : x ≠ 0) (hx : |x| ≤ B)
    (hB : 2 ^ (F.minExponent + (F.precision - 1)) ≤ B) :
    F.ulp x ≤ B / 2 ^ ((F.precision : ℤ) - 1) := by
  rw [le_div_iff₀ (zpow_pos two_pos _), ulp, exponent]
  rcases le_total (Int.log 2 |x| - (F.precision - 1)) F.minExponent with h | h
  · rw [max_eq_right h, ← zpow_add₀ two_ne_zero]
    exact hB
  · rw [max_eq_left h, ← zpow_add₀ two_ne_zero, sub_add_cancel]
    exact (Int.zpow_log_le_self one_lt_two (abs_pos.mpr hne)).trans hx

/-- **How far away the rounded number is**: as much of `B` as the last bit. -/
theorem abs_round_sub_le {x B : ℚ} (hx : |x| ≤ B)
    (hB : 2 ^ (F.minExponent + (F.precision - 1)) ≤ B) :
    |F.round x - x| ≤ B / 2 ^ F.precision := by
  have hB' : 0 ≤ B := (abs_nonneg x).trans hx
  rcases eq_or_ne x 0 with rfl | hne
  · rw [round_zero, sub_self, abs_zero]
    positivity
  refine (F.abs_round_sub_le_ulp x).trans ?_
  have hulp := F.ulp_le hne hx hB
  have hpow : (2 : ℚ) ^ F.precision = 2 ^ ((F.precision : ℤ) - 1) * 2 := by
    rw [← zpow_natCast, ← zpow_add_one₀ two_ne_zero, sub_add_cancel]
  rw [hpow, ← div_div]
  gcongr

theorem lt_zpow_exponent (x : ℚ) : |x| < 2 ^ (F.exponent x + F.precision) := by
  have hlog := Int.lt_zpow_succ_log_self (R := ℚ) one_lt_two |x|
  refine hlog.trans_le ?_
  push_cast
  refine zpow_le_zpow_right₀ one_le_two ?_
  rw [exponent]
  omega

theorem abs_nearest_le (x : ℚ) : |nearest (x / F.ulp x)| ≤ 2 ^ F.precision := by
  have hpos := F.ulp_pos x
  have hlt : |x / F.ulp x| < 2 ^ F.precision := by
    rw [abs_div, abs_of_pos hpos, div_lt_iff₀ hpos, ulp, ← zpow_natCast, ← zpow_add₀ two_ne_zero,
      add_comm]
    exact F.lt_zpow_exponent x
  obtain ⟨hlow, hhigh⟩ := abs_le.mp hlt.le
  exact abs_le.mpr ⟨le_nearest (by push_cast; exact hlow), nearest_le (by push_cast; exact hhigh)⟩

/-- **Rounding answers a number of the format.** -/
theorem represents_round (hprecision : 0 < F.precision) (x : ℚ) : F.Represents (F.round x) := by
  have hle : F.minExponent ≤ F.exponent x := le_max_right _ _
  rcases (F.abs_nearest_le x).lt_or_eq with hlt | heq
  · exact ⟨_, _, hlt, hle, rfl⟩
  · -- rounded up to the next power of two
    obtain ⟨k, hk⟩ := Nat.exists_eq_succ_of_ne_zero hprecision.ne'
    rw [hk, pow_succ] at heq
    have hpow : ∃ s : ℤ, |s| = 1 ∧ nearest (x / F.ulp x) = s * 2 ^ k * 2 := by
      rcases eq_or_eq_neg_of_abs_eq heq with h | h
      · exact ⟨1, by simp, by rw [h]; ring⟩
      · exact ⟨-1, by simp, by rw [h]; ring⟩
    obtain ⟨s, hs, hround⟩ := hpow
    refine ⟨s * 2 ^ k, F.exponent x + 1, ?_, by omega, ?_⟩
    · rw [abs_mul, hs, one_mul, abs_of_pos (by positivity), hk]
      exact pow_lt_pow_right₀ one_lt_two (Nat.lt_succ_self k)
    · rw [round, hround, ulp, zpow_add_one₀ two_ne_zero]
      push_cast
      ring

/-- The last place of a number of the format is not after the last place it is written with. -/
theorem exponent_le {m e : ℤ} (hm : |m| < 2 ^ F.precision) (he : F.minExponent ≤ e) :
    m ≠ 0 → F.exponent (m * 2 ^ e) ≤ e := by
  intro hne
  have hpos : (0 : ℚ) < |(m : ℚ) * 2 ^ e| := abs_pos.mpr (by positivity)
  have habs : |(m : ℚ)| < 2 ^ F.precision := by exact_mod_cast hm
  have hupper : |(m : ℚ) * 2 ^ e| < 2 ^ (e + F.precision) := by
    rw [abs_mul, abs_of_pos (zpow_pos (two_pos (α := ℚ)) e), zpow_add₀ two_ne_zero, zpow_natCast,
      mul_comm]
    gcongr
  have hlog : Int.log 2 |(m : ℚ) * 2 ^ e| < e + F.precision :=
    (Int.lt_zpow_iff_log_lt one_lt_two hpos).mp (by push_cast; exact hupper)
  rw [exponent]
  omega

/-- **A number of the format stays what it is.** -/
theorem round_of_represents {x : ℚ} (hx : F.Represents x) : F.round x = x := by
  obtain ⟨m, e, hm, he, rfl⟩ := hx
  rcases eq_or_ne m 0 with rfl | hne
  · simp
  have hint : (m : ℚ) * 2 ^ e / F.ulp (m * 2 ^ e) =
      ((m * 2 ^ (e - F.exponent (m * 2 ^ e)).toNat : ℤ) : ℚ) := by
    have hle := F.exponent_le hm he hne
    rw [ulp, mul_div_assoc, ← zpow_sub₀ two_ne_zero]
    push_cast
    rw [← zpow_natCast, Int.toNat_of_nonneg (by omega)]
  rw [round, hint, nearest_intCast, ← hint, div_mul_cancel₀ _ (F.ulp_pos _).ne']

theorem represents_intCast (hexponent : F.minExponent ≤ 0) {n : ℤ} (hn : |n| < 2 ^ F.precision) :
    F.Represents n := ⟨n, 0, hn, hexponent, by simp⟩

end Format
end MatchingEngine.Rounding
