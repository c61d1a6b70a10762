import Mathlib
import MatchingEngine.Lib.Rounding

/-!
# The words of binary64

A number of the format `binary64` in 64 bits: the sign, eleven bits of exponent and 52 of
fraction.  Exponent 0 is for the numbers below the normal ones, 2047 for the infinities and what
is not a number.  As the fraction follows the exponent, a number whose rounding carries is the
next word, whatever its exponent, and what is too large is the word of the infinity.

Zero has one word here, that of its positive sign.

## Main definitions

* `value?` — the number of a word.
* `word` — the word of the nearest number.
* `value?_word` — a word stands for the rounded number, unless this is too large.
-/

namespace MatchingEngine.Binary64

open Rounding

/-- The number of an exponent field and a fraction. -/
def magnitude (field fraction : ℕ) : ℚ :=
  if field = 0 then fraction * 2 ^ (-1074 : ℤ)
  else ((2 ^ 52 + fraction : ℕ) : ℚ) * 2 ^ ((field : ℤ) - 1075)

/-- The number that a word stands for, unless it is infinite or not a number. -/
def value? (w : ℕ) : Option ℚ :=
  let field := w / 2 ^ 52 % 2 ^ 11
  let x := magnitude field (w % 2 ^ 52)
  if field = 2 ^ 11 - 1 then none else some (if w / 2 ^ 63 = 0 then x else -x)

/-- The word of the positive infinity. -/
def infinity : ℕ := (2 ^ 11 - 1) * 2 ^ 52

/-- The word of the nearest number to a magnitude. -/
def magnitudeWord (x : ℚ) : ℕ :=
  if x = 0 then 0
  else min infinity
    ((binary64.exponent x + 1074).toNat * 2 ^ 52 + (nearest (x / binary64.ulp x)).toNat)

/-- The word of the nearest number. -/
def word (x : ℚ) : ℕ := (if x < 0 then 2 ^ 63 else 0) + magnitudeWord |x|

/-- An integer and an exponent in the two fields, with or without a carry. -/
theorem magnitude_of_parts {e m : ℕ} (hm : m ≤ 2 ^ 53) (hnormal : e = 0 ∨ 2 ^ 52 ≤ m) :
    magnitude ((e * 2 ^ 52 + m) / 2 ^ 52) (m % 2 ^ 52) = m * 2 ^ ((e : ℤ) - 1074) := by
  rcases lt_or_ge m (2 ^ 52) with hlt | hge
  · obtain rfl : e = 0 := hnormal.resolve_right (by omega)
    have hfield : (0 * 2 ^ 52 + m) / 2 ^ 52 = 0 := by omega
    rw [hfield, Nat.mod_eq_of_lt hlt, magnitude, if_pos rfl]
    norm_num
  · rcases hm.lt_or_eq with hlt | rfl
    · have hfield : (e * 2 ^ 52 + m) / 2 ^ 52 = e + 1 := by omega
      have hfraction : 2 ^ 52 + m % 2 ^ 52 = m := by omega
      have hexponent : ((e + 1 : ℕ) : ℤ) - 1075 = (e : ℤ) - 1074 := by omega
      rw [hfield, magnitude, if_neg (Nat.succ_ne_zero e), hfraction, hexponent]
    · have hfield : (e * 2 ^ 52 + 2 ^ 53) / 2 ^ 52 = e + 2 := by omega
      have hexponent : ((e + 2 : ℕ) : ℤ) - 1075 = ((e : ℤ) - 1074) + 1 := by omega
      rw [hfield, magnitude, if_neg (Nat.succ_ne_zero _), hexponent, zpow_add_one₀ two_ne_zero]
      norm_num
      ring

theorem value?_of_parts {e m : ℕ} (negative : Prop) [Decidable negative] (hm : m ≤ 2 ^ 53)
    (hnormal : e = 0 ∨ 2 ^ 52 ≤ m) (hfinite : e * 2 ^ 52 + m < infinity) :
    value? ((if negative then 2 ^ 63 else 0) + (e * 2 ^ 52 + m)) =
      some (if negative then -((m : ℚ) * 2 ^ ((e : ℤ) - 1074))
        else (m : ℚ) * 2 ^ ((e : ℤ) - 1074)) := by
  rw [infinity] at hfinite
  have hfield : ((if negative then 2 ^ 63 else 0) + (e * 2 ^ 52 + m)) / 2 ^ 52 % 2 ^ 11 =
      (e * 2 ^ 52 + m) / 2 ^ 52 := by
    split <;> omega
  have hfraction : ((if negative then 2 ^ 63 else 0) + (e * 2 ^ 52 + m)) % 2 ^ 52 =
      m % 2 ^ 52 := by
    split <;> omega
  have hsign : ((if negative then 2 ^ 63 else 0) + (e * 2 ^ 52 + m)) / 2 ^ 63 = 0 ↔
      ¬ negative := by
    by_cases h : negative
    · simp only [h, if_true, not_true_eq_false, iff_false]
      omega
    · simp only [h, if_false, not_false_eq_true, iff_true]
      omega
  rw [value?, hfield, hfraction, magnitude_of_parts hm hnormal, if_neg (by omega)]
  simp only [hsign, ite_not]

/-- A number that is at least as large as a normal one has all bits of its integer. -/
theorem two_pow_le_nearest {x : ℚ} (hx : 0 < x) (hnormal : -1074 < binary64.exponent x) :
    2 ^ 52 ≤ nearest (x / binary64.ulp x) := by
  have hlog : binary64.exponent x = Int.log 2 |x| - 52 := by
    simp only [Format.exponent, binary64] at hnormal ⊢
    omega
  have hpow := Int.zpow_log_le_self (R := ℚ) one_lt_two (abs_pos.mpr hx.ne')
  have hsplit : ((2 ^ 52 : ℤ) : ℚ) * 2 ^ (Int.log 2 |x| - 52) = 2 ^ Int.log 2 |x| := by
    rw [Int.cast_pow, Int.cast_ofNat, ← zpow_natCast, ← zpow_add₀ two_ne_zero, Nat.cast_ofNat,
      add_sub_cancel]
  refine le_nearest ?_
  rw [le_div_iff₀ (binary64.ulp_pos x), Format.ulp, hlog, hsplit]
  exact_mod_cast hpow.trans_eq (abs_of_pos hx)

/-- The fields have room just if the number is below `2 ^ 1024`. -/
theorem parts_lt_iff {e m : ℕ} (hm : m ≤ 2 ^ 53) (hnormal : e = 0 ∨ 2 ^ 52 ≤ m) :
    e * 2 ^ 52 + m < infinity ↔ (m : ℚ) * 2 ^ ((e : ℤ) - 1074) < 2 ^ (1024 : ℤ) := by
  have hscale : ∀ k : ℕ, ((2 ^ k : ℕ) : ℚ) * 2 ^ ((e : ℤ) - 1074) = 2 ^ ((k : ℤ) + (e - 1074)) := by
    intro k
    rw [zpow_add₀ two_ne_zero, zpow_natCast]
    push_cast
    rfl
  have hpos : (0 : ℚ) < 2 ^ ((e : ℤ) - 1074) := zpow_pos two_pos _
  rw [infinity]
  rcases hm.lt_or_eq with hlt | rfl
  · by_cases he : e ≤ 2045
    · refine iff_of_true (by omega) ?_
      calc (m : ℚ) * 2 ^ ((e : ℤ) - 1074) < ((2 ^ 53 : ℕ) : ℚ) * 2 ^ ((e : ℤ) - 1074) := by
            gcongr
        _ = 2 ^ (((53 : ℕ) : ℤ) + ((e : ℤ) - 1074)) := hscale 53
        _ ≤ 2 ^ (1024 : ℤ) := zpow_le_zpow_right₀ one_le_two (by omega)
    · have hge : 2 ^ 52 ≤ m := hnormal.resolve_left (by omega)
      refine iff_of_false (by omega) (not_lt.mpr ?_)
      calc (2 : ℚ) ^ (1024 : ℤ) ≤ 2 ^ (((52 : ℕ) : ℤ) + ((e : ℤ) - 1074)) :=
            zpow_le_zpow_right₀ one_le_two (by omega)
        _ = ((2 ^ 52 : ℕ) : ℚ) * 2 ^ ((e : ℤ) - 1074) := (hscale 52).symm
        _ ≤ (m : ℚ) * 2 ^ ((e : ℤ) - 1074) := by gcongr
  · rw [hscale 53, zpow_lt_zpow_iff_right₀ one_lt_two]
    omega

/-- **A word stands for the rounded number**, unless this is too large. -/
theorem value?_word (x : ℚ) :
    value? (word x) =
      if |binary64.round x| < 2 ^ (1024 : ℤ) then some (binary64.round x) else none := by
  rcases eq_or_ne x 0 with rfl | hne
  · simp [word, magnitudeWord, value?, magnitude]
  have hpos : 0 < |x| := abs_pos.mpr hne
  set e := binary64.exponent |x| with he
  set m := nearest (|x| / binary64.ulp |x|) with hm
  have hmin : -1074 ≤ e := le_max_right _ _
  have hnonneg : 0 ≤ m := nearest_nonneg (div_nonneg hpos.le (binary64.ulp_pos _).le)
  have hle : m ≤ 2 ^ 53 := (abs_le.mp (binary64.abs_nearest_le |x|)).2
  have hle' : m.toNat ≤ 2 ^ 53 := by omega
  have hnormal : (e + 1074).toNat = 0 ∨ 2 ^ 52 ≤ m.toNat := by
    rcases hmin.eq_or_lt with h | h
    · exact .inl (by omega)
    · have hbits : 2 ^ 52 ≤ m := two_pow_le_nearest hpos h
      exact .inr (by omega)
  have hround : binary64.round |x| = m.toNat * 2 ^ (((e + 1074).toNat : ℤ) - 1074) := by
    have hcast : ((m.toNat : ℕ) : ℚ) = (m : ℚ) := by exact_mod_cast Int.toNat_of_nonneg hnonneg
    rw [Int.toNat_of_nonneg (by omega), add_sub_cancel_right, hcast]
    rfl
  have hword : magnitudeWord |x| = min infinity ((e + 1074).toNat * 2 ^ 52 + m.toNat) :=
    if_neg hpos.ne'
  have hsign : binary64.round x = if x < 0 then -binary64.round |x| else binary64.round |x| := by
    split
    next hneg => rw [abs_of_neg hneg, Format.round_neg, neg_neg]
    next hneg => rw [abs_of_nonneg (not_lt.mp hneg)]
  have habs : |binary64.round x| = binary64.round |x| := by
    rw [hsign, apply_ite abs, abs_neg, ite_self, hround, abs_of_nonneg (by positivity)]
  have hiff := parts_lt_iff hle' hnormal
  rw [word, hword, habs, hsign, hround]
  by_cases hfinite : (e + 1074).toNat * 2 ^ 52 + m.toNat < infinity
  · rw [min_eq_right hfinite.le, value?_of_parts (x < 0) hle' hnormal hfinite,
      if_pos (hiff.mp hfinite)]
  · rw [min_eq_left (not_lt.mp hfinite), if_neg (hiff.not.mp hfinite), value?, infinity,
      if_pos (by split <;> norm_num)]

end MatchingEngine.Binary64
