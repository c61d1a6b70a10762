import Mathlib

/-!
# Little-endian numbers

Numbers as bytes in memory, the lowest first, without sign and in two's complement.

## Main definitions

* `bytes k n` — the `k` bytes of `n`.
* `value l` — the number that the bytes `l` are.
* `signed l` — the same in two's complement.
* `signedBytes k x` — the `k` bytes of an integer in two's complement.
-/

namespace MatchingEngine.LittleEndian

/-- The `k` lowest bytes of `n`. -/
def bytes : ℕ → ℕ → List UInt8
  | 0, _ => []
  | k + 1, n => UInt8.ofNat n :: bytes k (n / 256)

/-- The number of the bytes `l`. -/
def value (l : List UInt8) : ℕ := Nat.ofDigits 256 (l.map UInt8.toNat)

/-- The number of the bytes `l` in two's complement. -/
def signed (l : List UInt8) : ℤ :=
  if 2 * value l < 256 ^ l.length then value l else (value l : ℤ) - 256 ^ l.length

@[simp] theorem length_bytes (k n : ℕ) : (bytes k n).length = k := by
  induction k generalizing n with
  | zero => rfl
  | succ k ih => rw [bytes, List.length_cons, ih]

theorem value_cons (b : UInt8) (l : List UInt8) : value (b :: l) = b.toNat + 256 * value l := by
  simp [value, Nat.ofDigits_cons]

theorem value_append (l l' : List UInt8) :
    value (l ++ l') = value l + 256 ^ l.length * value l' := by
  rw [value, List.map_append, Nat.ofDigits_append, List.length_map]
  rfl

theorem value_bytes (k n : ℕ) : value (bytes k n) = n % 256 ^ k := by
  induction k generalizing n with
  | zero => simp [bytes, value, Nat.mod_one]
  | succ k ih =>
    rw [bytes, value_cons, ih, pow_succ', Nat.mod_mul]
    simp

theorem value_lt (l : List UInt8) : value l < 256 ^ l.length := by
  have h := Nat.ofDigits_lt_base_pow_length (b := 256) (l := l.map UInt8.toNat) (by norm_num)
    fun x hx => by
      obtain ⟨b, -, rfl⟩ := List.mem_map.mp hx
      exact b.toNat_lt
  rwa [List.length_map] at h

/-- As many bytes are one number only. -/
theorem value_injective {l l' : List UInt8} (hlen : l.length = l'.length)
    (h : value l = value l') : l = l' := by
  have hbyte : ∀ (m : List UInt8), ∀ x ∈ m.map UInt8.toNat, x < 256 := fun m x hx => by
    obtain ⟨b, -, rfl⟩ := List.mem_map.mp hx
    exact b.toNat_lt
  refine List.map_injective_iff.mpr (fun a b => UInt8.toNat_inj.mp) ?_
  exact Nat.ofDigits_inj_of_len_eq (by norm_num) (by simpa using hlen) (hbyte l) (hbyte l') h

/-- The bytes of the number of bytes are these bytes. -/
theorem bytes_value (l : List UInt8) : bytes l.length (value l) = l := by
  refine value_injective (length_bytes _ _) ?_
  rw [value_bytes, Nat.mod_eq_of_lt (value_lt l)]

theorem signed_of_lt {l : List UInt8} (h : 2 * value l < 256 ^ l.length) : signed l = value l :=
  if_pos h

/-- A number that fits is read back. -/
theorem signed_bytes {k n : ℕ} (h : 2 * n < 256 ^ k) : signed (bytes k n) = n := by
  have hvalue : value (bytes k n) = n := by
    rw [value_bytes, Nat.mod_eq_of_lt (by omega)]
  rw [signed_of_lt (by rwa [hvalue, length_bytes]), hvalue]

/-- The last bytes say whether a number is negative. -/
theorem fits_append_iff (l : List UInt8) {l' : List UInt8} (hne : l' ≠ []) :
    2 * value (l ++ l') < 256 ^ (l ++ l').length ↔ 2 * value l' < 256 ^ l'.length := by
  have hlt := value_lt l
  obtain ⟨k, hk⟩ := Nat.exists_eq_succ_of_ne_zero (List.length_pos_of_ne_nil hne).ne'
  have heven : 256 ^ l'.length = 2 * (128 * 256 ^ k) := by
    rw [hk, Nat.pow_succ]
    ring
  rw [value_append, List.length_append, pow_add, heven]
  generalize value l = a at hlt
  generalize value l' = b
  generalize 256 ^ l.length = p at hlt
  generalize 128 * 256 ^ k = q
  constructor
  · intro h
    by_contra hnot
    have hle : p * q ≤ p * b := Nat.mul_le_mul_left p (by omega)
    have hassoc : p * (2 * q) = 2 * (p * q) := by ring
    omega
  · intro h
    have hle : p * (b + 1) ≤ p * q := Nat.mul_le_mul_left p (by omega)
    have hassoc : p * (2 * q) = 2 * (p * q) := by ring
    rw [Nat.mul_add] at hle
    omega

/-- The `k` lowest bytes of an integer in two's complement. -/
def signedBytes (k : ℕ) (x : ℤ) : List UInt8 := bytes k (x % 256 ^ k).toNat

@[simp] theorem length_signedBytes (k : ℕ) (x : ℤ) : (signedBytes k x).length = k := length_bytes ..

/-- **An integer is read back** up to the numbers that its bytes leave out. -/
theorem signed_signedBytes (k : ℕ) (x : ℤ) : signed (signedBytes k x) = x.bmod (256 ^ k) := by
  have hpos : (0 : ℤ) < 256 ^ k := by positivity
  have hnonneg : 0 ≤ x % 256 ^ k := Int.emod_nonneg _ hpos.ne'
  have hlt : x % 256 ^ k < 256 ^ k := Int.emod_lt_of_pos _ hpos
  have hvalue : ((value (signedBytes k x) : ℕ) : ℤ) = x % 256 ^ k := by
    rw [signedBytes, value_bytes, Nat.mod_eq_of_lt]
    · exact Int.toNat_of_nonneg hnonneg
    · zify
      rwa [Int.toNat_of_nonneg hnonneg]
  have hcast : ((256 ^ k : ℕ) : ℤ) = 256 ^ k := by push_cast; rfl
  have hpow : (256 : ℤ) ^ (signedBytes k x).length = ((256 ^ k : ℕ) : ℤ) := by
    rw [length_signedBytes, hcast]
  rw [Int.bmod_eq_emod, signed, hpow, hcast, hvalue]
  rw [length_signedBytes]
  by_cases hfits : 2 * value (signedBytes k x) < 256 ^ k
  · rw [if_pos hfits, if_neg (by omega), Nat.cast_zero, sub_zero]
  · rw [if_neg hfits, if_pos (by omega), hcast]

theorem value_singleton (b : UInt8) : value [b] = b.toNat := by simp [value]

/-- **The bytes compare as a string**: with the first byte as the highest, numbers of as many
bytes are in the lexicographic order of their bytes. -/
theorem value_reverse_lt_iff {l l' : List UInt8} (hlen : l.length = l'.length) :
    value l.reverse < value l'.reverse ↔ l < l' := by
  induction l generalizing l' with
  | nil =>
    obtain rfl := List.eq_nil_of_length_eq_zero hlen.symm
    simp
  | cons b l ih =>
    cases l' with
    | nil => cases hlen
    | cons b' l' =>
      have htail : l.length = l'.length := Nat.succ.inj hlen
      have hlt := value_lt l.reverse
      have hlt' := value_lt l'.reverse
      rw [List.length_reverse] at hlt hlt'
      rw [List.reverse_cons, List.reverse_cons, value_append, value_append, value_singleton,
        value_singleton, List.length_reverse, List.length_reverse, List.cons_lt_cons_iff,
        ← ih htail, UInt8.lt_iff_toNat_lt, ← UInt8.toNat_inj, htail]
      rw [htail] at hlt
      generalize 256 ^ l'.length = p at hlt hlt'
      -- the first byte decides unless the two are equal
      rcases lt_trichotomy b.toNat b'.toNat with hb | hb | hb
      · have hle : p * (b.toNat + 1) ≤ p * b'.toNat := Nat.mul_le_mul_left p hb
        rw [Nat.mul_add] at hle
        exact iff_of_true (by omega) (.inl hb)
      · simp [hb]
      · have hle : p * (b'.toNat + 1) ≤ p * b.toNat := Nat.mul_le_mul_left p hb
        rw [Nat.mul_add] at hle
        exact iff_of_false (by omega) (by omega)

theorem signed_concat_nonpos {l : List UInt8} {b : UInt8} (hb : 128 ≤ b.toNat) :
    signed (l ++ [b]) ≤ 0 := by
  have hlt : (value (l ++ [b]) : ℤ) < 256 ^ (l ++ [b]).length := by
    exact_mod_cast value_lt (l ++ [b])
  rw [signed, if_neg]
  · omega
  · rw [fits_append_iff l (List.cons_ne_nil b []), value_singleton]
    simp only [List.length_singleton, pow_one]
    omega

theorem signed_concat_pos {l : List UInt8} {b : UInt8} (hb : b.toNat < 128)
    (hpos : 0 < b.toNat) : 0 < signed (l ++ [b]) := by
  have hfits : 2 * value [b] < 256 ^ [b].length := by
    rw [value_singleton]
    simp only [List.length_singleton, pow_one]
    omega
  have hvalue : 0 < value (l ++ [b]) := by
    rw [value_append, value_singleton]
    positivity
  rw [signed_of_lt ((fits_append_iff l (List.cons_ne_nil b [])).mpr hfits)]
  exact_mod_cast hvalue

end MatchingEngine.LittleEndian
