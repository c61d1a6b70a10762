import Mathlib
import MatchingEngine.Lib.LittleEndian
import MatchingEngine.Lib.Binary64

/-!
# Values in memory

How the values of a type lie in memory, in a fixed number of bytes.  A value that was stored is
not always the one that is loaded: an integer may have more bits than there is room for, and a
number is rounded.  So a layout says what becomes of a value, and packed structures and arrays
take over what their parts do.

## Main definitions

* `Layout` — how values are stored and loaded, and what becomes of them.
* `ulong`, `signed`, `double` — the layouts of numbers.
* `prod`, `map` — those of packed structures.
* `loadAll_storeAll` — an array is loaded as it was stored, a value cut off at the end left out.
-/

namespace MatchingEngine

open LittleEndian Rounding

/-- How values lie in memory. -/
structure Layout (α : Type) where
  size : ℕ
  store : α → List UInt8
  /-- The value of `size` bytes, if these are of any. -/
  load : List UInt8 → Option α
  /-- What becomes of a value. -/
  stored : α → Option α
  length_store : ∀ a, (store a).length = size
  load_store : ∀ a, load (store a) = stored a

namespace Layout

variable {α β : Type}

/-! ## Numbers -/

/-- A number of 64 bits. -/
def ulong : Layout UInt64 where
  size := 8
  store x := bytes 8 x.toNat
  load l := some (.ofNat (value l))
  stored := some
  length_store _ := length_bytes ..
  load_store x := by
    rw [value_bytes, Nat.mod_eq_of_lt (x.toNat_lt.trans_eq (by norm_num)), UInt64.ofNat_toNat]

/-- A number of `k` bytes with a sign. -/
def signed (k : ℕ) : Layout ℤ where
  size := k
  store := signedBytes k
  load l := some (LittleEndian.signed l)
  stored x := some (x.bmod (256 ^ k))
  length_store _ := length_signedBytes ..
  load_store x := by rw [signed_signedBytes]

theorem word_lt (x : ℚ) : Binary64.word x < 256 ^ 8 := by
  have hle : Binary64.magnitudeWord |x| ≤ Binary64.infinity := by
    rw [Binary64.magnitudeWord]
    split
    · exact Nat.zero_le _
    · exact min_le_left _ _
  rw [Binary64.infinity] at hle
  rw [Binary64.word]
  split <;> omega

/-- A number in floating point. -/
def double : Layout ℚ where
  size := 8
  store x := bytes 8 (Binary64.word x)
  load l := Binary64.value? (value l)
  stored x := if |binary64.round x| < 2 ^ (1024 : ℤ) then some (binary64.round x) else none
  length_store _ := length_bytes ..
  load_store x := by
    rw [value_bytes, Nat.mod_eq_of_lt (word_lt x), Binary64.value?_word]

/-! ## Structures -/

/-- One value after the other, with nothing in between. -/
def prod (a : Layout α) (b : Layout β) : Layout (α × β) where
  size := a.size + b.size
  store p := a.store p.1 ++ b.store p.2
  load l := (a.load (l.take a.size)).bind fun x => (b.load (l.drop a.size)).map fun y => (x, y)
  stored p := (a.stored p.1).bind fun x => (b.stored p.2).map fun y => (x, y)
  length_store p := by rw [List.length_append, a.length_store, b.length_store]
  load_store p := by
    rw [List.take_left' (a.length_store _), List.drop_left' (a.length_store _), a.load_store,
      b.load_store]

/-- The values under other names. -/
def map (a : Layout α) (f : α → β) (g : β → α) : Layout β where
  size := a.size
  store y := a.store (g y)
  load l := (a.load l).map f
  stored y := (a.stored (g y)).map f
  length_store y := a.length_store (g y)
  load_store y := by rw [a.load_store]

/-! ## Arrays -/

/-- The pieces of `size` bytes in memory, without what is too short at the end. -/
def pieces (size : ℕ) (memory : List UInt8) : List (List UInt8) :=
  (List.range (memory.length / size)).map fun i => (memory.drop (size * i)).take size

theorem pieces_append {size : ℕ} (hsize : 0 < size) {piece : List UInt8}
    (hpiece : piece.length = size) (memory : List UInt8) :
    pieces size (piece ++ memory) = piece :: pieces size memory := by
  have hcount : (piece ++ memory).length / size = memory.length / size + 1 := by
    rw [List.length_append, hpiece, Nat.add_comm, Nat.add_div_right _ hsize]
  rw [pieces, hcount, List.range_succ_eq_map, List.map_cons, List.map_map, pieces]
  congr 1
  · rw [Nat.mul_zero, List.drop_zero, List.take_left' hpiece]
  · refine List.map_congr_left fun i _ => ?_
    have hoffset : size * (i + 1) = piece.length + size * i := by rw [hpiece]; ring
    rw [Function.comp_apply, Nat.succ_eq_add_one, hoffset, List.drop_length_add_append]

/-- The pieces of the start of a memory are the first pieces of it. -/
theorem pieces_isPrefix_pieces {size : ℕ} {memory memory' : List UInt8} (h : memory <+: memory') :
    pieces size memory <+: pieces size memory' := by
  obtain ⟨rest, rfl⟩ := h
  have hcount : memory.length / size ≤ (memory ++ rest).length / size := by
    rw [List.length_append]
    exact Nat.div_le_div_right (Nat.le_add_right _ _)
  have hsame : pieces size memory = ((List.range (memory.length / size)).map fun i =>
      ((memory ++ rest).drop (size * i)).take size) := by
    refine List.map_congr_left fun i hi => ?_
    have hle : size * (i + 1) ≤ memory.length :=
      (Nat.mul_le_mul_left size (List.mem_range.mp hi)).trans (Nat.mul_div_le _ _)
    rw [mul_add, mul_one] at hle
    rw [List.drop_append_of_le_length (by omega), List.take_append_of_le_length]
    rw [List.length_drop]
    omega
  rw [hsame, pieces]
  refine (List.prefix_iff_eq_take.mpr ?_).map _
  rw [List.take_range, List.length_range, min_eq_left hcount]

variable (a : Layout α)

def storeAll (values : List α) : List UInt8 := values.flatMap a.store

/-- The values of an array. -/
def loadAll (memory : List UInt8) : Option (List α) := (pieces a.size memory).mapM a.load

/-- The pieces of an array are its values; what is too short for one is left out. -/
theorem pieces_storeAll (hsize : 0 < a.size) (values : List α) {rest : List UInt8}
    (hrest : rest.length < a.size) :
    pieces a.size (a.storeAll values ++ rest) = values.map a.store := by
  induction values with
  | nil => simp [pieces, storeAll, Nat.div_eq_of_lt hrest]
  | cons x values ih =>
    rw [storeAll, List.flatMap_cons, List.append_assoc, pieces_append hsize (a.length_store x),
      ← storeAll, ih, List.map_cons]

/-- **An array is loaded as it was stored.** -/
theorem loadAll_storeAll (hsize : 0 < a.size) (values : List α) {rest : List UInt8}
    (hrest : rest.length < a.size) :
    a.loadAll (a.storeAll values ++ rest) = values.mapM a.stored := by
  rw [loadAll, pieces_storeAll a hsize values hrest, List.mapM_map]
  exact congrArg (fun f => values.mapM f) (funext a.load_store)

end Layout
end MatchingEngine
