import Mathlib
import MatchingEngine.Entrance

/-!
# What the read loops read

A read loop of `direct_io_load` cuts a file into the results of `pread`.  Below 4 GiB, where
the offset does not wrap around, the pieces put together are the file, and all but the last
have the size that is read, so where this is whole records no record is cut.

## Main definitions

* `records size data` — the records of an array.
* `records_append`, `records_overwrite` — the records of joined and of reused memory.
* `flatten_readFile`, `records_readFile` — the pieces of a file.
* `length_readFile_le_iff` — the number of the pieces.
* `readFile_of_le` — a file that fits into one piece.
-/

namespace MatchingEngine

/-! ## Records -/

/-- The records of an array, in order. -/
def records (size : ℕ) (data : List UInt8) : List (List UInt8) :=
  (List.range (data.length / size)).map (record size data)

section records
variable {size : ℕ}

/-- A record that lies in `a` is read from `a`, whatever stands behind it. -/
theorem record_append_left {a b : List UInt8} {i : ℕ} (hi : i < a.length / size) :
    record size (a ++ b) i = record size a i := by
  have hle : size * (i + 1) ≤ a.length :=
    (Nat.mul_le_mul_left _ hi).trans (Nat.mul_div_le _ _)
  rw [Nat.mul_succ] at hle
  rw [record, record, List.drop_append_of_le_length (by omega),
    List.take_append_of_le_length (by rw [List.length_drop]; omega)]

theorem record_append_right {a : List UInt8} (hdvd : size ∣ a.length) (b : List UInt8) (i : ℕ) :
    record size (a ++ b) (a.length / size + i) = record size b i := by
  rw [record, record, Nat.mul_add, Nat.mul_div_cancel' hdvd, ← List.drop_drop, List.drop_left]

/-- **The records of joined memory**, cut at a record, are those of its parts. -/
theorem records_append (hsize : 0 < size) {a : List UInt8} (hdvd : size ∣ a.length)
    (b : List UInt8) : records size (a ++ b) = records size a ++ records size b := by
  obtain ⟨n, hn⟩ := hdvd
  have hcount : (a ++ b).length / size = a.length / size + b.length / size := by
    rw [List.length_append, hn, Nat.mul_add_div hsize, Nat.mul_div_cancel_left _ hsize]
  rw [records, hcount, List.range_add, List.map_append, List.map_map]
  refine congrArg₂ _ (List.map_congr_left fun i hi => ?_) (List.map_congr_left fun i _ => ?_)
  · exact record_append_left (List.mem_range.mp hi)
  · exact record_append_right ⟨n, hn⟩ b i

/-- The records of pieces of which only the last one may end inside of a record. -/
theorem records_flatten (hsize : 0 < size) (pieces : List (List UInt8))
    (hdvd : ∀ a ∈ pieces.dropLast, size ∣ a.length) :
    records size pieces.flatten = pieces.flatMap (records size) := by
  induction pieces with
  | nil => simp [records]
  | cons a pieces ih =>
    rw [List.flatten_cons, List.flatMap_cons]
    rcases pieces with _ | ⟨b, pieces⟩
    · simp
    · rw [List.dropLast_cons_of_ne_nil (List.cons_ne_nil b pieces)] at hdvd
      rw [records_append hsize (hdvd a List.mem_cons_self),
        ih fun c hc => hdvd c (List.mem_cons_of_mem _ hc)]

/-- In reused memory, the records that were written are read back. -/
theorem records_overwrite (memory bytes : List UInt8) :
    (List.range (bytes.length / size)).map (record size (overwrite memory bytes)) =
      records size bytes :=
  List.map_congr_left fun _ hi => record_append_left (List.mem_range.mp hi)

end records

/-! ## The read loops -/

theorem toUInt32_of_lt {x : ℕ} (hx : x < 2 ^ 32) : toUInt32 x = x := Nat.mod_eq_of_lt hx

section readFile
variable {file : List UInt8} {size : ℕ}

theorem length_pread (offset : ℕ) :
    (pread file size offset).length = min size (file.length - offset) := by
  rw [pread, List.length_take, List.length_drop]

/-- What has been read after some passes: the file up to the offset, in pieces of which none
is empty, and all are of the size that is read as long as the file has not ended. -/
structure ReadSoFar (file : List UInt8) (size : ℕ) (p : ℕ × List (List UInt8)) : Prop where
  offset_le : p.1 ≤ file.length
  flatten : p.2.flatten = file.take p.1
  pos : ∀ a ∈ p.2, 0 < a.length
  le : ∀ a ∈ p.2, a.length ≤ size
  dropLast : ∀ a ∈ p.2.dropLast, a.length = size
  full : p.1 = file.length ∨ ∀ a ∈ p.2, a.length = size

theorem ReadSoFar.step (hlen : file.length < 2 ^ 32) {p q : ℕ × List (List UInt8)}
    (hp : ReadSoFar file size p) (hstep : readStep file size p = some q) :
    ReadSoFar file size q ∧ file.length - q.1 < file.length - p.1 := by
  obtain ⟨offset, reads⟩ := p
  simp only [readStep, Option.ite_none_right_eq_some, Option.some.injEq] at hstep
  obtain ⟨hpos, rfl⟩ := hstep
  have hmin : (pread file size offset).length = min size (file.length - offset) :=
    length_pread offset
  have hle : offset + (pread file size offset).length ≤ file.length := by
    have := hp.offset_le
    simp only at this
    omega
  have hoffset := toUInt32_of_lt (hle.trans_lt hlen)
  have hfull : ∀ a ∈ reads, a.length = size := hp.full.resolve_left (by simp only; omega)
  have hmem : ∀ (P : List UInt8 → Prop), (∀ a ∈ reads, P a) → P (pread file size offset) →
      ∀ a ∈ reads ++ [pread file size offset], P a := by
    intro P hreads hlast a ha
    rcases List.mem_append.mp ha with ha | ha
    · exact hreads a ha
    · rw [List.mem_singleton.mp ha]
      exact hlast
  refine ⟨⟨?_, ?_, hmem _ hp.pos hpos, hmem _ hp.le ?_, ?_, ?_⟩, ?_⟩
  · simp only [hoffset]
    exact hle
  · have hbytes : pread file size offset =
        (file.drop offset).take (pread file size offset).length := by
      rw [hmin, pread, List.take_eq_take_min, List.length_drop]
    simp only [hoffset, List.flatten_append, List.flatten_singleton, hp.flatten]
    rw [List.take_add, ← hbytes]
  · omega
  · simp only [List.dropLast_concat]
    exact hfull
  · simp only [hoffset]
    rcases min_choice size (file.length - offset) with h | h
    · exact .inr (hmem _ hfull (hmin.trans h))
    · exact .inl (by omega)
  · simp only [hoffset]
    omega

theorem readStep_decreases (size : ℕ) (hlen : file.length < 2 ^ 32) :
    Loop.Decreases (ReadSoFar file size) (readStep file size) fun p => file.length - p.1 :=
  fun _ _ hp hstep => hp.step hlen hstep

theorem readSoFar_start (file : List UInt8) (size : ℕ) : ReadSoFar file size (0, []) :=
  ⟨Nat.zero_le _, rfl, fun _ h => absurd h List.not_mem_nil, fun _ h => absurd h List.not_mem_nil,
    fun _ h => absurd h List.not_mem_nil, .inr fun _ h => absurd h List.not_mem_nil⟩

/-- The loop ends at the end of the file. -/
theorem readSoFar_readFile (hlen : file.length < 2 ^ 32) (hpos : 0 < size) :
    ReadSoFar file size (file.length, readFile file size) := by
  have hd := readStep_decreases size hlen
  have hstart := readSoFar_start file size
  have hend : ReadSoFar file size
      (Loop.exec (readStep file size) (fun p => file.length - p.1) (0, [])) :=
    Loop.exec_invariant _ (fun p q hp hstep => (hd p q hp hstep).1) hstart
  have hdone := Loop.exec_done hd hstart
  have hreads : readFile file size =
      (Loop.exec (readStep file size) (fun p => file.length - p.1) (0, [])).2 := rfl
  rw [hreads]
  generalize Loop.exec (readStep file size) (fun p => file.length - p.1) (0, []) = p at hend hdone
  obtain ⟨offset, reads⟩ := p
  have hnone : ¬ 0 < (pread file size offset).length := by
    intro h
    simp [readStep, h] at hdone
  have hle := hend.offset_le
  rw [length_pread] at hnone
  simp only at hle
  obtain rfl : offset = file.length := by omega
  exact hend

section whole
variable (hlen : file.length < 2 ^ 32) (hpos : 0 < size)
include hlen hpos

/-- **The pieces put together are the file.** -/
theorem flatten_readFile : (readFile file size).flatten = file := by
  have h := (readSoFar_readFile hlen hpos).flatten
  rwa [List.take_length] at h

/-- **No piece cuts a record**, except the last one at the end of the file. -/
theorem records_readFile {n : ℕ} (hn : 0 < n) (hsize : n ∣ size) :
    (readFile file size).flatMap (records n) = records n file := by
  rw [← records_flatten hn, flatten_readFile hlen hpos]
  intro a ha
  rw [(readSoFar_readFile hlen hpos).dropLast a ha]
  exact hsize

/-- **The number of the pieces.** -/
theorem length_readFile_le_iff (k : ℕ) :
    (readFile file size).length ≤ k ↔ file.length ≤ k * size := by
  obtain ⟨-, -, hne, hle, hfull, -⟩ := readSoFar_readFile hlen hpos
  have hflatten := congrArg List.length (flatten_readFile hlen hpos)
  rw [List.length_flatten] at hflatten
  constructor
  · intro h
    have hsum := List.sum_le_card_nsmul ((readFile file size).map List.length) size fun n hn => by
      obtain ⟨a, ha, rfl⟩ := List.mem_map.mp hn
      exact hle a ha
    rw [hflatten, List.length_map, smul_eq_mul] at hsum
    exact hsum.trans (Nat.mul_le_mul_right _ h)
  · intro h
    by_contra hlt
    have hnil : readFile file size ≠ [] := List.ne_nil_of_length_pos (by omega)
    have hsplit := List.dropLast_append_getLast hnil
    have hlast := hne _ (List.getLast_mem hnil)
    have hinit : ((readFile file size).dropLast.map List.length).sum =
        ((readFile file size).length - 1) * size := by
      rw [List.sum_eq_card_nsmul _ size fun n hn => by
        obtain ⟨a, ha, rfl⟩ := List.mem_map.mp hn
        exact hfull a ha]
      simp
    rw [← hsplit, List.map_append, List.sum_append, hinit] at hflatten
    have hmul : k * size ≤ ((readFile file size).length - 1) * size :=
      Nat.mul_le_mul_right _ (by omega)
    simp only [List.map_cons, List.map_nil, List.sum_singleton] at hflatten
    omega

theorem readFile_eq_nil_iff : readFile file size = [] ↔ file = [] := by
  have hflatten := flatten_readFile hlen hpos
  constructor
  · intro h
    rw [← hflatten, h, List.flatten_nil]
  · intro h
    refine List.eq_nil_iff_forall_not_mem.mpr fun a ha => ?_
    have hne := (readSoFar_readFile hlen hpos).pos a ha
    rw [List.flatten_eq_nil_iff.mp (hflatten.trans h) a ha] at hne
    exact lt_irrefl 0 hne

/-- A file that fits is read in one piece, and an empty one in none. -/
theorem readFile_of_le (hle : file.length ≤ size) :
    readFile file size = if file = [] then [] else [file] := by
  split
  · next h => exact (readFile_eq_nil_iff hlen hpos).mpr h
  · next h =>
    have hlength : 0 < file.length := List.length_pos_iff.mpr h
    have hd := readStep_decreases size hlen
    have hall : pread file size 0 = file := List.take_of_length_le hle
    have hfirst : readStep file size (0, []) = some (file.length, [file]) := by
      simp only [readStep, hall, if_pos hlength, zero_add, toUInt32_of_lt hlen, List.nil_append]
    have hlast : readStep file size (file.length, [file]) = none := by
      simp [readStep, pread]
    rw [readFile, Loop.exec_of_some hd (readSoFar_start file size) hfirst, Loop.exec_of_none hlast]

end whole

end readFile

end MatchingEngine
