import Mathlib
import MatchingEngine.Lib.Loop
import MatchingEngine.Lib.Traverse
import MatchingEngine.Records
import MatchingEngine.Floating.Arithmetic

/-!
# The comparison of result files

`file_comparator.cpp` reads two files a record at a time, as long as both have another one, and
stops the test at the first two that are different.  A file that cannot be opened is read as an
empty one, and `checkFileSize` only prints the sizes, so a file passes as long as its records are
those at the start of the other.

## Main definitions

* `TwapOrder.equals`, `PnlAndPos.equals` — `operator==` of the rows.
* `compareFiles` — the loop of both comparisons.
* `compareTWAPFiles`, `comparePNLFiles` — the comparisons.
* `compareFiles_iff` — when a comparison passes.
* `compareFiles_of_start` — a file that is not complete passes as well.
-/

namespace MatchingEngine

open Layout Loop

/-- `twap_order::operator==` -/
def TwapOrder.equals (a b : TwapOrder) : Bool :=
  a.instrumentId = b.instrumentId ∧ a.timestamp = b.timestamp ∧ a.direction = b.direction ∧
    a.volume = b.volume ∧ priceEq (A := Floating.arithmetic) a.price b.price

/-- `pnl_and_pos::operator==` -/
def PnlAndPos.equals (a b : PnlAndPos) : Bool :=
  a.instrumentId = b.instrumentId ∧ a.position = b.position ∧
    priceEq (A := Floating.arithmetic) a.pnl b.pnl

namespace FileComparator
variable {α : Type} (a : Layout α) (equals : α → α → Bool)

/-- Whether two records are equal; one with a number that is not finite is equal to none. -/
def sameRecord (record record' : List UInt8) : Bool :=
  match a.load record, a.load record' with
  | some x, some x' => equals x x'
  | _, _ => false

/-- What is left of the two files, and whether all records so far were equal. -/
structure Comparison where
  file1 : List UInt8
  file2 : List UInt8
  passed : Bool

/-- One pass of the loop: a record of each file; two that are different end the test. -/
def compareStep (s : Comparison) : Option Comparison :=
  if s.passed = true ∧ a.size ≤ s.file1.length ∧ a.size ≤ s.file2.length then
    some ⟨s.file1.drop a.size, s.file2.drop a.size,
      sameRecord a equals (s.file1.take a.size) (s.file2.take a.size)⟩
  else none

/-- The loop of the comparisons. -/
def compareFiles (file1 file2 : List UInt8) : Bool :=
  (exec (compareStep a equals) (fun s => s.file1.length) ⟨file1, file2, true⟩).passed

variable {a equals}

theorem compareStep_decreases (hsize : 0 < a.size) :
    Decreases (fun _ => True) (compareStep a equals) fun s => s.file1.length := by
  intro s t _ hstep
  simp only [compareStep, Option.ite_none_right_eq_some, Option.some.injEq] at hstep
  obtain ⟨⟨-, hle, -⟩, rfl⟩ := hstep
  refine ⟨trivial, ?_⟩
  simp only [List.length_drop]
  omega

theorem pieces_of_le {size : ℕ} (hsize : 0 < size) {file : List UInt8} (h : size ≤ file.length) :
    pieces size file = file.take size :: pieces size (file.drop size) := by
  conv_lhs => rw [← List.take_append_drop size file]
  exact pieces_append hsize (List.length_take_of_le h) _

theorem pieces_of_lt {size : ℕ} {file : List UInt8} (h : file.length < size) :
    pieces size file = [] := by
  rw [pieces, Nat.div_eq_of_lt h, List.range_zero, List.map_nil]

/-- **When a comparison passes**: the records that both files have whole are equal. -/
theorem compareFiles_iff (hsize : 0 < a.size) (file1 file2 : List UInt8) :
    compareFiles a equals file1 file2 = true ↔
      ∀ (i : ℕ) (record record' : List UInt8), (pieces a.size file1)[i]? = some record →
        (pieces a.size file2)[i]? = some record' → sameRecord a equals record record' = true := by
  have hloop : ∀ s : Comparison,
      (exec (compareStep a equals) (fun s => s.file1.length) s).passed = true ↔ s.passed = true ∧
        ∀ (i : ℕ) (record record' : List UInt8), (pieces a.size s.file1)[i]? = some record →
          (pieces a.size s.file2)[i]? = some record' →
            sameRecord a equals record record' = true := by
    intro s
    refine exec_induction (compareStep_decreases hsize) (fun s t => t.passed = true ↔
      s.passed = true ∧ ∀ (i : ℕ) (record record' : List UInt8),
        (pieces a.size s.file1)[i]? = some record → (pieces a.size s.file2)[i]? = some record' →
          sameRecord a equals record record' = true) ?_ ?_ trivial
    · intro s _ hstop
      refine (and_iff_left_of_imp fun hpassed i record record' h1 h2 => ?_).symm
      simp only [compareStep, hpassed, true_and, ite_eq_right_iff, reduceCtorEq, imp_false,
        not_and_or, not_le] at hstop
      rcases hstop with hlt | hlt
      · rw [pieces_of_lt hlt, List.getElem?_nil] at h1
        cases h1
      · rw [pieces_of_lt hlt, List.getElem?_nil] at h2
        cases h2
    · intro s t _ hstep ih
      simp only [compareStep, Option.ite_none_right_eq_some, Option.some.injEq] at hstep
      obtain ⟨⟨hpassed, hle1, hle2⟩, rfl⟩ := hstep
      rw [ih, pieces_of_le hsize hle1, pieces_of_le hsize hle2]
      simp only [hpassed, true_and]
      constructor
      · rintro ⟨hfirst, hrest⟩ i record record' h1 h2
        cases i with
        | zero =>
          obtain rfl := Option.some.inj h1
          obtain rfl := Option.some.inj h2
          exact hfirst
        | succ i => exact hrest i record record' h1 h2
      · intro hall
        exact ⟨hall 0 _ _ rfl rfl, fun i record record' h1 h2 => hall (i + 1) record record' h1 h2⟩
  exact (hloop ⟨file1, file2, true⟩).trans (and_iff_right rfl)

/-- **A file that is not complete passes** where the complete one does. -/
theorem compareFiles_of_start (hsize : 0 < a.size) {file file1 file2 : List UInt8}
    (hstart : file <+: file1) (h : compareFiles a equals file1 file2 = true) :
    compareFiles a equals file file2 = true := by
  rw [compareFiles_iff hsize] at h ⊢
  intro i record record' h1 h2
  obtain ⟨hi, rfl⟩ := List.getElem?_eq_some_iff.mp h1
  exact h i _ record' (List.prefix_iff_getElem?.mp (pieces_isPrefix_pieces hstart) i hi) h2

/-- Files of rows that are equal pass. -/
theorem compareFiles_storeAll (hsize : 0 < a.size) {values values' : List α}
    (h : List.Forall₂ (fun x x' => sameRecord a equals (a.store x) (a.store x') = true) values
      values') : compareFiles a equals (a.storeAll values) (a.storeAll values') = true := by
  have hpieces : ∀ l : List α, pieces a.size (a.storeAll l) = l.map a.store := fun l => by
    simpa using pieces_storeAll a hsize l (show [].length < a.size from hsize)
  rw [compareFiles_iff hsize]
  intro i record record' h1 h2
  rw [hpieces, List.getElem?_map, Option.map_eq_some_iff] at h1 h2
  obtain ⟨x, hx, rfl⟩ := h1
  obtain ⟨x', hx', rfl⟩ := h2
  have hrel := Traverse.forall₂_getElem? h i
  rw [hx, hx'] at hrel
  cases hrel with
  | some hsame => exact hsame

end FileComparator

open FileComparator

def compareTWAPFiles (actual expect : List UInt8) : Bool :=
  compareFiles twapOrderLayout TwapOrder.equals actual expect

def comparePNLFiles (actual expect : List UInt8) : Bool :=
  compareFiles pnlAndPosLayout PnlAndPos.equals actual expect

end MatchingEngine
