import Mathlib
import MatchingEngine.FileComparator
import MatchingEngine.Net.Delivery

/-!
# The comparison of an upload that is not finished

While an upload is received, or after it is cut off, its two files hold the start of the rows or
do not exist.  The comparison reads no further than the shorter file, so if the complete files
pass, those of the upload pass at any time: a report that was lost on the way is not noticed.

## Main definitions

* `Files.read` — what the comparison reads of a file.
* `passes_read` — what is received so far passes.
* `unfinished_accepted` — the files of an upload pass at any time.
-/

namespace MatchingEngine

open ByteStream FileComparator

/-- What the comparison reads of a file; one that does not exist is read as an empty one. -/
def Files.read (files : Files) (path : List UInt8) : List UInt8 := (files path).getD []

/-- A file that holds what it held before, or the start of a file that passes. -/
theorem passes_read {α : Type} {a : Layout α} {equals : α → α → Bool} (hsize : 0 < a.size)
    {files files' : Files} {path expect : List UInt8}
    (hbefore : compareFiles a equals (files.read path) expect = true) {complete : List UInt8}
    (hfile : ∀ contents, files' path = some contents →
      files path = some contents ∨ contents <+: complete)
    (hcomplete : compareFiles a equals complete expect = true) :
    compareFiles a equals (files'.read path) expect = true := by
  cases hpath : files' path with
  | none =>
    rw [Files.read, hpath]
    exact compareFiles_of_start hsize List.nil_prefix hcomplete
  | some contents =>
    rw [Files.read, hpath]
    rcases hfile contents hpath with h | h
    · rwa [Files.read, h] at hbefore
    · exact compareFiles_of_start hsize h hcomplete

/-- **The files of an upload pass at any time**, whatever other clients do, if what was there
before and the complete files pass: the comparison does not notice that rows are missing. -/
theorem unfinished_accepted {ι : Type} [DecidableEq ι] (clients : ι → Client) (files : Files)
    (hnames : ∀ i j, i ≠ j → (clients i).name ≠ (clients j).name) (schedule : List ι) {i : ι}
    {seg : Segmentation} {memory : Memory} {r : Report}
    (hclient : clients i = uploadClient seg memory r) (hwhole : WholeFields seg r)
    (hfits : r.Fits) {name : FileName} (hname : nameBytes r.fileName = name.chars)
    {expectTwap expectPnl : List UInt8}
    (htwapBefore : compareTWAPFiles (files.read r.twapPath) expectTwap = true)
    (hpnlBefore : comparePNLFiles (files.read r.pnlPath) expectPnl = true)
    (htwap : compareTWAPFiles (twapOrderLayout.storeAll r.twapOrders) expectTwap = true)
    (hpnl : comparePNLFiles (pnlAndPosLayout.storeAll r.pnlAndPos) expectPnl = true) :
    let t := serverRun clients files schedule
    compareTWAPFiles (Files.read t.store r.twapPath) expectTwap = true ∧
      comparePNLFiles (Files.read t.store r.pnlPath) expectPnl = true := by
  intro t
  have hpaths := mem_paths_uploadClient hwhole.name memory hname
  obtain ⟨htwaps, hpnls⟩ := writeAll_upload files r (twapOrderLayout.storeAll r.twapOrders)
    (pnlAndPosLayout.storeAll r.pnlAndPos)
  have hfile : ∀ path complete, path ∈ (uploadClient seg memory r).paths →
      files.writeAll [⟨r.twapPath, twapOrderLayout.storeAll r.twapOrders⟩,
        ⟨r.pnlPath, pnlAndPosLayout.storeAll r.pnlAndPos⟩] path = some complete →
      ∀ contents, t.store path = some contents → files path = some contents ∨
        contents <+: complete := by
    intro path complete hpath hcomplete contents hcontents
    have h := file_serverRun clients files hnames schedule i (by rwa [hclient]) hcontents
    rw [hclient] at h
    refine h.imp_right fun ⟨contents', hcontents', hstart⟩ => ?_
    have halone := handleClient_upload hwhole hfits hname memory
    rw [← halone] at hcomplete
    rwa [← Option.some.inj (hcontents'.symm.trans hcomplete)]
  exact ⟨passes_read (by decide) htwapBefore (hfile _ _ ((hpaths _).mpr (.inl rfl)) htwaps) htwap,
    passes_read (by decide) hpnlBefore (hfile _ _ ((hpaths _).mpr (.inr rfl)) hpnls) hpnl⟩

/-- Two reports of one day, of which the first has prices that are no `double`. -/
def twoReports (i : Bool) : Report where
  fileName := if i then "20230829_3_1" else "20230829_3_3"
  twapOrders := [⟨1, 100500, 1, 1, 1013 / 100⟩, ⟨1, 101500, 1, 2, 1016 / 100⟩]
  pnlAndPos := [⟨1, 3, 7 / 20⟩]

/-- The first upload has sent a name, a length and a part of a row when the comparison is made. -/
theorem unfinished_accepted_of_twoReports :
    let t := serverRun (fun i => uploadClient wholeArrival.seg wholeArrival.memory (twoReports i))
      (fun _ => none) [true, false, true, true, false]
    compareTWAPFiles (Files.read t.store (twoReports true).twapPath)
        (twapOrderLayout.storeAll (twoReports true).twapOrders) = true ∧
      comparePNLFiles (Files.read t.store (twoReports true).pnlPath)
        (pnlAndPosLayout.storeAll (twoReports true).pnlAndPos) = true :=
  unfinished_accepted (fun i => uploadClient wholeArrival.seg wholeArrival.memory (twoReports i))
    (fun _ => none) (by decide +kernel) [true, false, true, true, false] (i := true) rfl
    ⟨by decide, by decide, by decide +kernel⟩ ⟨by decide, by decide⟩
    (show nameBytes (twoReports true).fileName =
      FileName.chars ⟨nameBytes "20230829_3_1", by decide +kernel, by decide +kernel⟩ from rfl)
    (by decide +kernel) (by decide +kernel) (by decide +kernel) (by decide +kernel)

end MatchingEngine
