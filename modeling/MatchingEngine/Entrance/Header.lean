import Mathlib
import MatchingEngine.TradeEngine
import MatchingEngine.Entrance.OrderLog

/-!
# The header of a day

The loops of `direct_io_load` over `prev_trade_info` and `alpha` go on in the file, but write
every read to the start of the buffer.  A file that fits into its buffer is read at once.  One
that does not is counted as a whole, while the second read has overwritten the first.  The
buffer of `prev_trade_info` has room for 204 records, less than the contracts of an engine.

## Main definitions

* `Segment.HoldsHeader` — a buffer has the records of the two files.
* `DayFiles.HeaderLoaded` — the first buffer of the day has them.
* `headerLoaded_iff` — when the header is loaded.
-/

namespace MatchingEngine

/-- The first `prev_count` and `alpha_count` records of the buffer are those of the two files,
and lie within the memory that the constructor of `order_buffer` allocates. -/
structure Segment.HoldsHeader (c : Segment) (day : DayFiles) : Prop where
  prev_records : (List.range c.prevCount).map (record prevTradeInfoSize c.prevInfoData) =
    records prevTradeInfoSize day.prevTradeInfo
  alpha_records : (List.range c.alphaCount).map (record alphaSize c.alphaData) =
    records alphaSize day.alpha
  prev_le : c.prevCount * prevTradeInfoSize ≤ alignPrevBufferSize
  alpha_le : c.alphaCount * alphaSize ≤ alignAlphaBufferSize

/-- **The header of the day is loaded**: the two loops end, and the first buffer that is
published has the records, wherever in the ring it is and whatever it held. -/
structure DayFiles.HeaderLoaded (day : DayFiles) : Prop where
  prev_ends : Loop.Ends (readStep day.prevTradeInfo alignPrevBufferSize) (0, [])
  alpha_ends : Loop.Ends (readStep day.alpha alignAlphaBufferSize) (0, [])
  head : ∀ (i : Fin bufferNum) (buffers : Fin bufferNum → Segment),
    ∃ c rest, segments (directIoLoad day.reads) i buffers = c :: rest ∧ c.HoldsHeader day

/-- The first buffer that is published has the start of the day, and no write comes after. -/
theorem segments_head (day : DayReads) (i : Fin bufferNum) (buffers : Fin bufferNum → Segment) :
    ∃ c rest, segments (directIoLoad day) i buffers = c :: rest ∧
      c.prevInfoData = day.prevReads.foldl overwrite (buffers i).prevInfoData ∧
      c.prevCount = offsetAfter day.prevReads / prevTradeInfoSize ∧
      c.alphaData = day.alphaReads.foldl overwrite (buffers i).alphaData ∧
      c.alphaCount = offsetAfter day.alphaReads / alphaSize := by
  rw [directIoLoad_eq, segments, segments_writes, foldl_headWrites_eq]
  cases hreads : day.orderReads with
  | nil =>
    simp only [loadOrders, List.nil_append, segments, Function.update_self, Segment.write]
    exact ⟨_, _, rfl, rfl, rfl, rfl, rfl⟩
  | cons bytes reads =>
    obtain ⟨buffers', -, -, hsegments⟩ := segments_loadOrders bytes reads
      [.write (.flag .FileEnd), .publish] i _
    rw [hsegments, Function.update_self]
    exact ⟨_, _, rfl, rfl, rfl, rfl, rfl⟩

section
variable {day : DayFiles}

theorem headerLoaded_of_fits (hprev : day.prevTradeInfo.length ≤ alignPrevBufferSize)
    (halpha : day.alpha.length ≤ alignAlphaBufferSize) : day.HeaderLoaded := by
  have hprevSize : alignPrevBufferSize < 2 ^ 32 := by decide
  have halphaSize : alignAlphaBufferSize < 2 ^ 32 := by decide
  refine ⟨(ends_readStep_iff (by decide)).mpr (hprev.trans_lt hprevSize),
    (ends_readStep_iff (by decide)).mpr (halpha.trans_lt halphaSize), fun i buffers => ?_⟩
  obtain ⟨c, rest, hc, hprevData, hprevCount, halphaData, halphaCount⟩ :=
    segments_head day.reads i buffers
  rw [DayFiles.reads, foldl_overwrite_readFile hprevSize (by decide) hprev] at hprevData
  rw [DayFiles.reads, offsetAfter_readFile (hprev.trans_lt hprevSize) (by decide)] at hprevCount
  rw [DayFiles.reads, foldl_overwrite_readFile halphaSize (by decide) halpha] at halphaData
  rw [DayFiles.reads, offsetAfter_readFile (halpha.trans_lt halphaSize) (by decide)] at halphaCount
  refine ⟨c, rest, hc, ?_, ?_, ?_, ?_⟩
  · rw [hprevCount, hprevData, records_overwrite]
  · rw [halphaCount, halphaData, records_overwrite]
  · rw [hprevCount]
    exact (Nat.div_mul_le_self _ _).trans hprev
  · rw [halphaCount]
    exact (Nat.div_mul_le_self _ _).trans halpha

theorem DayFiles.HeaderLoaded.fits (h : day.HeaderLoaded)
    (hprev : prevTradeInfoSize ∣ day.prevTradeInfo.length)
    (halpha : alphaSize ∣ day.alpha.length) :
    day.prevTradeInfo.length ≤ alignPrevBufferSize ∧ day.alpha.length ≤ alignAlphaBufferSize := by
  let buffers : Fin bufferNum → Segment := fun _ => (OrderBuffer.new [] [] []).toSegment
  obtain ⟨c, rest, hc, -, hprevCount, -, halphaCount⟩ := segments_head day.reads 0 buffers
  obtain ⟨c', rest', hc', hheader⟩ := h.head 0 buffers
  obtain ⟨rfl, -⟩ := List.cons.inj (hc.symm.trans hc')
  have hprevLen := (ends_readStep_iff (by decide)).mp h.prev_ends
  have halphaLen := (ends_readStep_iff (by decide)).mp h.alpha_ends
  -- the counts are those of the whole files, which therefore lie in the buffers
  have hprevLe := hheader.prev_le
  have halphaLe := hheader.alpha_le
  rw [hprevCount, DayFiles.reads, offsetAfter_readFile hprevLen (by decide),
    Nat.div_mul_cancel hprev] at hprevLe
  rw [halphaCount, DayFiles.reads, offsetAfter_readFile halphaLen (by decide),
    Nat.div_mul_cancel halpha] at halphaLe
  exact ⟨hprevLe, halphaLe⟩

end

/-- **When the header of the day is loaded**: just if each of the two files fits into its
buffer. -/
theorem headerLoaded_iff {day : DayFiles}
    (hprev : prevTradeInfoSize ∣ day.prevTradeInfo.length)
    (halpha : alphaSize ∣ day.alpha.length) :
    day.HeaderLoaded ↔ day.prevTradeInfo.length ≤ alignPrevBufferSize ∧
      day.alpha.length ≤ alignAlphaBufferSize :=
  ⟨fun h => h.fits hprev halpha, fun ⟨hprevLe, halphaLe⟩ => headerLoaded_of_fits hprevLe halphaLe⟩

/-- A day with 204 contracts. -/
theorem headerLoaded_of_204 :
    DayFiles.HeaderLoaded ⟨"/mnt/final_data/20230829", List.replicate (20 * 204) 1,
      List.replicate 40 2, []⟩ := by
  have hlength : (List.replicate (20 * 204) (1 : UInt8)).length = 20 * 204 := List.length_replicate
  refine (headerLoaded_iff ⟨204, hlength⟩ (by decide)).mpr ⟨?_, by decide⟩
  rw [hlength]
  decide

/-- A day with 205 contracts: `prev_count` is more than the buffer has room for. -/
theorem not_headerLoaded_of_205 : ¬ ∀ day : DayFiles,
    prevTradeInfoSize ∣ day.prevTradeInfo.length →
    day.prevTradeInfo.length / prevTradeInfoSize ≤ maxContractNum →
    alphaSize ∣ day.alpha.length → day.HeaderLoaded := by
  intro h
  have hlength : (List.replicate (20 * 205) (1 : UInt8)).length = 20 * 205 := List.length_replicate
  have hdvd : prevTradeInfoSize ∣ (List.replicate (20 * 205) (1 : UInt8)).length := ⟨205, hlength⟩
  have hloaded := h ⟨"/mnt/final_data/20230829", List.replicate (20 * 205) 1,
    List.replicate 40 2, []⟩ hdvd (by rw [hlength]; decide) (by decide)
  have hle := (hloaded.fits hdvd (by decide)).1
  rw [hlength] at hle
  exact absurd hle (by decide)

end MatchingEngine
