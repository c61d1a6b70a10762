import Mathlib
import MatchingEngine.Entrance.Framing

/-!
# The order log is delivered

The segment loop of `direct_io_load` advances a 32-bit offset.  Below 4 GiB it ends, and the
published segments put together are the records of the file.  From 4 GiB on the offset wraps
around before it reaches the end of the file, and the loop never ends.

## Main definitions

* `Segment.delivered` — the records that a matching thread finds in a buffer.
* `delivered_iff` — when the loop ends and the segments are the file.
-/

namespace MatchingEngine

/-- The first `order_count` records of `order_data`. -/
def Segment.delivered (c : Segment) : List (List UInt8) :=
  (List.range c.orderCount).map (record orderLogSize c.orderData)

/-- The segments of the loop deliver what was read, and the last one of the day nothing more. -/
theorem delivered_loadOrders (reads : List (List UInt8)) {i : Fin bufferNum}
    {buffers : Fin bufferNum → Segment} (hcount : reads = [] → (buffers i).orderCount = 0) :
    (segments (loadOrders reads ++ [.write (.flag .FileEnd), .publish]) i buffers).flatMap
      Segment.delivered = reads.flatMap (records orderLogSize) := by
  induction reads generalizing i buffers with
  | nil =>
    have hnone : ((buffers i).write (.flag .FileEnd)).orderCount = 0 := hcount rfl
    simp only [loadOrders, List.nil_append, segments, Function.update_self, List.flatMap_cons,
      List.flatMap_nil, Segment.delivered, hnone, List.range_zero, List.map_nil, List.append_nil]
  | cons bytes reads ih =>
    obtain ⟨buffers', -, hcount', hsegments⟩ := segments_loadOrders bytes reads
      [.write (.flag .FileEnd), .publish] i buffers
    rw [hsegments, List.flatMap_cons, ih fun _ => hcount', List.flatMap_cons, Segment.delivered,
      records_overwrite]

theorem delivered_directIoLoad {day : DayReads} (hreads : day.orderReads ≠ []) (i : Fin bufferNum)
    (buffers : Fin bufferNum → Segment) :
    (segments (directIoLoad day) i buffers).flatMap Segment.delivered =
      day.orderReads.flatMap (records orderLogSize) := by
  rw [directIoLoad_eq, segments, segments_writes]
  exact delivered_loadOrders _ fun h => absurd h hreads

/-- From 4 GiB on the offset never reaches the end of the file. -/
theorem not_ends_readStep {file : List UInt8} {size : ℕ} (hsize : 0 < size)
    (hlen : 2 ^ 32 ≤ file.length) : ¬ Loop.Ends (readStep file size) (0, []) := by
  refine Loop.not_ends (fun p => p.1 < 2 ^ 32) ?_ (by norm_num)
  rintro ⟨offset, reads⟩ hoffset
  have hpos : 0 < (pread file size offset).length := by
    rw [length_pread]
    simp only at hoffset
    omega
  exact ⟨_, if_pos hpos, Nat.mod_lt _ (by norm_num)⟩

/-- **A read loop ends** just if the file is shorter than 4 GiB. -/
theorem ends_readStep_iff {file : List UInt8} {size : ℕ} (hsize : 0 < size) :
    Loop.Ends (readStep file size) (0, []) ↔ file.length < 2 ^ 32 := by
  constructor
  · intro hends
    by_contra hlen
    exact not_ends_readStep hsize (not_lt.mp hlen) hends
  · intro hlen
    exact Loop.ends_of_decreases (readStep_decreases size hlen) (readSoFar_start file size)

/-- **The order log is delivered completely** just if it is shorter than 4 GiB.  The statement
is about the loop over `order_log` alone: with a `prev_trade_info` or `alpha` file from 4 GiB on
the loop over that file already never ends, and the code does not come to this one. -/
theorem delivered_iff {day : DayFiles} (_hdvd : orderLogSize ∣ day.orderLog.length)
    (hne : day.orderLog ≠ []) (i : Fin bufferNum) (buffers : Fin bufferNum → Segment) :
    (Loop.Ends (readStep day.orderLog readBufferSize) (0, []) ∧
      (segments (directIoLoad day.reads) i buffers).flatMap Segment.delivered =
        records orderLogSize day.orderLog) ↔ day.orderLog.length < 2 ^ 32 := by
  have hpos : 0 < readBufferSize := by decide
  constructor
  · rintro ⟨hends, -⟩
    exact (ends_readStep_iff hpos).mp hends
  · intro hlen
    have hrecords : day.reads.orderReads.flatMap (records orderLogSize) =
        records orderLogSize day.orderLog := records_readFile hlen hpos (by decide) (by decide)
    have hreads : day.reads.orderReads ≠ [] := fun h => hne ((readFile_eq_nil_iff hlen hpos).mp h)
    refine ⟨(ends_readStep_iff hpos).mpr hlen, ?_⟩
    rw [delivered_directIoLoad hreads, hrecords]

/-- A log that is one record longer than `READ_BUFFER_SIZE`, and is read in two segments. -/
theorem delivered_of_two_segments :
    let day : DayFiles := ⟨"/mnt/final_data/20230829", [], [], List.replicate (36 * 10485761) 7⟩
    let buffers : Fin bufferNum → Segment := fun _ => (OrderBuffer.new [] [] []).toSegment
    Loop.Ends (readStep day.orderLog readBufferSize) (0, []) ∧
      (segments (directIoLoad day.reads) 0 buffers).flatMap Segment.delivered =
        records orderLogSize day.orderLog := by
  intro day buffers
  have hlength : day.orderLog.length = 36 * 10485761 := List.length_replicate
  have hdvd : orderLogSize ∣ day.orderLog.length := ⟨10485761, hlength⟩
  have hne : day.orderLog ≠ [] := List.ne_nil_of_length_pos (by rw [hlength]; norm_num)
  exact (delivered_iff hdvd hne 0 buffers).mpr (by rw [hlength]; norm_num)

/-- A log of 125829120 records is longer than 4 GiB, and the offset wraps to 224 MiB. -/
theorem not_delivered_of_long_log :
    ¬ ∀ (day : DayFiles) (i : Fin bufferNum) (buffers : Fin bufferNum → Segment),
      orderLogSize ∣ day.orderLog.length → day.orderLog ≠ [] →
      Loop.Ends (readStep day.orderLog readBufferSize) (0, []) ∧
        (segments (directIoLoad day.reads) i buffers).flatMap Segment.delivered =
          records orderLogSize day.orderLog := by
  intro h
  have hlength : (List.replicate (36 * 125829120) (7 : UInt8)).length = 36 * 125829120 :=
    List.length_replicate
  obtain ⟨hends, -⟩ := h
    ⟨"/mnt/final_data/20230829", [], [], List.replicate (36 * 125829120) 7⟩ 0
    (fun _ => (OrderBuffer.new [] [] []).toSegment) ⟨125829120, hlength⟩
    (List.ne_nil_of_length_pos (by rw [hlength]; norm_num))
  exact not_ends_readStep (by decide) (by rw [hlength]; norm_num) hends

end MatchingEngine
