import Mathlib
import MatchingEngine.Entrance.Calls
import MatchingEngine.Entrance.Files
import MatchingEngine.Entrance.Progress

/-!
# The days as the matching threads see them

What the loader still publishes is determined by its accesses and the buffers as they are,
`segments`, and with what it has published already this never changes.  For the buffers
of a day the calls of a matching thread are the calls of the day, `dayCalls`, if the day has
an order record.  A day without one is published as a single buffer whose `FILE_HEAD` has
been overwritten by `FILE_END`, so that no engine is made for it.

## Main definitions

* `segments`, `announced` — the contents that are published, in the end.
* `calls_announced` — the calls of a matching thread are the first of those for these.
* `dayCalls`, `framed` — the calls of a day, of a list of days.
* `calls_framed_iff` — when the calls of the matching threads are framed by days.
-/

namespace MatchingEngine

/-! ## What the loader publishes -/

/-- The contents that accesses of the loader publish, from the buffer `i` of `buffers` on. -/
def segments : List Access → Fin bufferNum → (Fin bufferNum → Segment) → List Segment
  | [], _, _ => []
  | .spin :: accesses, i, buffers => segments accesses i buffers
  | .write w :: accesses, i, buffers =>
    segments accesses i (Function.update buffers i ((buffers i).write w))
  | .publish :: accesses, i, buffers => buffers i :: segments accesses (incr i) buffers

/-- A run of writes fills the buffer. -/
theorem segments_writes (ws : List Write) (accesses : List Access) (i : Fin bufferNum)
    (buffers : Fin bufferNum → Segment) :
    segments (ws.map .write ++ accesses) i buffers =
      segments accesses i (Function.update buffers i (ws.foldl .write (buffers i))) := by
  induction ws generalizing buffers with
  | nil => simp
  | cons w ws ih =>
    rw [List.map_cons, List.cons_append, segments, ih, Function.update_self,
      Function.update_idem]
    rfl

namespace Entrance

/-- What the buffers hold. -/
def contents (s : Entrance) : Fin bufferNum → Segment := OrderBuffer.toSegment ∘ s.buffers

/-- What the loader has published, and what it still does. -/
def announced (s : Entrance) : List Segment :=
  s.published.map Prod.snd ++ segments s.accesses s.bufferIndex s.contents

theorem contents_setBuffer (s : Entrance) (i : Fin bufferNum) (b : OrderBuffer) :
    (s.setBuffer i b).contents = Function.update s.contents i b.toSegment :=
  Function.comp_update ..

/-- A change of a `finish_bit` is no change of the contents. -/
theorem contents_setBuffer_finishBit (s : Entrance) (i : Fin bufferNum) (bits : UInt8) :
    (s.setBuffer i { s.buffers i with finishBit := bits }).contents = s.contents := by
  rw [contents_setBuffer]
  exact Function.update_eq_self i s.contents

theorem announced_loaderStep (s : Entrance) : s.loaderStep.announced = s.announced := by
  simp only [loaderStep]
  split
  · rfl
  · next accesses hacc =>
    split
    · rfl
    · rw [announced, announced, hacc]
      rfl
  · next w accesses hacc =>
    have hcontents := contents_setBuffer s s.bufferIndex { s.buffers s.bufferIndex with
      toSegment := (s.buffers s.bufferIndex).toSegment.write w }
    rw [announced, announced, hacc, segments]
    exact congrArg (fun c => s.published.map Prod.snd ++ segments accesses s.bufferIndex c)
      hcontents
  · next accesses hacc =>
    have hcontents := contents_setBuffer_finishBit s s.bufferIndex 0
    rw [announced, announced, hacc, segments, List.map_append, List.append_assoc]
    exact congrArg (fun c => s.published.map Prod.snd ++
      ((s.buffers s.bufferIndex).toSegment :: segments accesses (incr s.bufferIndex) c)) hcontents

theorem announced_workerStep (s : Entrance) (id : Fin workerThreadNum) :
    (s.workerStep id).announced = s.announced := by
  simp only [workerStep]
  split
  · split <;> rfl
  · exact congrArg (fun c => s.published.map Prod.snd ++ segments s.accesses s.bufferIndex c)
      (contents_setBuffer_finishBit s _ _)
  · rfl

/-- **The contents that are published in the end never change.** -/
theorem announced_run (s : Entrance) (schedule : List Thread) :
    (s.run schedule).announced = s.announced := by
  refine run_invariant (I := fun t => t.announced = s.announced) ?_ rfl schedule
  intro t thread ht
  cases thread with
  | loader => exact (announced_loaderStep t).trans ht
  | worker id => exact (announced_workerStep t id).trans ht

section calls
variable {s : Entrance} {id : Fin workerThreadNum} (h : Tracks s id)
include h

theorem Tracks.calls_of_complete (hdone : s.Complete id) :
    (s.workers id).calls = matchingCalls s.announced := by
  rw [(h.waiting hdone.pc).1, released, hdone.processed, announced, hdone.accesses, segments,
    List.append_nil]

/-- The calls of a matching thread are the first of those for the announced contents. -/
theorem Tracks.calls_announced (hinOrder : (s.workers id).processed <+: s.published) :
    (s.workers id).calls <+: matchingCalls s.announced := by
  obtain ⟨rest, hrest⟩ := hinOrder
  by_cases hspin : (s.workers id).pc = .spin
  · rw [(h.waiting hspin).1]
    refine matchingCalls_mono ⟨rest.map Prod.snd ++
      segments s.accesses s.bufferIndex s.contents, ?_⟩
    rw [released, announced, ← hrest, List.map_append, List.append_assoc]
  · obtain ⟨i, c, hc, hcalls, -⟩ := h.processing hspin
    rw [← hrest, List.getElem?_append_right le_rfl, Nat.sub_self] at hc
    obtain ⟨rest', rfl⟩ : ∃ rest', rest = (i, c) :: rest' := by
      cases rest with
      | nil => cases hc
      | cons entry rest' => exact ⟨rest', by rw [Option.some.inj hc]⟩
    have hle : s.released id ++ [c] <+: s.announced := by
      refine ⟨rest'.map Prod.snd ++ segments s.accesses s.bufferIndex s.contents, ?_⟩
      rw [released, announced, ← hrest]
      simp only [List.map_append, List.map_cons, List.append_assoc, List.cons_append,
        List.nil_append]
    have hmade : (s.workers id).calls <+: matchingCalls (s.released id ++ [c]) := ⟨_, hcalls⟩
    exact hmade.trans (matchingCalls_mono hle)

end calls
end Entrance

/-! ## The calls of the days -/

/-- The files of the day are whole records and of the sizes the loader has room for. -/
structure DayFiles.Loadable (day : DayFiles) : Prop where
  prevTradeInfo_dvd : prevTradeInfoSize ∣ day.prevTradeInfo.length
  prevTradeInfo_le : day.prevTradeInfo.length ≤ alignPrevBufferSize
  alpha_dvd : alphaSize ∣ day.alpha.length
  alpha_le : day.alpha.length ≤ alignAlphaBufferSize
  orderLog_dvd : orderLogSize ∣ day.orderLog.length
  orderLog_lt : day.orderLog.length < 2 ^ 32

instance (day : DayFiles) : Decidable day.Loadable :=
  decidable_of_iff
    (prevTradeInfoSize ∣ day.prevTradeInfo.length ∧
      day.prevTradeInfo.length ≤ alignPrevBufferSize ∧ alphaSize ∣ day.alpha.length ∧
      day.alpha.length ≤ alignAlphaBufferSize ∧ orderLogSize ∣ day.orderLog.length ∧
      day.orderLog.length < 2 ^ 32)
    ⟨fun ⟨h₁, h₂, h₃, h₄, h₅, h₆⟩ => ⟨h₁, h₂, h₃, h₄, h₅, h₆⟩,
      fun ⟨h₁, h₂, h₃, h₄, h₅, h₆⟩ => ⟨h₁, h₂, h₃, h₄, h₅, h₆⟩⟩

/-- The files of the day are of the sizes the loader has room for. -/
structure DayFiles.Fits (day : DayFiles) : Prop where
  prevTradeInfo_le : day.prevTradeInfo.length ≤ alignPrevBufferSize
  alpha_le : day.alpha.length ≤ alignAlphaBufferSize
  orderLog_lt : day.orderLog.length < 2 ^ 32

theorem DayFiles.Loadable.fits {day : DayFiles} (h : day.Loadable) : day.Fits :=
  ⟨h.prevTradeInfo_le, h.alpha_le, h.orderLog_lt⟩

/-- The calls on the engine `n`, one for each record. -/
def recordCalls (n : ℕ) (call : List UInt8 → RecordCall) (rs : List (List UInt8)) :
    List EngineCall :=
  rs.map fun r => .call (some n) (call r)

/-- The calls that a day should be made: a new engine with its name, its records in the order
of the files, and the end. -/
def dayCalls (n : ℕ) (day : DayFiles) : List EngineCall :=
  .new n (dateName day.path) ::
    (recordCalls n .initContract (records prevTradeInfoSize day.prevTradeInfo) ++
      recordCalls n .insertAlpha (records alphaSize day.alpha) ++
      recordCalls n .insertOrderLog (records orderLogSize day.orderLog) ++
      [.call (some n) .onComplete])

/-- The calls that the days should be made, day by day, each on an engine of its own. -/
def framedFrom (n : ℕ) : List DayFiles → List EngineCall
  | [] => []
  | day :: days => dayCalls n day ++ framedFrom (n + 1) days

def framed (days : List DayFiles) : List EngineCall := framedFrom 0 days

/-- In memory that has been used before, the calls for what was written are made. -/
theorem loopCalls_overwrite (n : ℕ) (call : List UInt8 → RecordCall) (size : ℕ)
    (memory bytes : List UInt8) :
    loopCalls (some n) call size (overwrite memory bytes) (bytes.length / size) 0 =
      recordCalls n call (records size bytes) := by
  rw [loopCalls, Nat.sub_zero, ← List.range_eq_range', recordCalls, ← records_overwrite memory,
    List.map_map]
  rfl

/-! ### The start of a day -/

/-- The writes to the first buffer of a day before the loop over `order_log`. -/
def headWrites (day : DayReads) : List Write :=
  [.flag .FileHead, .path (dateName day.path)] ++ day.prevReads.map .prevInfoData ++
    [.prevCount (offsetAfter day.prevReads / prevTradeInfoSize)] ++
    day.alphaReads.map .alphaData ++ [.alphaCount (offsetAfter day.alphaReads / alphaSize)]

theorem directIoLoad_eq (day : DayReads) :
    directIoLoad day = .spin :: ((headWrites day).map .write ++
      (loadOrders day.orderReads ++ [.write (.flag .FileEnd), .publish])) := by
  simp [directIoLoad, headWrites, Function.comp_def]

/-- The buffer `c` with the start of the day. -/
def Segment.head (c : Segment) (day : DayFiles) : Segment :=
  { c with
    flag := .FileHead
    path := dateName day.path
    prevInfoData := overwrite c.prevInfoData day.prevTradeInfo
    prevCount := day.prevTradeInfo.length / prevTradeInfoSize
    alphaData := overwrite c.alphaData day.alpha
    alphaCount := day.alpha.length / alphaSize }

theorem foldl_prevInfoData (c : Segment) (reads : List (List UInt8)) :
    (reads.map Write.prevInfoData).foldl .write c =
      { c with prevInfoData := reads.foldl overwrite c.prevInfoData } := by
  induction reads generalizing c with
  | nil => rfl
  | cons bytes reads ih => exact ih _

theorem foldl_alphaData (c : Segment) (reads : List (List UInt8)) :
    (reads.map Write.alphaData).foldl .write c =
      { c with alphaData := reads.foldl overwrite c.alphaData } := by
  induction reads generalizing c with
  | nil => rfl
  | cons bytes reads ih => exact ih _

/-- The writes that start a day fill the buffer with what was read, the last read on top. -/
theorem foldl_headWrites_eq (day : DayReads) (c : Segment) :
    (headWrites day).foldl .write c = { c with
      flag := .FileHead
      path := dateName day.path
      prevInfoData := day.prevReads.foldl overwrite c.prevInfoData
      prevCount := offsetAfter day.prevReads / prevTradeInfoSize
      alphaData := day.alphaReads.foldl overwrite c.alphaData
      alphaCount := offsetAfter day.alphaReads / alphaSize } := by
  simp only [headWrites, List.foldl_append, List.foldl_cons, List.foldl_nil, foldl_prevInfoData,
    foldl_alphaData, Segment.write]

/-- Below 4 GiB the offset ends at the length of the file. -/
theorem offsetAfter_readFile {file : List UInt8} {size : ℕ} (hlen : file.length < 2 ^ 32)
    (hpos : 0 < size) : offsetAfter (readFile file size) = file.length := by
  rw [offsetAfter, ← List.length_flatten, flatten_readFile hlen hpos, toUInt32_of_lt hlen]

/-- A file that fits into its buffer is written there as a whole. -/
theorem foldl_overwrite_readFile {file : List UInt8} {size : ℕ} (hsize : size < 2 ^ 32)
    (hpos : 0 < size) (hle : file.length ≤ size) (memory : List UInt8) :
    (readFile file size).foldl overwrite memory = overwrite memory file := by
  rw [readFile_of_le (hle.trans_lt hsize) hpos hle]
  split
  · next h =>
    subst h
    rfl
  · rfl

theorem foldl_headWrites {day : DayFiles} (hprev : day.prevTradeInfo.length ≤ alignPrevBufferSize)
    (halpha : day.alpha.length ≤ alignAlphaBufferSize) (c : Segment) :
    (headWrites day.reads).foldl .write c = c.head day := by
  have hprevSize : alignPrevBufferSize < 2 ^ 32 := by decide
  have halphaSize : alignAlphaBufferSize < 2 ^ 32 := by decide
  simp only [foldl_headWrites_eq, DayFiles.reads, Segment.head,
    foldl_overwrite_readFile hprevSize (by decide) hprev,
    foldl_overwrite_readFile halphaSize (by decide) halpha,
    offsetAfter_readFile (hprev.trans_lt hprevSize) (by decide : 0 < alignPrevBufferSize),
    offsetAfter_readFile (halpha.trans_lt halphaSize) (by decide : 0 < alignAlphaBufferSize)]

/-! ### The buffers of a day -/

/-- A read of `order_log` is published, and the next buffer is begun. -/
theorem segments_loadOrders (bytes : List UInt8) (reads : List (List UInt8))
    (accesses : List Access) (i : Fin bufferNum) (buffers : Fin bufferNum → Segment) :
    ∃ buffers', (buffers' (incr i)).flag = .InProcess ∧ (buffers' (incr i)).orderCount = 0 ∧
      segments (loadOrders (bytes :: reads) ++ accesses) i buffers =
        { buffers i with
          orderData := overwrite (buffers i).orderData bytes
          orderCount := bytes.length / orderLogSize } ::
        segments (loadOrders reads ++ accesses) (incr i) buffers' := by
  simp only [loadOrders, List.cons_append, List.nil_append, segments, Function.update_self,
    Function.update_idem, Segment.write]
  exact ⟨_, by rw [Function.update_self], by rw [Function.update_self], rfl⟩

/-- The calls for what is left of a day that has been begun. -/
theorem callsFrom_loadOrders (n made : ℕ) (reads : List (List UInt8)) (accesses : List Access)
    {i : Fin bufferNum} {buffers : Fin bufferNum → Segment}
    (hflag : (buffers i).flag = .InProcess) (hcount : (buffers i).orderCount = 0) :
    ∃ i' buffers', callsFrom (some n, made)
        (segments (loadOrders reads ++ .write (.flag .FileEnd) :: .publish :: accesses) i buffers) =
      recordCalls n .insertOrderLog (reads.flatMap (records orderLogSize)) ++
        .call (some n) .onComplete :: callsFrom (none, made) (segments accesses i' buffers') := by
  induction reads generalizing i buffers with
  | nil =>
    set c := (buffers i).write (.flag .FileEnd) with hc
    refine ⟨incr i, Function.update buffers i c, ?_⟩
    have hnone : c.orderCount ≤ 0 := hcount.le
    obtain ⟨hcalls, hafter⟩ := c.calls_of_fileEnd (some n) rfl made
    rw [loadOrders, List.nil_append, segments, segments, Function.update_self, ← hc, callsFrom,
      hcalls, hafter, loopCalls_of_le _ _ _ _ hnone]
    rfl
  | cons bytes reads ih =>
    obtain ⟨buffers', hflag', hcount', hsegments⟩ := segments_loadOrders bytes reads
      (.write (.flag .FileEnd) :: .publish :: accesses) i buffers
    obtain ⟨i', buffers'', hrest⟩ := ih hflag' hcount'
    refine ⟨i', buffers'', ?_⟩
    rw [hsegments]
    set c : Segment := { buffers i with
      orderData := overwrite (buffers i).orderData bytes
      orderCount := bytes.length / orderLogSize } with hc
    obtain ⟨hcalls, hafter⟩ := c.calls_of_inProcess (some n) hflag made
    rw [callsFrom, hcalls, hafter, hrest, hc, loopCalls_overwrite, List.flatMap_cons, recordCalls,
      recordCalls, recordCalls, List.map_append, List.append_assoc]

section day
variable {day : DayFiles} (hday : day.Fits) (n : ℕ) (accesses : List Access)
  (i : Fin bufferNum) (buffers : Fin bufferNum → Segment)
include hday

/-- The first buffer of the day is filled, whatever it held. -/
theorem segments_directIoLoad :
    segments (directIoLoad day.reads ++ accesses) i buffers =
      segments (loadOrders day.reads.orderReads ++ .write (.flag .FileEnd) :: .publish :: accesses) i
        (Function.update buffers i ((buffers i).head day)) := by
  rw [directIoLoad_eq, List.cons_append, segments, List.append_assoc, segments_writes,
    foldl_headWrites hday.prevTradeInfo_le hday.alpha_le, List.append_assoc]
  rfl

/-- **The calls for a day with an order record** are those it should be made. -/
theorem callsFrom_directIoLoad (horders : day.orderLog ≠ []) :
    ∃ i' buffers', callsFrom (none, n) (segments (directIoLoad day.reads ++ accesses) i buffers) =
      dayCalls n day ++ callsFrom (none, n + 1) (segments accesses i' buffers') := by
  have hpos : 0 < readBufferSize := by decide
  have hrecords : day.reads.orderReads.flatMap (records orderLogSize) =
      records orderLogSize day.orderLog :=
    records_readFile hday.orderLog_lt hpos (by decide) (by decide)
  obtain ⟨bytes, reads, hreads⟩ : ∃ bytes reads, day.reads.orderReads = bytes :: reads :=
    List.exists_cons_of_ne_nil fun h => horders ((readFile_eq_nil_iff hday.orderLog_lt hpos).mp h)
  obtain ⟨buffers', hflag, hcount, hsegments⟩ := segments_loadOrders bytes reads
    (.write (.flag .FileEnd) :: .publish :: accesses) i
    (Function.update buffers i ((buffers i).head day))
  obtain ⟨i', buffers'', hrest⟩ := callsFrom_loadOrders n (n + 1) reads accesses hflag hcount
  refine ⟨i', buffers'', ?_⟩
  rw [segments_directIoLoad hday, hreads, hsegments, Function.update_self]
  set c : Segment := { (buffers i).head day with
    orderData := overwrite ((buffers i).head day).orderData bytes
    orderCount := bytes.length / orderLogSize } with hc
  obtain ⟨hcalls, hafter⟩ := c.calls_of_fileHead none rfl n
  rw [callsFrom, hcalls, hafter, hrest, hc, Segment.head, loopCalls_overwrite, loopCalls_overwrite,
    loopCalls_overwrite, dayCalls, ← hrecords, hreads, List.flatMap_cons]
  simp only [recordCalls, List.map_append, List.append_assoc, List.cons_append, List.nil_append]

/-- For a day without an order record, no engine is made: the orders that the buffer held
before and the end of the day go to the engine of no day. -/
theorem callsFrom_directIoLoad_of_nil (horders : day.orderLog = []) :
    ∃ i' buffers', callsFrom (none, n) (segments (directIoLoad day.reads ++ accesses) i buffers) =
      loopCalls none .insertOrderLog orderLogSize (buffers i).orderData (buffers i).orderCount 0 ++
        .call none .onComplete :: callsFrom (none, n) (segments accesses i' buffers') := by
  have hreads : day.reads.orderReads = [] :=
    (readFile_eq_nil_iff hday.orderLog_lt (by decide)).mpr horders
  set c := ((buffers i).head day).write (.flag .FileEnd) with hc
  refine ⟨incr i, Function.update buffers i c, ?_⟩
  obtain ⟨hcalls, hafter⟩ := c.calls_of_fileEnd none rfl n
  rw [segments_directIoLoad hday, hreads, loadOrders, List.nil_append, segments, segments,
    Function.update_self, Function.update_self, ← hc, Function.update_idem, callsFrom, hcalls,
    hafter, List.append_assoc]
  rfl

end day

/-! ## Runs of days -/

theorem ioThread_cons (day : DayFiles) (days : List DayFiles) :
    ioThread ((day :: days).map DayFiles.reads) =
      directIoLoad day.reads ++ ioThread (days.map DayFiles.reads) := rfl

section days
variable {days : List DayFiles} (hdays : ∀ day ∈ days, day.Fits)
include hdays

theorem callsFrom_ioThread (horders : ∀ day ∈ days, day.orderLog ≠ []) (n : ℕ)
    (i : Fin bufferNum) (buffers : Fin bufferNum → Segment) :
    callsFrom (none, n) (segments (ioThread (days.map DayFiles.reads)) i buffers) =
      framedFrom n days := by
  induction days generalizing n i buffers with
  | nil => rfl
  | cons day days ih =>
    obtain ⟨hday, hrest⟩ := List.forall_mem_cons.mp hdays
    obtain ⟨horder, horders⟩ := List.forall_mem_cons.mp horders
    obtain ⟨i', buffers', hcalls⟩ := callsFrom_directIoLoad hday n
      (ioThread (days.map DayFiles.reads)) i buffers horder
    rw [ioThread_cons, hcalls, ih hrest horders, framedFrom]

/-- The call makes an engine. -/
def EngineCall.isNew : EngineCall → Bool
  | .new _ _ => true
  | .call _ _ => false

omit hdays in
theorem countP_loopCalls (e : Option ℕ) (call : List UInt8 → RecordCall) (size : ℕ)
    (data : List UInt8) (count i : ℕ) :
    (loopCalls e call size data count i).countP EngineCall.isNew = 0 := by
  simp [loopCalls, EngineCall.isNew, List.countP_map]

omit hdays in
theorem countP_dayCalls (n : ℕ) (day : DayFiles) :
    (dayCalls n day).countP EngineCall.isNew = 1 := by
  simp [dayCalls, recordCalls, EngineCall.isNew, List.countP_cons, List.countP_map]

omit hdays in
/-- Every day should be made an engine. -/
theorem countP_framedFrom (n : ℕ) : (framedFrom n days).countP EngineCall.isNew = days.length := by
  induction days generalizing n with
  | nil => rfl
  | cons day days ih =>
    rw [framedFrom, List.countP_append, countP_dayCalls, ih, List.length_cons, Nat.add_comm]

/-- Engines are made for the days with an order record. -/
theorem countP_callsFrom_ioThread (n : ℕ) (i : Fin bufferNum) (buffers : Fin bufferNum → Segment) :
    (callsFrom (none, n) (segments (ioThread (days.map DayFiles.reads)) i buffers)).countP
      EngineCall.isNew = days.countP fun day => day.orderLog ≠ [] := by
  induction days generalizing n i buffers with
  | nil => rfl
  | cons day days ih =>
    obtain ⟨hday, hrest⟩ := List.forall_mem_cons.mp hdays
    rw [ioThread_cons, List.countP_cons]
    by_cases horders : day.orderLog = []
    · obtain ⟨i', buffers', hcalls⟩ := callsFrom_directIoLoad_of_nil hday n
        (ioThread (days.map DayFiles.reads)) i buffers horders
      rw [hcalls, List.countP_append, List.countP_cons, countP_loopCalls, ih hrest]
      simp [EngineCall.isNew, horders]
    · obtain ⟨i', buffers', hcalls⟩ := callsFrom_directIoLoad hday n
        (ioThread (days.map DayFiles.reads)) i buffers horders
      rw [hcalls, List.countP_append, countP_dayCalls, ih hrest, Nat.add_comm]
      simp [horders]

/-- **The calls for the days are framed** just if every day has an order record. -/
theorem callsFrom_ioThread_iff (n : ℕ) (i : Fin bufferNum) (buffers : Fin bufferNum → Segment) :
    callsFrom (none, n) (segments (ioThread (days.map DayFiles.reads)) i buffers) =
      framedFrom n days ↔ ∀ day ∈ days, day.orderLog ≠ [] := by
  refine ⟨fun heq => ?_, fun horders => callsFrom_ioThread hdays horders n i buffers⟩
  have hcount := countP_callsFrom_ioThread hdays n i buffers
  rw [heq, countP_framedFrom] at hcount
  simpa using List.countP_eq_length.mp hcount.symm

end days

namespace Entrance

theorem matchingCalls_announced_main
    (memory : Fin bufferNum → List UInt8 × List UInt8 × List UInt8) (days : List DayReads) :
    matchingCalls (main memory days).announced =
      callsFrom (none, 0) (segments (ioThread days) 0 (main memory days).contents) := rfl

theorem matchingCalls_announced_run
    (memory : Fin bufferNum → List UInt8 × List UInt8 × List UInt8) (days : List DayReads)
    (schedule : List Thread) :
    matchingCalls ((main memory days).run schedule).announced =
      callsFrom (none, 0) (segments (ioThread days) 0 (main memory days).contents) := by
  rw [announced_run, matchingCalls_announced_main]

/-- **The calls of a matching thread are framed by days** in every interleaving, the first of
them at any time and all of them in the end, just if every day has an order record. -/
theorem calls_framed_iff (memory : Fin bufferNum → List UInt8 × List UInt8 × List UInt8)
    {days : List DayFiles} (hdays : ∀ day ∈ days, day.Loadable) (id : Fin workerThreadNum) :
    (∀ schedule : List Thread,
      let s := (main memory (days.map DayFiles.reads)).run schedule
      (s.workers id).calls <+: framed days ∧
        (s.Complete id → (s.workers id).calls = framed days)) ↔
    ∀ day ∈ days, day.orderLog ≠ [] := by
  set start := main memory (days.map DayFiles.reads)
  have hframed := callsFrom_ioThread_iff (fun day hday => (hdays day hday).fits) 0 0 start.contents
  have hannounced := matchingCalls_announced_run memory (days.map DayFiles.reads)
  constructor
  · intro h
    obtain ⟨schedule, hdone⟩ := exists_run_complete (ring_inv memory (days.map DayFiles.reads) [])
    have hcalls := (tracks_run memory _ schedule id).calls_of_complete (hdone id)
    rw [hannounced] at hcalls
    exact hframed.mp (hcalls.symm.trans ((h schedule).2 (hdone id)))
  · intro horders schedule
    have htracks : Tracks (start.run schedule) id := tracks_run memory _ schedule id
    have hinv := (ring_inv memory (days.map DayFiles.reads) schedule).2
    rw [framed, ← hframed.mpr horders, ← hannounced schedule]
    exact ⟨htracks.calls_announced (hinv.inOrder id), htracks.calls_of_complete⟩

/-- A day with so many records in `prev_trade_info`, `alpha` and `order_log`. -/
def dayOf (date : String) (prevs alphas orders : ℕ) : DayFiles :=
  ⟨"/mnt/final_data/" ++ date, List.replicate (prevTradeInfoSize * prevs) 1,
    List.replicate (alphaSize * alphas) 2, List.replicate (orderLogSize * orders) 3⟩

/-- Two buffers for each day: the ring of eight is filled and begun again. -/
def fiveDays : List DayFiles :=
  [dayOf "20230829" 1 0 1, dayOf "20230830" 2 1 2, dayOf "20230831" 1 0 1, dayOf "20230901" 0 1 1,
    dayOf "20230902" 1 2 1]

theorem loadable_fiveDays : ∀ day ∈ fiveDays, day.Loadable := by decide +kernel

theorem orderLog_ne_nil_fiveDays : ∀ day ∈ fiveDays, day.orderLog ≠ [] := by decide +kernel

/-- The loader fills the ring, every matching thread releases it, then the loader and the first
of the threads come to their end. -/
def fiveDaysRun : Entrance :=
  (main (fun _ => ([], [], [])) (fiveDays.map DayFiles.reads)).run
    (List.replicate 57 .loader ++
      (List.finRange workerThreadNum).flatMap (fun id => List.replicate 60 (.worker id)) ++
      List.replicate 17 .loader ++ List.replicate 20 (.worker 0))

theorem complete_fiveDaysRun : fiveDaysRun.Complete 0 :=
  ⟨⟨by decide +kernel, by decide +kernel⟩, by decide +kernel⟩

theorem calls_framed_of_fiveDays : (fiveDaysRun.workers 0).calls = framed fiveDays := by
  have hdone := complete_fiveDaysRun
  rw [fiveDaysRun] at hdone ⊢
  exact ((calls_framed_iff (fun _ => ([], [], [])) loadable_fiveDays 0).mpr
    orderLog_ne_nil_fiveDays _).2 hdone

/-- A day without an order record: its only call is `onComplete` on no engine. -/
theorem not_framed_of_no_orders :
    ¬ ∀ (memory : Fin bufferNum → List UInt8 × List UInt8 × List UInt8) (days : List DayFiles),
      (∀ day ∈ days, day.Loadable) → ∀ (schedule : List Thread) (id : Fin workerThreadNum),
      let s := (main memory (days.map DayFiles.reads)).run schedule
      (s.workers id).calls <+: framed days := by
  intro h
  have hcalls := h (fun _ => ([], [], [])) [⟨"/mnt/final_data/20230829", [], [], []⟩] (by decide)
    (List.replicate 7 .loader ++ List.replicate 4 (.worker 0)) 0
  revert hcalls
  decide +kernel

end Entrance
end MatchingEngine
