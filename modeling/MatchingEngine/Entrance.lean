import Mathlib
import MatchingEngine.Lib.Loop

/-!
# The loader and the matching threads

`io.h` and `entrance.cpp`: one thread loads the files of the days into a ring of buffers and
five threads match what they find there.  Every load, store or fetch-or of a `finish_bit` is
one step, and so is every single access to a buffer in between; a run is a list of the
threads that take the next step.

The control flow of `direct_io_load` depends on the results of `pread` only, so a day is
its list of accesses to the buffers, `directIoLoad`.  The calls a matching thread makes are
recorded with the engine they are made on; records stay the bytes they are in the files.
The clocks and the messages of the threads are left out.

## Main definitions

* `Segment`, `OrderBuffer` — a buffer without and with its `finish_bit`.
* `readFile` — the results of `pread` in the loops of `direct_io_load`.
* `directIoLoad`, `ioThread` — the accesses of the loader.
* `Worker`, `Worker.step` — `matching_thread` between the accesses to `finish_bit`.
* `Entrance`, `step`, `run` — the threads and their interleavings.
-/

namespace MatchingEngine

/-! ## Constants -/

/-- `WORKER_THREAD_NUM` -/
def workerThreadNum : ℕ := 5

/-- `BUFFER_NUM` -/
def bufferNum : ℕ := 8

def alignAlphaBufferSize : ℕ := 1024 * 1024 * 2
def alignPrevBufferSize : ℕ := 1024 * 4
def readBufferSize : ℕ := 1024 * 1024 * 360
def dateLength : ℕ := 8

/-- `sizeof(prev_trade_info)`, a packed structure. -/
def prevTradeInfoSize : ℕ := 20

/-- `sizeof(alpha)`, a packed structure. -/
def alphaSize : ℕ := 20

/-- `sizeof(order_log)`, a packed structure. -/
def orderLogSize : ℕ := 36

instance : NeZero workerThreadNum := ⟨by decide⟩

instance : NeZero bufferNum := ⟨by decide⟩

/-- `INCR` -/
def incr (index : Fin bufferNum) : Fin bufferNum :=
  Fin.ofNat bufferNum ((index.val + 1) &&& (bufferNum - 1))

/-- `ALL_WORKER_BIT` -/
def allWorkerBit : UInt8 := (1 <<< UInt8.ofNat workerThreadNum) - 1

/-- `WORKER_BIT` -/
def workerBit (id : Fin workerThreadNum) : UInt8 := 1 <<< UInt8.ofNat id

/-! ## Buffers -/

/-- `buffer_flag` -/
inductive BufferFlag
  | FileHead
  | FileEnd
  | InProcess
  deriving DecidableEq, Repr

/-- What an `order_buffer` holds beside its `finish_bit`. -/
structure Segment where
  orderData : List UInt8
  alphaData : List UInt8
  prevInfoData : List UInt8
  prevCount : ℕ
  alphaCount : ℕ
  orderCount : ℕ
  flag : BufferFlag
  path : String
  deriving DecidableEq, Repr

/-- `order_buffer` -/
structure OrderBuffer extends Segment where
  finishBit : UInt8

/-- The constructor of `order_buffer`, in whose memory anything may be. -/
def OrderBuffer.new (orderData alphaData prevInfoData : List UInt8) : OrderBuffer where
  orderData := orderData
  alphaData := alphaData
  prevInfoData := prevInfoData
  prevCount := 0
  alphaCount := 0
  orderCount := 0
  flag := .InProcess
  path := ""
  finishBit := allWorkerBit

/-- The record at place `i` of an array of records. -/
def record (size : ℕ) (data : List UInt8) (i : ℕ) : List UInt8 := (data.drop (size * i)).take size

/-! ## Files -/

/-- The conversion to `uint32_t`. -/
def toUInt32 (x : ℕ) : ℕ := x % 2 ^ 32

/-- What `pread` reads from a file. -/
def pread (file : List UInt8) (size offset : ℕ) : List UInt8 := (file.drop offset).take size

/-- One pass of a read loop: the offset, and what has been read so far. -/
def readStep (file : List UInt8) (size : ℕ) :
    ℕ × List (List UInt8) → Option (ℕ × List (List UInt8))
  | (offset, reads) =>
    let bytes := pread file size offset
    if 0 < bytes.length then some (toUInt32 (offset + bytes.length), reads ++ [bytes]) else none

/-- The results of `pread` until it reads nothing. -/
def readFile (file : List UInt8) (size : ℕ) : List (List UInt8) :=
  (Loop.exec (readStep file size) (fun p => file.length - p.1) (0, [])).2

/-- The files of a day, in the directory `path`. -/
structure DayFiles where
  path : String
  prevTradeInfo : List UInt8
  alpha : List UInt8
  orderLog : List UInt8
  deriving DecidableEq, Repr

/-- What `pread` reads from the files of a day. -/
structure DayReads where
  path : String
  prevReads : List (List UInt8)
  alphaReads : List (List UInt8)
  orderReads : List (List UInt8)
  deriving DecidableEq, Repr

def DayFiles.reads (day : DayFiles) : DayReads where
  path := day.path
  prevReads := readFile day.prevTradeInfo alignPrevBufferSize
  alphaReads := readFile day.alpha alignAlphaBufferSize
  orderReads := readFile day.orderLog readBufferSize

/-! ## The loader -/

/-- A write of the loader to a buffer. -/
inductive Write
  | flag (flag : BufferFlag)
  | path (path : String)
  | prevInfoData (bytes : List UInt8)
  | prevCount (count : ℕ)
  | alphaData (bytes : List UInt8)
  | alphaCount (count : ℕ)
  | orderData (bytes : List UInt8)
  | orderCount (count : ℕ)
  deriving DecidableEq, Repr

/-- The memory after `bytes` are written to its start. -/
def overwrite (memory bytes : List UInt8) : List UInt8 := bytes ++ memory.drop bytes.length

/-- The buffer after a write. -/
def Segment.write (c : Segment) : Write → Segment
  | .flag flag => { c with flag := flag }
  | .path path => { c with path := path }
  | .prevInfoData bytes => { c with prevInfoData := overwrite c.prevInfoData bytes }
  | .prevCount count => { c with prevCount := count }
  | .alphaData bytes => { c with alphaData := overwrite c.alphaData bytes }
  | .alphaCount count => { c with alphaCount := count }
  | .orderData bytes => { c with orderData := overwrite c.orderData bytes }
  | .orderCount count => { c with orderCount := count }

/-- An access of the loader to `buffers[buffer_index]`. -/
inductive Access
  /-- `while (finish_bit != ALL_WORKER_BIT);` -/
  | spin
  | write (w : Write)
  /-- `finish_bit = 0`, after which the loader goes to the next buffer. -/
  | publish
  deriving DecidableEq, Repr

/-- The offset after a read loop. -/
def offsetAfter (reads : List (List UInt8)) : ℕ := toUInt32 (reads.map List.length).sum

/-- The loop over the segments of `order_log`. -/
def loadOrders : List (List UInt8) → List Access
  | [] => []
  | bytes :: reads =>
    [.write (.orderData bytes), .write (.orderCount (bytes.length / orderLogSize)), .publish,
      .spin, .write (.flag .InProcess), .write (.orderCount 0)] ++ loadOrders reads

/-- `path.substr(path.size() - DATE_LENGTH)` -/
def dateName (path : String) : String :=
  .ofList (path.toList.drop (path.toList.length - dateLength))

/-- `direct_io_load` -/
def directIoLoad (day : DayReads) : List Access :=
  [Access.spin, .write (.flag .FileHead), .write (.path (dateName day.path))] ++
  day.prevReads.map (fun bytes => Access.write (.prevInfoData bytes)) ++
  [Access.write (.prevCount (offsetAfter day.prevReads / prevTradeInfoSize))] ++
  day.alphaReads.map (fun bytes => Access.write (.alphaData bytes)) ++
  [Access.write (.alphaCount (offsetAfter day.alphaReads / alphaSize))] ++
  loadOrders day.orderReads ++
  [Access.write (.flag .FileEnd), .publish]

/-- The loop of `io_thread` over the days. -/
def ioThread (days : List DayReads) : List Access := days.flatMap directIoLoad

/-! ## The matching threads -/

/-- A call on an engine, with the record whose fields are its arguments. -/
inductive RecordCall
  | initContract (record : List UInt8)
  | insertAlpha (record : List UInt8)
  | insertOrderLog (record : List UInt8)
  | onComplete
  deriving DecidableEq, Repr

/-- A call of a matching thread.  An engine is named by how many it made before it; `none` is
the null pointer, and the pointer before its first assignment. -/
inductive EngineCall
  | new (engine : ℕ) (path : String)
  | call (engine : Option ℕ) (call : RecordCall)
  deriving DecidableEq, Repr

/-- Where a matching thread is in its loop. -/
inductive Pc
  /-- `while ((finish_bit & workerBit) != 0);` -/
  | spin
  /-- At the test of `FILE_HEAD`. -/
  | head
  /-- In the loop over `prev_info_data`. -/
  | prev (i : ℕ)
  /-- In the loop over `alpha_data`. -/
  | alpha (i : ℕ)
  /-- In the loop over `order_data`. -/
  | order (i : ℕ)
  /-- At the test of `FILE_END`. -/
  | tail
  /-- `finish_bit |= workerBit` -/
  | release
  deriving DecidableEq, Repr

/-- The local state of a matching thread.  `made`, `calls` and `processed` are history
variables: the engines it made, its calls, and the contents it has released, each with the
buffer they were in. -/
structure Worker where
  pc : Pc
  bufferIndex : Fin bufferNum
  engine : Option ℕ
  made : ℕ
  calls : List EngineCall
  processed : List (Fin bufferNum × Segment)

namespace Worker

def new : Worker := ⟨.spin, 0, none, 0, [], []⟩

/-- Call the engine and go on at `pc`. -/
def callAt (w : Worker) (pc : Pc) (call : RecordCall) : Worker :=
  { w with pc := pc, calls := w.calls ++ [.call w.engine call] }

/-- A step of `matching_thread` that reads the buffer `c`. -/
def step (w : Worker) (c : Segment) : Worker :=
  match w.pc with
  | .head =>
    if c.flag = .FileHead then
      { w with
        pc := .prev 0
        engine := some w.made
        made := w.made + 1
        calls := w.calls ++ [.new w.made c.path] }
    else { w with pc := .order 0 }
  | .prev i =>
    if i < c.prevCount then
      w.callAt (.prev (i + 1)) (.initContract (record prevTradeInfoSize c.prevInfoData i))
    else { w with pc := .alpha 0 }
  | .alpha i =>
    if i < c.alphaCount then
      w.callAt (.alpha (i + 1)) (.insertAlpha (record alphaSize c.alphaData i))
    else { w with pc := .order 0 }
  | .order i =>
    if i < c.orderCount then
      w.callAt (.order (i + 1)) (.insertOrderLog (record orderLogSize c.orderData i))
    else { w with pc := .tail }
  | .tail =>
    if c.flag = .FileEnd then { w.callAt .release .onComplete with engine := none }
    else { w with pc := .release }
  | .spin => w
  | .release => w

end Worker

/-! ## The threads together -/

/-- The shared buffers, what the loader has still to do and at which buffer it is, and the
matching threads.  `published` is a history variable: the contents that the loader published,
each with its buffer. -/
structure Entrance where
  buffers : Fin bufferNum → OrderBuffer
  accesses : List Access
  bufferIndex : Fin bufferNum
  workers : Fin workerThreadNum → Worker
  published : List (Fin bufferNum × Segment)

/-- A thread of `entrance`. -/
inductive Thread
  | loader
  | worker (id : Fin workerThreadNum)
  deriving DecidableEq, Repr

namespace Entrance

/-- The start of `main`, for the days `days` and buffers in whose memory is `memory`. -/
def main (memory : Fin bufferNum → List UInt8 × List UInt8 × List UInt8) (days : List DayReads) :
    Entrance where
  buffers i := .new (memory i).1 (memory i).2.1 (memory i).2.2
  accesses := ioThread days
  bufferIndex := 0
  workers _ := .new
  published := []

/-- Replace a buffer. -/
def setBuffer (s : Entrance) (i : Fin bufferNum) (b : OrderBuffer) : Entrance :=
  { s with buffers := Function.update s.buffers i b }

/-- Replace the local state of a matching thread. -/
def setWorker (s : Entrance) (id : Fin workerThreadNum) (w : Worker) : Entrance :=
  { s with workers := Function.update s.workers id w }

/-- A step of the loader. -/
def loaderStep (s : Entrance) : Entrance :=
  let b := s.buffers s.bufferIndex
  match s.accesses with
  | [] => s
  | .spin :: accesses =>
    if b.finishBit ≠ allWorkerBit then s else { s with accesses := accesses }
  | .write w :: accesses =>
    { s.setBuffer s.bufferIndex { b with toSegment := b.toSegment.write w } with
      accesses := accesses }
  | .publish :: accesses =>
    { s.setBuffer s.bufferIndex { b with finishBit := 0 } with
      accesses := accesses
      bufferIndex := incr s.bufferIndex
      published := s.published ++ [(s.bufferIndex, b.toSegment)] }

/-- A step of a matching thread. -/
def workerStep (s : Entrance) (id : Fin workerThreadNum) : Entrance :=
  let w := s.workers id
  let b := s.buffers w.bufferIndex
  match w.pc with
  | .spin => if b.finishBit &&& workerBit id ≠ 0 then s else s.setWorker id { w with pc := .head }
  | .release =>
    (s.setBuffer w.bufferIndex { b with finishBit := b.finishBit ||| workerBit id }).setWorker id
      { w with
        pc := .spin
        bufferIndex := incr w.bufferIndex
        processed := w.processed ++ [(w.bufferIndex, b.toSegment)] }
  | _ => s.setWorker id (w.step b.toSegment)

def step (s : Entrance) : Thread → Entrance
  | .loader => s.loaderStep
  | .worker id => s.workerStep id

/-- The state after the threads of the list have taken their steps, one after the other. -/
def run (s : Entrance) (schedule : List Thread) : Entrance := schedule.foldl step s

end Entrance
end MatchingEngine
