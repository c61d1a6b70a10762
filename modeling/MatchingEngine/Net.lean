import Mathlib
import MatchingEngine.Lib.LittleEndian
import MatchingEngine.Lib.ByteStream
import MatchingEngine.Entrance

/-!
# The upload of the results

`client.h` and `server.cpp`: the matching machine sends the name, the TWAP orders and the
profits of a session, and the server writes them to two files.  A record is its bytes in
memory.  The sockets are the stream of the bytes sent; after its end `recv` answers nothing,
as when the client's process has ended.  Memory that was not written holds anything.

Opening a file does not fail here, and the messages are left out.

## Main definitions

* `sentResult` — the bytes that the client sends.
* `Memory` — the local variables of `handleClient` before they are written.
* `receiveFile`, `handleClient` — the files that the server writes.
-/

namespace MatchingEngine

open ByteStream LittleEndian

/-- `sizeof(twap_order)`, a packed structure. -/
def twapOrderSize : ℕ := 32

/-- `sizeof(pnl_and_pos)`, a packed structure. -/
def pnlAndPosSize : ℕ := 20

/-- `sizeof(long)` -/
def longSize : ℕ := 8

/-- The length of a file name, as both sides have it. -/
def nameLength : ℕ := 12

/-- `BUFFER_SIZE` -/
def bufferSize : ℤ := 1 * 1024 * 1024

/-- `PNL_DIR_PATH` -/
def pnlDirPath : List UInt8 := "/mnt/output/pnl_and_position/".toUTF8.toList

/-- `TWAP_DIR_PATH` -/
def twapDirPath : List UInt8 := "/mnt/output/twap_order/".toUTF8.toList

/-- The memory of a vector of structures of `n` bytes. -/
def data {n : ℕ} (records : List (Vector UInt8 n)) : List UInt8 := records.flatMap Vector.toList

/-- What `sentResult` sends: the name, and each vector after its length in bytes. -/
def sentResult (fileName : List UInt8) (twaps : List (Vector UInt8 twapOrderSize))
    (pnls : List (Vector UInt8 pnlAndPosSize)) : List UInt8 :=
  if fileName.length ≠ nameLength then []
  else fileName ++ (bytes longSize (twaps.length * twapOrderSize) ++ (data twaps ++
    (bytes longSize (pnls.length * pnlAndPosSize) ++ data pnls)))

/-- A file that the server has written. -/
structure OutputFile where
  path : List UInt8
  contents : List UInt8
  deriving DecidableEq, Repr

/-- What the local variables of `handleClient` hold before they are written. -/
structure Memory where
  nameBuffer : Vector UInt8 (nameLength + 1)
  dataSize : Vector UInt8 longSize

/-- `fileName`: the string up to the first zero byte of `nameBuffer`, after `received` has been
written to its start and a zero to its end. -/
def Memory.fileName (memory : Memory) (received : List UInt8) : List UInt8 :=
  ((overwrite memory.nameBuffer.toList received).set nameLength 0).takeWhile fun b => b ≠ 0

/-- Both files are received so: `dataSize` is written with one `recv`, and then as many bytes
are received as it says.  The answer is `dataSize`, these bytes, and the stream after them. -/
def receiveFile (seg : Segmentation) (dataSize : List UInt8) (s : Incoming UInt8) :
    Option (List UInt8 × List UInt8 × Incoming UInt8) :=
  let size := recv seg longSize s
  if size.1.length = 0 then none
  else
    let dataSize := overwrite dataSize size.1
    let file := recvAll seg bufferSize (signed dataSize) size.2
    some (dataSize, file.2, file.1)

/-- `handleClient`: the files written for a client that sends `stream`. -/
def handleClient (seg : Segmentation) (memory : Memory) (stream : List UInt8) :
    List OutputFile :=
  let name := recv seg nameLength ⟨stream, 0⟩
  if name.1.length = 0 then []
  else
    let fileName := memory.fileName name.1
    match receiveFile seg memory.dataSize.toList name.2 with
    | none => []
    | some (dataSize, twap, s) =>
      if (twap.length : ℤ) < signed dataSize then [⟨twapDirPath ++ fileName, twap⟩]
      else
        -- `dataSize` still holds the length of the TWAP orders.
        match receiveFile seg dataSize s with
        | none => [⟨twapDirPath ++ fileName, twap⟩]
        | some (_, pnl, _) =>
          [⟨twapDirPath ++ fileName, twap⟩, ⟨pnlDirPath ++ fileName, pnl⟩]

end MatchingEngine
