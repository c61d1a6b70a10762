import Mathlib
import MatchingEngine.Net

/-!
# When the upload arrives

The two payloads are received in loops, and these do not depend on how the stream is cut.
The name and the two lengths are each received with one `recv`, and the rest of a field that
arrives in pieces is taken for the next field, while memory keeps what it held.

The name and the first length must arrive whole.  The second length may be cut where the
first one agrees with it and the profits repeat the bytes that were cut off.

## Main definitions

* `FileName` — the names that the client sends.
* `Arrives` — what must arrive with one `recv`.
* `handleClient_of_whole` — the server after a name and a first length that arrive whole.
* `received_iff` — both files are written as they were sent iff `Arrives`.
-/

namespace MatchingEngine

open ByteStream LittleEndian

/-- A file name of twelve characters. -/
structure FileName where
  chars : List UInt8
  length_eq : chars.length = nameLength
  zero_notMem : 0 ∉ chars

/-- The two files of an upload. -/
def uploaded (name : FileName) (twaps : List (Vector UInt8 twapOrderSize))
    (pnls : List (Vector UInt8 pnlAndPosSize)) : List OutputFile :=
  [⟨twapDirPath ++ name.chars, data twaps⟩, ⟨pnlDirPath ++ name.chars, data pnls⟩]

theorem length_data {n : ℕ} (records : List (Vector UInt8 n)) :
    (data records).length = records.length * n := by
  induction records with
  | nil => simp [data]
  | cons r records ih =>
    rw [data] at ih ⊢
    rw [List.flatMap_cons, List.length_append, ih, Vector.length_toList, List.length_cons]
    ring

/-! ## The fields -/

theorem takeWhile_append_zero {l : List UInt8} (h : 0 ∉ l) (rest : List UInt8) :
    (l ++ 0 :: rest).takeWhile (fun b => decide (b ≠ 0)) = l := by
  have hne : ∀ b ∈ l, b ≠ 0 := fun b hb h0 => h (h0 ▸ hb)
  rw [List.takeWhile_append_of_pos fun b hb => decide_eq_true (hne b hb)]
  simp

/-- A part of a name is a shorter name, if the memory after it is zero. -/
theorem Memory.fileName_of_zero {memory : Memory}
    (hzero : memory.nameBuffer = Vector.replicate _ 0) {received : List UInt8}
    (hlen : received.length < nameLength) (hnot : 0 ∉ received) :
    memory.fileName received = received := by
  have hbuffer : overwrite memory.nameBuffer.toList received =
      received ++ List.replicate (nameLength + 1 - received.length) 0 := by
    rw [overwrite, hzero, Vector.toList_replicate, List.drop_replicate]
  obtain ⟨k, hk⟩ : ∃ k, nameLength + 1 - received.length = k + 1 :=
    ⟨nameLength - received.length, by omega⟩
  have hset : (received ++ List.replicate (k + 1) (0 : UInt8)).set nameLength 0 =
      received ++ List.replicate (k + 1) 0 := by
    rw [List.set_append_right _ _ hlen.le, List.set_replicate_self]
  rw [fileName, hbuffer, hk, hset, List.replicate_succ]
  exact takeWhile_append_zero hnot _

/-- A name that is received whole is the name. -/
theorem Memory.fileName_of_whole (memory : Memory) (name : FileName) :
    memory.fileName name.chars = name.chars := by
  have hlen : memory.nameBuffer.toList.length = name.chars.length + 1 := by
    rw [Vector.length_toList, name.length_eq]
  obtain ⟨b, hb⟩ : ∃ b, memory.nameBuffer.toList.drop name.chars.length = [b] :=
    List.length_eq_one_iff.mp (by rw [List.length_drop, hlen]; omega)
  rw [fileName, overwrite, hb, ← name.length_eq, List.set_append_right _ _ le_rfl, Nat.sub_self,
    List.set_cons_zero]
  exact takeWhile_append_zero name.zero_notMem []

/-- A length field and what follows it, as much of the field arriving as `seg` says. -/
theorem receiveFile_append (seg : Segmentation) {size dataSize : List UInt8}
    (hsize : size.length = longSize) (hdata : dataSize.length = longSize) (rest : List UInt8)
    (n : ℕ) :
    let dataSize' := size.take (seg.arrived n) ++ dataSize.drop (seg.arrived n)
    let content := size.drop (seg.arrived n) ++ rest
    receiveFile seg dataSize ⟨size ++ rest, n⟩ =
      some (dataSize', content.take (signed dataSize').toNat,
        ⟨content.drop (signed dataSize').toNat, n + min (seg.arrived n) longSize +
          min (signed dataSize').toNat content.length⟩) := by
  intro dataSize' content
  have hrecv := recv_append seg size rest n
  rw [hsize] at hrecv
  have hpos := seg.pos n
  have hlen : (size.take (seg.arrived n)).length ≠ 0 := by
    rw [List.length_take, hsize, longSize]
    omega
  have hover : overwrite dataSize (size.take (seg.arrived n)) = dataSize' := by
    rw [overwrite, List.length_take, hsize, ← hdata, ← List.drop_eq_drop_min]
  simp only [receiveFile, hrecv, recvAll_eq seg bufferSize _ _ (by decide)]
  rw [if_neg hlen, hover]

/-! ## The server -/

/-- The name that was received is in the path of the first file, and the first length says what
is in it. -/
theorem head_handleClient (seg : Segmentation) (memory : Memory) (stream : List UInt8) :
    (handleClient seg memory stream).head? =
      if (recv seg nameLength ⟨stream, 0⟩).1.length = 0 then none
      else (receiveFile seg memory.dataSize.toList (recv seg nameLength ⟨stream, 0⟩).2).map
        fun r => ⟨twapDirPath ++ memory.fileName (recv seg nameLength ⟨stream, 0⟩).1, r.2.1⟩ := by
  rw [handleClient]
  simp only
  generalize recv seg nameLength ⟨stream, 0⟩ = name
  split
  case isTrue h => rfl
  case isFalse h =>
    cases receiveFile seg memory.dataSize.toList name.2 with
    | none => rfl
    | some r =>
      simp only [Option.map_some]
      split
      · rfl
      · split <;> rfl

section
variable (seg : Segmentation) (name : FileName) (twaps : List (Vector UInt8 twapOrderSize))
  (pnls : List (Vector UInt8 pnlAndPosSize))

/-- What is sent after the name. -/
def sentFiles (twaps : List (Vector UInt8 twapOrderSize))
    (pnls : List (Vector UInt8 pnlAndPosSize)) : List UInt8 :=
  bytes longSize (data twaps).length ++
    (data twaps ++ (bytes longSize (data pnls).length ++ data pnls))

theorem sentResult_name :
    sentResult name.chars twaps pnls = name.chars ++ sentFiles twaps pnls := by
  rw [sentResult, if_neg (not_not_intro name.length_eq), sentFiles, length_data, length_data]

theorem recv_name :
    recv seg nameLength ⟨sentResult name.chars twaps pnls, 0⟩ =
      (name.chars.take (seg.arrived 0),
        ⟨name.chars.drop (seg.arrived 0) ++ sentFiles twaps pnls,
          min (seg.arrived 0) nameLength⟩) := by
  rw [sentResult_name, ← name.length_eq, recv_append, Nat.zero_add]

/-- The length of the profits, the first `k` bytes of it over the length of the TWAP orders. -/
def pnlDataSize (k : ℕ) : List UInt8 :=
  (bytes longSize (data pnls).length).take k ++ (bytes longSize (data twaps).length).drop k

/-- What arrives after the first `k` bytes of the second length. -/
def afterPnlDataSize (k : ℕ) : List UInt8 :=
  (bytes longSize (data pnls).length).drop k ++ data pnls

/-- How much of the second length arrives with its `recv`. -/
def pnlDataSizeArrived : ℕ := seg.arrived (nameLength + longSize + (data twaps).length)

variable {seg name twaps pnls}

/-- The server after a name and a first length that arrive whole. -/
theorem handleClient_of_whole (memory : Memory)
    (hfits : 2 * (data twaps).length < 256 ^ longSize) (hname : nameLength ≤ seg.arrived 0)
    (hsize : longSize ≤ seg.arrived nameLength) :
    handleClient seg memory (sentResult name.chars twaps pnls) =
      [⟨twapDirPath ++ name.chars, data twaps⟩, ⟨pnlDirPath ++ name.chars,
        (afterPnlDataSize pnls (pnlDataSizeArrived seg twaps)).take
          (signed (pnlDataSize twaps pnls (pnlDataSizeArrived seg twaps))).toNat⟩] := by
  have hnameLen : name.chars.length ≤ seg.arrived 0 := name.length_eq.trans_le hname
  have hbytes : (bytes longSize (data twaps).length).length ≤ seg.arrived nameLength := by
    rwa [length_bytes]
  have hmemoryLen : memory.dataSize.toList.length = longSize := Vector.length_toList
  have hmemory : memory.dataSize.toList.length ≤ seg.arrived nameLength :=
    hmemoryLen.trans_le hsize
  have hfirst := receiveFile_append seg (length_bytes longSize (data twaps).length)
    hmemoryLen (data twaps ++ (bytes longSize (data pnls).length ++ data pnls)) nameLength
  simp only [List.take_of_length_le hbytes, List.drop_of_length_le hbytes,
    List.drop_of_length_le hmemory, List.append_nil, List.nil_append, signed_bytes hfits,
    Int.toNat_natCast, List.take_left, List.drop_left, min_eq_right hsize,
    List.length_append, min_eq_left (Nat.le_add_right _ _)] at hfirst
  have hsecond := receiveFile_append seg (length_bytes longSize (data pnls).length)
    (length_bytes longSize (data twaps).length) (data pnls)
    (nameLength + longSize + (data twaps).length)
  simp only [handleClient, recv_name, List.take_of_length_le hnameLen,
    List.drop_of_length_le hnameLen, List.nil_append, min_eq_right hname,
    memory.fileName_of_whole, sentFiles, hfirst, signed_bytes hfits, hsecond, lt_irrefl]
  rw [if_neg (by rw [name.length_eq]; decide)]
  rfl

/-- The memory of a thread that has not run before. -/
def Memory.filled (b : UInt8) : Memory := ⟨Vector.replicate _ 0, Vector.replicate _ b⟩

@[simp] theorem Memory.dataSize_filled (b : UInt8) :
    (Memory.filled b).dataSize.toList = List.replicate longSize b := Vector.toList_replicate

/-- Part of a name is the name of another file. -/
theorem nameLength_le_of_uploaded (b : UInt8)
    (h : handleClient seg (Memory.filled b) (sentResult name.chars twaps pnls) =
      uploaded name twaps pnls) :
    nameLength ≤ seg.arrived 0 := by
  by_contra hcut
  have hlen : (name.chars.take (seg.arrived 0)).length = seg.arrived 0 := by
    rw [List.length_take, name.length_eq]
    omega
  have hhead := head_handleClient seg (Memory.filled b) (sentResult name.chars twaps pnls)
  simp only [h, uploaded, List.head?_cons, recv_name, hlen, (seg.pos 0).ne', if_false] at hhead
  obtain ⟨r, -, hr⟩ := Option.map_eq_some_iff.mp hhead.symm
  have hpath := List.append_cancel_left (congrArg OutputFile.path hr)
  rw [Memory.fileName_of_zero rfl (by rw [hlen]; omega)
    fun hmem => name.zero_notMem (List.mem_of_mem_take hmem)] at hpath
  have hshort := congrArg List.length hpath
  rw [hlen, name.length_eq] at hshort
  omega

/-- What is in the file of the TWAP orders, when the first length arrives in pieces. -/
theorem twap_of_uploaded {b : UInt8} (hname : nameLength ≤ seg.arrived 0)
    (hcut : seg.arrived nameLength < longSize)
    (h : handleClient seg (Memory.filled b) (sentResult name.chars twaps pnls) =
      uploaded name twaps pnls) :
    ∃ (l content : List UInt8), content ≠ [] ∧
      data twaps = content.take (signed (l ++ [b])).toNat := by
  have hnameLen : name.chars.length ≤ seg.arrived 0 := name.length_eq.trans_le hname
  have hhead := head_handleClient seg (Memory.filled b) (sentResult name.chars twaps pnls)
  have hfirst := receiveFile_append seg (length_bytes longSize (data twaps).length)
    (List.length_replicate (a := b)) (data twaps ++
      (bytes longSize (data pnls).length ++ data pnls)) nameLength
  simp only [h, uploaded, List.head?_cons, recv_name, List.take_of_length_le hnameLen,
    List.drop_of_length_le hnameLen, List.nil_append, min_eq_right hname, name.length_eq,
    Memory.dataSize_filled, sentFiles, hfirst, Option.map_some, List.drop_replicate] at hhead
  obtain ⟨k, hk⟩ : ∃ k, longSize - seg.arrived nameLength = k + 1 :=
    ⟨longSize - seg.arrived nameLength - 1, by omega⟩
  rw [if_neg (by decide), hk, List.replicate_succ', ← List.append_assoc, Option.some.injEq]
    at hhead
  refine ⟨_, _, ?_, congrArg OutputFile.contents hhead⟩
  intro hnil
  have hlen := congrArg List.length hnil
  rw [List.length_append, List.length_drop, length_bytes, hk] at hlen
  simp at hlen

/-- Part of the first length is another length for some memory after it. -/
theorem longSize_le_of_uploaded (hname : nameLength ≤ seg.arrived 0)
    (h : ∀ memory, handleClient seg memory (sentResult name.chars twaps pnls) =
      uploaded name twaps pnls) :
    longSize ≤ seg.arrived nameLength := by
  by_contra hcut
  -- With the sign bit set nothing is received, and with another bit something is.
  obtain ⟨l, content, -, hnone⟩ := twap_of_uploaded hname (by omega) (h (Memory.filled 255))
  obtain ⟨l', content', hne, hsome⟩ := twap_of_uploaded hname (by omega) (h (Memory.filled 1))
  have hneg : (signed (l ++ [255])).toNat = 0 :=
    Int.toNat_of_nonpos (signed_concat_nonpos (by decide))
  have hpos : 0 < signed (l' ++ [1]) := signed_concat_pos (by decide) (by decide)
  rw [hneg, List.take_zero] at hnone
  rw [hnone, eq_comm, List.take_eq_nil_iff] at hsome
  rcases hsome with hzero | hnil
  · omega
  · exact hne hnil

/-- The second length, when it arrives in pieces: its last bytes are the first length's. -/
theorem pnlDataSize_eq_of_take {k : ℕ} (htwaps : 2 * (data twaps).length < 256 ^ longSize)
    (hpnls : 2 * (data pnls).length < 256 ^ longSize)
    (h : (afterPnlDataSize pnls k).take (signed (pnlDataSize twaps pnls k)).toNat = data pnls) :
    pnlDataSize twaps pnls k = bytes longSize (data pnls).length := by
  by_cases hk : longSize ≤ k
  · rw [pnlDataSize, List.take_of_length_le (by rwa [length_bytes]),
      List.drop_of_length_le (by rwa [length_bytes]), List.append_nil]
  have hvalue : ∀ n, 2 * n < 256 ^ longSize → value (bytes longSize n) = n := fun n hn => by
    rw [value_bytes, Nat.mod_eq_of_lt (by omega)]
  have hlen : (pnlDataSize twaps pnls k).length = longSize := by
    rw [pnlDataSize, List.length_append, List.length_take, List.length_drop, length_bytes,
      length_bytes]
    omega
  -- More is to come than the profits, so as many bytes as they have were asked for.
  have hsize : (signed (pnlDataSize twaps pnls k)).toNat = (data pnls).length := by
    have hcount := congrArg List.length h
    rw [List.length_take, afterPnlDataSize, List.length_append, List.length_drop,
      length_bytes] at hcount
    omega
  -- The sign is in the bytes of the first length.
  have hne : (bytes longSize (data twaps).length).drop k ≠ [] := by
    intro hnil
    have hzero := congrArg List.length hnil
    rw [List.length_drop, length_bytes, List.length_nil] at hzero
    omega
  have hfits : 2 * value (pnlDataSize twaps pnls k) <
      256 ^ (pnlDataSize twaps pnls k).length := by
    rw [pnlDataSize, fits_append_iff _ hne,
      ← fits_append_iff ((bytes longSize (data twaps).length).take k) hne,
      List.take_append_drop, length_bytes, hvalue _ htwaps]
    exact htwaps
  rw [signed_of_lt hfits, Int.toNat_natCast] at hsize
  refine value_injective (by rw [hlen, length_bytes]) ?_
  rw [hsize, hvalue _ hpnls]

variable (seg name twaps pnls)

/-- The name and the first length arrive whole.  What is cut off the second length is the same
in the first one, and the profits start with it and go on as if nothing were cut off. -/
structure Arrives : Prop where
  name : nameLength ≤ seg.arrived 0
  twapSize : longSize ≤ seg.arrived nameLength
  pnlSize : (bytes longSize (data twaps).length).drop (pnlDataSizeArrived seg twaps) =
    (bytes longSize (data pnls).length).drop (pnlDataSizeArrived seg twaps)
  pnlData : (afterPnlDataSize pnls (pnlDataSizeArrived seg twaps)).take (data pnls).length =
    data pnls

/-- **When the server writes what the client sent**, whatever its memory held. -/
theorem received_iff (htwaps : 2 * (data twaps).length < 256 ^ longSize)
    (hpnls : 2 * (data pnls).length < 256 ^ longSize) :
    (∀ memory, handleClient seg memory (sentResult name.chars twaps pnls) =
      uploaded name twaps pnls) ↔ Arrives seg twaps pnls := by
  constructor
  · intro h
    have hname := nameLength_le_of_uploaded 0 (h (Memory.filled 0))
    have htwap := longSize_le_of_uploaded hname h
    have hfiles := h (Memory.filled 0)
    rw [handleClient_of_whole _ htwaps hname htwap, uploaded, List.cons.injEq,
      List.cons.injEq] at hfiles
    have hpnl := congrArg OutputFile.contents hfiles.2.1
    have hsize := pnlDataSize_eq_of_take htwaps hpnls hpnl
    rw [hsize, signed_bytes hpnls, Int.toNat_natCast] at hpnl
    rw [pnlDataSize] at hsize
    refine ⟨hname, htwap, ?_, hpnl⟩
    exact List.append_cancel_left (hsize.trans (List.take_append_drop _ _).symm)
  · intro h memory
    have hsize : pnlDataSize twaps pnls (pnlDataSizeArrived seg twaps) =
        bytes longSize (data pnls).length := by
      rw [pnlDataSize, h.pnlSize, List.take_append_drop]
    rw [handleClient_of_whole memory htwaps h.name h.twapSize, hsize, signed_bytes hpnls,
      Int.toNat_natCast, h.pnlData, uploaded]

end

/-- One record in each file; what has arrived is always more than a field. -/
theorem received_of_whole :
    handleClient ⟨fun _ => 20, fun _ => by decide⟩ (Memory.filled 255)
        (sentResult (List.replicate 12 49) [Vector.replicate _ 1] [Vector.replicate _ 2]) =
      uploaded ⟨List.replicate 12 49, rfl, by decide⟩ [Vector.replicate _ 1]
        [Vector.replicate _ 2] :=
  (received_iff ⟨fun _ => 20, fun _ => by decide⟩ ⟨List.replicate 12 49, rfl, by decide⟩
    [Vector.replicate _ 1] [Vector.replicate _ 2] (by decide) (by decide)).mpr
    ⟨by decide, by decide, by decide, by decide⟩ (Memory.filled 255)

/-- One byte of the name arrives first. -/
theorem not_received_of_cut :
    ¬ ∀ (seg : Segmentation) (memory : Memory) (name : FileName)
        (twaps : List (Vector UInt8 twapOrderSize)) (pnls : List (Vector UInt8 pnlAndPosSize)),
      handleClient seg memory (sentResult name.chars twaps pnls) = uploaded name twaps pnls := by
  intro h
  have hcut := h ⟨fun _ => 1, fun _ => by decide⟩ (Memory.filled 0)
    ⟨List.replicate 12 49, rfl, by decide⟩ [] []
  revert hcut
  decide +kernel

end MatchingEngine
