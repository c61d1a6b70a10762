import Mathlib
import MatchingEngine.Lib.Isolated
import MatchingEngine.Net.Upload

/-!
# The server and its clients

`server.cpp` makes a thread for every client that connects and never joins it, so any number of
`handleClient` run at once on one directory of files.  Here a `handleClient` takes a step at a
time: one `recv` with what follows it, or the test of a loop that ends.  A client that has not
connected yet is one that takes no step, and what a stream was given to write is in its file.

## Main definitions

* `OutputDir`, `Place`, `Handler` — a `handleClient` between two steps.
* `Client`, `Client.step` — what a handler is given, and its step.
* `finish_start` — the steps of a handler alone write the files of `handleClient`.
* `serverRun` — the handlers of all clients on one directory.
* `store_serverRun` — what the files of a client hold at any time.
-/

namespace MatchingEngine

open ByteStream LittleEndian Loop Isolated

/-- The directory of a file. -/
inductive OutputDir
  | twap
  | pnl
  deriving DecidableEq, Repr

def OutputDir.path : OutputDir → List UInt8
  | .twap => twapDirPath
  | .pnl => pnlDirPath

/-- A path says which of the two directories it is in. -/
theorem OutputDir.eq_of_path {dir dir' : OutputDir} {name name' : List UInt8}
    (h : dir.path ++ name = dir'.path ++ name') : dir = dir' := by
  have htake : ∀ (dir : OutputDir) (name : List UInt8),
      (dir.path ++ name).take 13 = dir.path.take 13 :=
    fun dir name => List.take_append_of_le_length (by cases dir <;> decide +kernel)
  have hdirs : dir.path.take 13 = dir'.path.take 13 := by rw [← htake, h, htake]
  revert hdirs
  cases dir <;> cases dir' <;> decide +kernel

/-- Where a `handleClient` is. -/
inductive Place
  /-- At the `recv` of `nameBuffer`. -/
  | name
  /-- At the `recv` of `dataSize`. -/
  | size (dir : OutputDir)
  /-- At the test of the loop that receives a file. -/
  | data (dir : OutputDir)
  /-- After `close(clientSocket)`. -/
  | closed
  deriving DecidableEq, Repr

/-- The files of the server. -/
abbrev Files := List UInt8 → Option (List UInt8)

def Files.write (files : Files) (path contents : List UInt8) : Files :=
  Function.update files path (some contents)

theorem Files.write_self (files : Files) (path contents : List UInt8) :
    files.write path contents path = some contents := Function.update_self ..

theorem Files.write_of_ne (files : Files) {path path' : List UInt8} (contents : List UInt8)
    (h : path' ≠ path) : files.write path contents path' = files path' :=
  Function.update_of_ne h ..

theorem Files.write_write (files : Files) (path contents contents' : List UInt8) :
    (files.write path contents).write path contents' = files.write path contents' :=
  Function.update_idem ..

theorem Files.write_of_eq {files : Files} {path contents : List UInt8}
    (h : files path = some contents) : files.write path contents = files := by
  rw [Files.write, ← h, Function.update_eq_self]

/-- The files after those of a list are written. -/
def Files.writeAll (files : Files) (outputs : List OutputFile) : Files :=
  outputs.foldl (fun files output => files.write output.path output.contents) files

/-- A `handleClient` between two steps. -/
structure Handler where
  place : Place
  incoming : Incoming UInt8
  fileName : List UInt8
  dataSize : List UInt8
  totalRecSize : ℕ

/-- What a `handleClient` is given: the pieces in which the stream arrives, what its memory
holds, and the stream. -/
structure Client where
  seg : Segmentation
  memory : Memory
  stream : List UInt8

namespace Client

def start (c : Client) : Handler := ⟨.name, ⟨c.stream, 0⟩, [], c.memory.dataSize.toList, 0⟩

/-- The next step of a `handleClient`. -/
def step (c : Client) : Step Handler (List UInt8) (Option (List UInt8))
  | (h, files) =>
    match h.place with
    | .name =>
      let name := recv c.seg nameLength h.incoming
      if name.1.length = 0 then some ({ h with place := .closed, incoming := name.2 }, files)
      else
        some ({ h with
          place := .size .twap, incoming := name.2, fileName := c.memory.fileName name.1 }, files)
    | .size dir =>
      let size := recv c.seg longSize h.incoming
      if size.1.length = 0 then some ({ h with place := .closed, incoming := size.2 }, files)
      else
        -- opening the file empties it
        some ({ h with
          place := .data dir
          incoming := size.2
          dataSize := overwrite h.dataSize size.1
          totalRecSize := 0 }, Files.write files (dir.path ++ h.fileName) [])
    | .data dir =>
      if (h.totalRecSize : ℤ) < signed h.dataSize then
        let buffer := recv c.seg (min bufferSize (signed h.dataSize - h.totalRecSize)).toNat
          h.incoming
        if buffer.1.length = 0 then some ({ h with place := .closed, incoming := buffer.2 }, files)
        else
          some ({ h with
            incoming := buffer.2
            totalRecSize := h.totalRecSize + buffer.1.length },
            Files.write files (dir.path ++ h.fileName)
              ((files (dir.path ++ h.fileName)).getD [] ++ buffer.1))
      else
        match dir with
        | .twap => some ({ h with place := .size .pnl }, files)
        | .pnl => some ({ h with place := .closed }, files)
    | .closed => none

/-! ## What a step does -/

/-- The name that the client is received under. -/
def name (c : Client) : List UInt8 := c.memory.fileName (recv c.seg nameLength ⟨c.stream, 0⟩).1

/-- The files that are written for the client. -/
def paths (c : Client) : Set (List UInt8) := Set.range fun dir => OutputDir.path dir ++ c.name

/-- A handler that has not received a name is at the start, and one that has writes under it. -/
structure Named (c : Client) (h : Handler) : Prop where
  start : h.place = .name → h.incoming = ⟨c.stream, 0⟩
  fileName : h.place ≠ .name → h.place ≠ .closed → h.fileName = c.name

theorem named_start (c : Client) : c.Named c.start := ⟨fun _ => rfl, fun h => absurd rfl h⟩

/-- The places that are still to come. -/
def rank : Place → ℕ
  | .name => 5
  | .size .twap => 4
  | .data .twap => 3
  | .size .pnl => 2
  | .data .pnl => 1
  | .closed => 0

/-- What is left to do: the rest of the stream, and the places to come. -/
def measure (h : Handler) : ℕ := h.incoming.rest.length + rank h.place

theorem length_rest_recv (seg : Segmentation) (n : ℕ) (s : Incoming UInt8) :
    (recv seg n s).2.rest.length + (recv seg n s).1.length = s.rest.length := by
  simp only [recv, List.length_drop, List.length_take]
  omega

theorem rank_data_lt (dir : OutputDir) : rank (.data dir) < rank (.size dir) := by
  cases dir <;> decide

variable {c : Client} {p q : Handler × Files}

/-- **What a step does**: it leaves less to do, and writes to a file of the name at most. -/
theorem step_spec (hnamed : c.Named p.1) (hstep : c.step p = some q) :
    c.Named q.1 ∧ measure q.1 < measure p.1 ∧ ∀ k, k ∉ c.paths → q.2 k = p.2 k := by
  obtain ⟨⟨place, incoming, fileName, dataSize, totalRecSize⟩, files⟩ := p
  have hwrite : ∀ (dir : OutputDir) (contents : List UInt8) (k : List UInt8), fileName = c.name →
      k ∉ c.paths → Files.write files (dir.path ++ fileName) contents k = files k := by
    intro dir contents k hname hk
    refine Function.update_of_ne (fun heq => hk ?_) ..
    exact ⟨dir, by rw [heq, hname]⟩
  cases place with
  | closed => cases hstep
  | name =>
    have hlen := length_rest_recv c.seg nameLength incoming
    have hstart : incoming = ⟨c.stream, 0⟩ := hnamed.start rfl
    simp only [step] at hstep
    split at hstep
    · obtain rfl := Option.some.inj hstep
      refine ⟨⟨by simp, by simp⟩, ?_, fun _ _ => rfl⟩
      simp only [measure, rank]
      omega
    · obtain rfl := Option.some.inj hstep
      refine ⟨⟨by simp, fun _ _ => by rw [hstart]; rfl⟩, ?_, fun _ _ => rfl⟩
      simp only [measure, rank]
      omega
  | size dir =>
    have hlen := length_rest_recv c.seg longSize incoming
    have hname : fileName = c.name := hnamed.fileName (by simp) (by simp)
    have hrank := rank_data_lt dir
    simp only [step] at hstep
    split at hstep
    · obtain rfl := Option.some.inj hstep
      refine ⟨⟨by simp, by simp⟩, ?_, fun _ _ => rfl⟩
      cases dir <;> simp only [measure, rank] <;> omega
    · obtain rfl := Option.some.inj hstep
      refine ⟨⟨by simp, fun _ _ => hname⟩, ?_, fun k hk => hwrite dir _ k hname hk⟩
      simp only [measure]
      omega
  | data dir =>
    have hname : fileName = c.name := hnamed.fileName (by simp) (by simp)
    simp only [step] at hstep
    split at hstep
    · have hlen := length_rest_recv c.seg
        (min bufferSize (LittleEndian.signed dataSize - totalRecSize)).toNat incoming
      split at hstep
      next hzero =>
        obtain rfl := Option.some.inj hstep
        refine ⟨⟨by simp, by simp⟩, ?_, fun _ _ => rfl⟩
        cases dir <;> simp only [measure, rank] <;> omega
      next hpos =>
        obtain rfl := Option.some.inj hstep
        refine ⟨⟨by simp, fun _ _ => hname⟩, ?_, fun k hk => hwrite dir _ k hname hk⟩
        simp only [measure]
        omega
    · cases dir with
      | twap =>
        obtain rfl := Option.some.inj hstep
        exact ⟨⟨by simp, fun _ _ => hname⟩, by simp [measure, rank], fun _ _ => rfl⟩
      | pnl =>
        obtain rfl := Option.some.inj hstep
        exact ⟨⟨by simp, by simp⟩, by simp [measure, rank], fun _ _ => rfl⟩

/-- A step reads a file of the name at most. -/
theorem step_same (hnamed : c.Named p.1) (hsame : SameOn c.paths p q) :
    Option.Rel (SameOn c.paths) (c.step p) (c.step q) := by
  obtain ⟨⟨place, incoming, fileName, dataSize, totalRecSize⟩, files⟩ := p
  obtain ⟨h, files'⟩ := q
  obtain ⟨rfl, hfiles⟩ := hsame
  simp only at hfiles
  have hwrite : ∀ (path contents : List UInt8), ∀ k ∈ c.paths,
      Files.write files path contents k = Files.write files' path contents k := by
    intro path contents k hk
    by_cases hpath : k = path
    · rw [Files.write, Files.write, hpath, Function.update_self, Function.update_self]
    · rw [Files.write, Files.write, Function.update_of_ne hpath, Function.update_of_ne hpath]
      exact hfiles k hk
  cases place with
  | closed => exact .none
  | name =>
    simp only [step]
    split
    · exact .some ⟨rfl, hfiles⟩
    · exact .some ⟨rfl, hfiles⟩
  | size dir =>
    simp only [step]
    split
    · exact .some ⟨rfl, hfiles⟩
    · exact .some ⟨rfl, hwrite _ _⟩
  | data dir =>
    have hname : fileName = c.name := hnamed.fileName (by simp) (by simp)
    have hpath := hfiles (dir.path ++ fileName) ⟨dir, by rw [hname]⟩
    simp only [step, hpath]
    split
    · split
      · exact .some ⟨rfl, hfiles⟩
      · exact .some ⟨rfl, hwrite _ _⟩
    · cases dir with
      | twap => exact .some ⟨rfl, hfiles⟩
      | pnl => exact .some ⟨rfl, hfiles⟩

/-- A handler reads and writes the files of its name only. -/
theorem owns (c : Client) : Owns c.Named c.step c.paths where
  invariant _ _ hnamed hstep := (step_spec hnamed hstep).1
  frame _ _ hnamed hstep := (step_spec hnamed hstep).2.2
  same _ _ hnamed hsame := step_same hnamed hsame

/-- A handler ends. -/
theorem decreases (c : Client) :
    Decreases (fun p : Handler × Files => c.Named p.1) c.step fun p => measure p.1 :=
  fun _ _ hnamed hstep => ⟨(step_spec hnamed hstep).1, (step_spec hnamed hstep).2.1⟩

/-- The files of clients of different names are different. -/
theorem disjoint_paths {c d : Client} (h : c.name ≠ d.name) : Disjoint c.paths d.paths := by
  rw [Set.disjoint_left]
  rintro _ ⟨dir, rfl⟩ ⟨dir', heq⟩
  obtain rfl := OutputDir.eq_of_path heq
  exact h (List.append_cancel_left heq).symm

/-! ## A handler alone -/

/-- What a handler alone makes of the files. -/
def finish (c : Client) (p : Handler × Files) : Files :=
  (exec c.step (fun p => measure p.1) p).2

theorem finish_of_none {p : Handler × Files} (h : c.step p = none) : c.finish p = p.2 := by
  rw [finish, exec_of_none h]

theorem place_of_step_eq_none {p : Handler × Files} (h : c.step p = none) :
    p.1.place = .closed := by
  obtain ⟨⟨place, incoming, fileName, dataSize, totalRecSize⟩, files⟩ := p
  cases place with
  | closed => rfl
  | name =>
    simp only [step] at h
    split at h <;> cases h
  | size dir =>
    simp only [step] at h
    split at h <;> cases h
  | data dir =>
    simp only [step] at h
    split at h
    · split at h <;> cases h
    · cases dir <;> cases h

theorem finish_of_some (hnamed : c.Named p.1) (h : c.step p = some q) :
    c.finish p = c.finish q := by
  rw [finish, exec_of_some c.decreases hnamed h, ← finish]

/-- A handler in the loop that receives a file, which holds `r.2` so far. -/
def receiving (c : Client) (dir : OutputDir) (dataSize : List UInt8)
    (r : Incoming UInt8 × List UInt8) : Handler :=
  ⟨.data dir, r.1, c.name, dataSize, r.2.length⟩

theorem named_receiving (dir : OutputDir) (dataSize : List UInt8)
    (r : Incoming UInt8 × List UInt8) : c.Named (c.receiving dir dataSize r) :=
  ⟨fun h => Place.noConfusion h, fun _ _ => rfl⟩

/-- A pass of the loop receives what `recvAll` receives with one `recv`. -/
theorem step_receiving {dir : OutputDir} {dataSize : List UInt8}
    {r r' : Incoming UInt8 × List UInt8}
    (h : recvAllStep c.seg bufferSize (signed dataSize) r = some r') {files : Files}
    (hfile : files (dir.path ++ c.name) = some r.2) :
    c.step (c.receiving dir dataSize r, files) =
      some (c.receiving dir dataSize r', files.write (dir.path ++ c.name) r'.2) := by
  obtain ⟨s, got⟩ := r
  obtain ⟨hlt, hpos, rfl⟩ := recvAllStep_eq_some h
  rw [← length_recv] at hpos
  simp only [step, receiving, hlt, if_true, hpos.ne', if_false, hfile, Option.getD_some,
    List.length_append]

/-- **The loop that receives a file** leaves what `recvAll` receives. -/
theorem finish_receiving (dir : OutputDir) (dataSize : List UInt8)
    (r : Incoming UInt8 × List UInt8) {files : Files}
    (hfile : files (dir.path ++ c.name) = some r.2) :
    let r' := exec (recvAllStep c.seg bufferSize (signed dataSize)) (fun p => p.1.rest.length) r
    c.finish (c.receiving dir dataSize r, files) =
      c.finish (c.receiving dir dataSize r', files.write (dir.path ++ c.name) r'.2) := by
  revert files
  refine exec_induction (recvAllStep_decreases c.seg bufferSize (signed dataSize))
    (fun r r' => ∀ {files : Files}, files (dir.path ++ c.name) = some r.2 →
      c.finish (c.receiving dir dataSize r, files) =
        c.finish (c.receiving dir dataSize r', files.write (dir.path ++ c.name) r'.2))
    ?_ ?_ trivial
  · intro r _ _ files hfile
    rw [files.write_of_eq hfile]
  · intro r r' _ hpass ih files hfile
    rw [finish_of_some (named_receiving dir dataSize r) (step_receiving hpass hfile),
      ih (files.write_self _ _), files.write_write]

/-- What a handler does after the loop. -/
def finishFile (c : Client) (dir : OutputDir) (dataSize : List UInt8)
    (r : Incoming UInt8 × List UInt8) (files : Files) : Files :=
  if (r.2.length : ℤ) < signed dataSize then files
  else
    match dir with
    | .twap => c.finish (⟨.size .pnl, r.1, c.name, dataSize, r.2.length⟩, files)
    | .pnl => files

theorem finish_received {dir : OutputDir} {dataSize : List UInt8}
    {r : Incoming UInt8 × List UInt8}
    (h : recvAllStep c.seg bufferSize (signed dataSize) r = none) (files : Files) :
    c.finish (c.receiving dir dataSize r, files) = c.finishFile dir dataSize r files := by
  obtain ⟨s, got⟩ := r
  have hnamed := named_receiving (c := c) dir dataSize (s, got)
  by_cases hlt : (got.length : ℤ) < signed dataSize
  · -- the stream has ended before the file
    have hempty : (recv c.seg (min bufferSize (signed dataSize - got.length)).toNat s).1.length = 0
        := by
      by_contra hpos
      simp [recvAllStep, hlt, hpos] at h
    rw [finish_of_some hnamed (by simp only [step, receiving, hlt, hempty, if_true]; rfl),
      finish_of_none rfl]
    simp only [finishFile, hlt, if_true]
  · cases dir with
    | twap =>
      rw [finish_of_some hnamed (by simp only [step, receiving, hlt, if_false]; rfl)]
      simp only [finishFile, hlt, if_false]
    | pnl =>
      rw [finish_of_some hnamed (by simp only [step, receiving, hlt, if_false]; rfl),
        finish_of_none rfl]
      simp only [finishFile, hlt, if_false]

/-- **A file**: its length is received, then the file, and if it is whole the handler goes on. -/
theorem finish_size (dir : OutputDir) (s : Incoming UInt8) (dataSize : List UInt8) (n : ℕ)
    (files : Files) :
    c.finish (⟨.size dir, s, c.name, dataSize, n⟩, files) =
      match receiveFile c.seg dataSize s with
      | none => files
      | some (dataSize, contents, s) =>
        c.finishFile dir dataSize (s, contents) (files.write (dir.path ++ c.name) contents) := by
  have hnamed : c.Named ⟨.size dir, s, c.name, dataSize, n⟩ :=
    ⟨fun h => Place.noConfusion h, fun _ _ => rfl⟩
  by_cases hsize : (recv c.seg longSize s).1.length = 0
  · have hstep : c.step (⟨.size dir, s, c.name, dataSize, n⟩, files) =
        some (⟨.closed, (recv c.seg longSize s).2, c.name, dataSize, n⟩, files) := by
      simp only [step, hsize, if_true]
    rw [finish_of_some hnamed hstep, finish_of_none rfl]
    simp only [receiveFile, hsize, if_true]
  · set dataSize' := overwrite dataSize (recv c.seg longSize s).1 with hdataSize
    set r := recvAll c.seg bufferSize (signed dataSize') (recv c.seg longSize s).2 with hr
    have hstep : c.step (⟨.size dir, s, c.name, dataSize, n⟩, files) =
        some (c.receiving dir dataSize' ((recv c.seg longSize s).2, []),
          files.write (dir.path ++ c.name) []) := by
      simp only [step, hsize, if_false]
      rfl
    have hloop : c.finish (c.receiving dir dataSize' ((recv c.seg longSize s).2, []),
        files.write (dir.path ++ c.name) []) = c.finish (c.receiving dir dataSize' r,
          (files.write (dir.path ++ c.name) []).write (dir.path ++ c.name) r.2) :=
      finish_receiving dir dataSize' _ (files.write_self _ _)
    have hend : recvAllStep c.seg bufferSize (signed dataSize') r = none :=
      exec_done (recvAllStep_decreases c.seg bufferSize (signed dataSize')) trivial
    have hfile : receiveFile c.seg dataSize s = some (dataSize', r.2, r.1) := by
      simp only [receiveFile, hsize, if_false, hdataSize, hr]
    rw [finish_of_some hnamed hstep, hloop, files.write_write, finish_received hend, hfile]

/-- **The steps of a handler alone** write the files of `handleClient`. -/
theorem finish_start (c : Client) (files : Files) :
    c.finish (c.start, files) = files.writeAll (handleClient c.seg c.memory c.stream) := by
  by_cases hname : (recv c.seg nameLength ⟨c.stream, 0⟩).1.length = 0
  · rw [finish_of_some (named_start c) (by simp only [step, start, hname, if_true]; rfl),
      finish_of_none rfl, handleClient, if_pos hname]
    rfl
  · rw [finish_of_some (named_start c) (by simp only [step, start, hname, if_false]; rfl)]
    have hsize := finish_size (c := c) .twap (recv c.seg nameLength ⟨c.stream, 0⟩).2
      c.memory.dataSize.toList 0 files
    refine hsize.trans ?_
    simp only [handleClient, hname, if_false]
    cases receiveFile c.seg c.memory.dataSize.toList (recv c.seg nameLength ⟨c.stream, 0⟩).2 with
    | none => rfl
    | some first =>
      obtain ⟨dataSize, twap, s⟩ := first
      by_cases hlt : (twap.length : ℤ) < signed dataSize
      · simp only [finishFile, hlt, if_true]
        rfl
      · simp only [finishFile, hlt, if_false, finish_size]
        cases receiveFile c.seg dataSize s with
        | none => rfl
        | some second =>
          simp only [ite_self]
          rfl

/-! ## What a file holds on the way -/

theorem rank_of_step (h : c.step p = some q) : rank q.1.place ≤ rank p.1.place := by
  obtain ⟨⟨place, incoming, fileName, dataSize, totalRecSize⟩, files⟩ := p
  cases place with
  | closed => cases h
  | name =>
    simp only [step] at h
    split at h
    · obtain rfl := Option.some.inj h
      exact Nat.zero_le _
    · obtain rfl := Option.some.inj h
      exact Nat.le_succ 4
  | size dir =>
    simp only [step] at h
    split at h
    · obtain rfl := Option.some.inj h
      exact Nat.zero_le _
    · obtain rfl := Option.some.inj h
      exact (rank_data_lt dir).le
  | data dir =>
    simp only [step] at h
    split at h
    · split at h
      · obtain rfl := Option.some.inj h
        exact Nat.zero_le _
      · obtain rfl := Option.some.inj h
        exact le_rfl
    · cases dir with
      | twap =>
        obtain rfl := Option.some.inj h
        exact Nat.le_succ 2
      | pnl =>
        obtain rfl := Option.some.inj h
        exact Nat.zero_le _

/-- **What a step does to the file of a directory**: nothing before the file is opened, and then
it goes on with what the file holds. -/
theorem step_file (hnamed : c.Named p.1) (h : c.step p = some q) (dir : OutputDir) :
    let path := dir.path ++ c.name
    (rank (.size dir) ≤ rank q.1.place → q.2 path = p.2 path) ∧
      (rank p.1.place < rank (.size dir) →
        ∀ contents ∈ p.2 path, ∃ contents' ∈ q.2 path, contents <+: contents') := by
  intro path
  obtain ⟨⟨place, incoming, fileName, dataSize, totalRecSize⟩, files⟩ := p
  have hkeep : q.2 path = files path → (rank (.size dir) ≤ rank q.1.place → q.2 path = files path) ∧
      (rank place < rank (.size dir) →
        ∀ contents ∈ files path, ∃ contents' ∈ q.2 path, contents <+: contents') := by
    intro heq
    rw [heq]
    exact ⟨fun _ => rfl, fun _ contents hcontents => ⟨contents, hcontents, List.prefix_rfl⟩⟩
  cases place with
  | closed => cases h
  | name =>
    simp only [step] at h
    split at h
    · obtain rfl := Option.some.inj h
      exact hkeep rfl
    · obtain rfl := Option.some.inj h
      exact hkeep rfl
  | size dir' =>
    have hname : fileName = c.name := hnamed.fileName (by simp) (by simp)
    simp only [step] at h
    split at h
    · obtain rfl := Option.some.inj h
      exact hkeep rfl
    · obtain rfl := Option.some.inj h
      by_cases hdir : dir = dir'
      · -- the file is opened here
        subst hdir
        exact ⟨fun hle => absurd (rank_data_lt dir) (not_lt.mpr hle),
          fun hlt => absurd hlt (lt_irrefl _)⟩
      · have hne : path ≠ dir'.path ++ fileName := fun heq => hdir (OutputDir.eq_of_path heq)
        exact hkeep (Function.update_of_ne hne ..)
  | data dir' =>
    have hname : fileName = c.name := hnamed.fileName (by simp) (by simp)
    simp only [step] at h
    split at h
    · split at h
      · obtain rfl := Option.some.inj h
        exact hkeep rfl
      · obtain rfl := Option.some.inj h
        by_cases hdir : dir = dir'
        · subst hdir
          subst hname
          refine ⟨fun hle => absurd (rank_data_lt dir) (not_lt.mpr hle), fun _ contents hcontents =>
            ⟨_, Files.write_self .., ?_⟩⟩
          have hheld : (files (dir.path ++ c.name)).getD [] = contents := by
            rw [show files (dir.path ++ c.name) = some contents from hcontents, Option.getD_some]
          rw [hheld]
          exact List.prefix_append ..
        · have hne : path ≠ dir'.path ++ fileName := fun heq => hdir (OutputDir.eq_of_path heq)
          exact hkeep (Function.update_of_ne hne ..)
    · cases dir' with
      | twap =>
        obtain rfl := Option.some.inj h
        exact hkeep rfl
      | pnl =>
        obtain rfl := Option.some.inj h
        exact hkeep rfl

/-- A handler goes on with the file that it has opened. -/
theorem prefix_finish (dir : OutputDir) (hnamed : c.Named p.1)
    (hrank : rank p.1.place < rank (.size dir)) :
    ∀ contents ∈ p.2 (dir.path ++ c.name),
      ∃ contents' ∈ c.finish p (dir.path ++ c.name), contents <+: contents' := by
  revert hrank
  refine exec_induction c.decreases (fun p q => rank p.1.place < rank (.size dir) →
    ∀ contents ∈ p.2 (dir.path ++ c.name),
      ∃ contents' ∈ q.2 (dir.path ++ c.name), contents <+: contents') ?_ ?_ hnamed
  · exact fun _ _ _ _ contents hcontents => ⟨contents, hcontents, List.prefix_rfl⟩
  · intro p q hnamed hstep ih hrank contents hcontents
    obtain ⟨contents', hcontents', hle⟩ := (step_file hnamed hstep dir).2 hrank contents hcontents
    obtain ⟨last, hlast, hle'⟩ := ih ((rank_of_step hstep).trans_lt hrank) contents' hcontents'
    exact ⟨last, hlast, hle.trans hle'⟩

/-- What the file of a directory holds after some steps of a handler alone: what it held before,
or the start of what it comes to hold. -/
theorem file_run (c : Client) (files : Files) (n : ℕ) (dir : OutputDir) :
    let path := dir.path ++ c.name
    ∀ contents ∈ (Loop.run c.step n (c.start, files)).2 path,
      files path = some contents ∨
        ∃ contents' ∈ c.finish (c.start, files) path, contents <+: contents' := by
  intro path
  obtain ⟨hnamed, hfinish, hunopened⟩ := Loop.run_invariant
    (fun p => c.Named p.1 ∧ c.finish p = c.finish (c.start, files) ∧
      (rank (.size dir) ≤ rank p.1.place → p.2 path = files path))
    (fun p q ⟨hnamed, hfinish, hunopened⟩ (hstep : c.step p = some q) => by
      refine ⟨(step_spec hnamed hstep).1, (finish_of_some hnamed hstep).symm.trans hfinish, ?_⟩
      intro hle
      rw [(step_file hnamed hstep dir).1 hle]
      exact hunopened (hle.trans (rank_of_step hstep)))
    n (c.start, files) ⟨c.named_start, rfl, fun _ => rfl⟩
  intro contents hcontents
  by_cases hrank : rank (.size dir) ≤ rank (Loop.run c.step n (c.start, files)).1.place
  · exact .inl ((hunopened hrank).symm.trans hcontents)
  · rw [← hfinish]
    exact .inr (prefix_finish dir hnamed (not_le.mp hrank) contents hcontents)

end Client

/-! ## The server -/

section server
variable {ι : Type} [DecidableEq ι] (clients : ι → Client) (files : Files)

/-- The server before any client has been served. -/
def serverStart : System ι Handler (List UInt8) (Option (List UInt8)) where
  threads i := (clients i).start
  store := files

/-- The server after the handlers of the list have taken their steps. -/
def serverRun (schedule : List ι) : System ι Handler (List UInt8) (Option (List UInt8)) :=
  (serverStart clients files).run (fun i => (clients i).step) schedule

/-- At any time a file of a client holds what it held before the client came, or the start of what
`handleClient` writes for this client. -/
theorem file_serverRun (hnames : ∀ i j, i ≠ j → (clients i).name ≠ (clients j).name)
    (schedule : List ι) (i : ι) {path : List UInt8} (hpath : path ∈ (clients i).paths)
    {contents : List UInt8} (hcontents : (serverRun clients files schedule).store path =
      some contents) :
    files path = some contents ∨
      ∃ contents' ∈ files.writeAll
        (handleClient (clients i).seg (clients i).memory (clients i).stream) path,
        contents <+: contents' := by
  obtain ⟨dir, rfl⟩ := hpath
  obtain ⟨n, -, hsame⟩ := System.exists_run_alone (fun i => (clients i).owns)
    (fun i j hij => Client.disjoint_paths (hnames i j hij))
    (s := serverStart clients files) (fun i => (clients i).named_start) schedule i
    (q := ((clients i).start, files)) ⟨rfl, fun _ _ => rfl⟩
  rw [← Client.finish_start]
  refine (clients i).file_run files n dir contents ?_
  rw [← hsame _ ⟨dir, rfl⟩]
  exact hcontents

/-- **What the files of the server hold at any time**, in whatever order the handlers of clients
of different names take their steps: a file of a client holds what it held before the client
came, or the start of what `handleClient` writes for this client, and the other files are left
alone. -/
theorem store_serverRun (hnames : ∀ i j, i ≠ j → (clients i).name ≠ (clients j).name)
    (schedule : List ι) :
    let t := serverRun clients files schedule
    (∀ path, (∀ i, path ∉ (clients i).paths) → t.store path = files path) ∧
      ∀ i, ∀ path ∈ (clients i).paths, ∀ contents ∈ t.store path,
        files path = some contents ∨
          ∃ contents' ∈ files.writeAll
            (handleClient (clients i).seg (clients i).memory (clients i).stream) path,
            contents <+: contents' := by
  refine ⟨fun path hpath => ?_, fun i path hpath contents hcontents => ?_⟩
  · exact System.store_run_of_notMem (fun i => (clients i).owns)
      (s := serverStart clients files) (fun i => (clients i).named_start) schedule hpath
  · exact file_serverRun clients files hnames schedule i hpath hcontents

end server

/-- What has arrived is always more than a field. -/
def wholeSeg : Segmentation := ⟨fun _ => 20, fun _ => by decide⟩

/-- Two clients with one record in each file. -/
def twoClients (i : Bool) : Client where
  seg := wholeSeg
  memory := Memory.filled 255
  stream := sentResult (List.replicate 12 (if i then 49 else 50)) [Vector.replicate _ 1]
    [Vector.replicate _ 2]

theorem name_twoClients : ∀ i j, i ≠ j → (twoClients i).name ≠ (twoClients j).name := by
  decide +kernel

/-- The second client comes when the first has sent its name. -/
theorem store_serverRun_twoClients :
    let t := serverRun twoClients (fun _ => none) [true, false, true, false, false, true]
    (∀ path, (∀ i, path ∉ (twoClients i).paths) → t.store path = none) ∧
      ∀ i, ∀ path ∈ (twoClients i).paths, ∀ contents ∈ t.store path,
        none = some contents ∨
          ∃ contents' ∈ Files.writeAll (fun _ => none)
            (handleClient (twoClients i).seg (twoClients i).memory (twoClients i).stream) path,
            contents <+: contents' :=
  store_serverRun twoClients (fun _ => none) name_twoClients [true, false, true, false, false, true]

section server
variable {ι : Type} [DecidableEq ι] (clients : ι → Client) (files : Files)

/-- Under a fair schedule the handlers of clients of different names write what they write
alone. -/
theorem exists_served [Fintype ι] (hnames : ∀ i j, i ≠ j → (clients i).name ≠ (clients j).name)
    {schedule : ℕ → ι} (hfair : Fairness.Fair schedule) :
    ∃ n, ∀ m, n ≤ m →
      let t := serverRun clients files (Fairness.firstSteps schedule m)
      (∀ i, (t.threads i).place = .closed) ∧
        (∀ path, (∀ i, path ∉ (clients i).paths) → t.store path = files path) ∧
        ∀ i, ∀ path ∈ (clients i).paths, t.store path = files.writeAll
          (handleClient (clients i).seg (clients i).memory (clients i).stream) path := by
  obtain ⟨n, hn⟩ := System.eventually_alone (fun i => (clients i).owns)
    (fun i => (clients i).decreases) (fun i j hij => Client.disjoint_paths (hnames i j hij))
    (s := serverStart clients files) (fun i => (clients i).named_start) hfair
  refine ⟨n, fun m hle => ?_⟩
  obtain ⟨hended, hother, hfiles⟩ := hn m hle
  refine ⟨fun i => ?_, hother, fun i path hpath => ?_⟩
  · exact Client.place_of_step_eq_none (hended i)
  · rw [← Client.finish_start]
    exact hfiles i path hpath

end server
end MatchingEngine
