import Mathlib
import MatchingEngine.Entrance

/-!
# The baseline driver

`baseline_entrance.cpp`: for every day, `main` first loads the files into the buffers, then
makes the matching threads, and waits until they have come to their end.  Each day begins at
the first buffer, and a matching thread ends after the buffer with `FILE_END`.

The loader and the loop of a matching thread are those of `entrance.cpp`, so a state is one
of `Entrance` together with what `main` has still to do and how far its threads are.

## Main definitions

* `MainStep`, `mainLoop` — what `main` does.
* `Status` — how far a thread is.
* `BaselineEntrance`, `step`, `run` — the threads and their interleavings.
-/

namespace MatchingEngine

/-- A step of the loop of `main` over the days. -/
inductive MainStep
  /-- `direct_io_load(path, buffer_index)`, with `buffer_index` always 0. -/
  | load (day : DayReads)
  /-- `pthread_create` -/
  | create (id : Fin workerThreadNum)
  /-- `pthread_join` -/
  | join (id : Fin workerThreadNum)
  deriving DecidableEq, Repr

/-- The threads in the order in which `main` makes and joins them. -/
def threadIds : List (Fin workerThreadNum) := List.finRange workerThreadNum

/-- The loop of `main` over the days. -/
def mainLoop (days : List DayReads) : List MainStep :=
  days.flatMap fun day => .load day :: (threadIds.map .create ++ threadIds.map .join)

/-- How far the matching thread of the day is. -/
inductive Status
  | absent
  | running
  /-- In the branch of `FILE_END`, before its `finish_bit |= workerBit`. -/
  | last
  /-- After the `break`. -/
  | ended
  | joined
  deriving DecidableEq, Repr

/-- The threads of `baseline_entrance`.  `published` and the local states of the threads are
those of the day.  `log` is a history variable: the calls of the threads that have been
joined, for each day. -/
structure BaselineEntrance extends Entrance where
  todo : List MainStep
  status : Fin workerThreadNum → Status
  log : Fin workerThreadNum → List (List EngineCall)

namespace BaselineEntrance

/-- The start of `main`, for the days `days` and buffers in whose memory is `memory`. -/
def main (memory : Fin bufferNum → List UInt8 × List UInt8 × List UInt8) (days : List DayReads) :
    BaselineEntrance where
  toEntrance := Entrance.main memory []
  todo := mainLoop days
  status _ := .absent
  log _ := []

/-- The next day: its files are to be loaded, and its threads are not created yet. -/
def load (s : BaselineEntrance) (day : DayReads) : BaselineEntrance :=
  { s with
    accesses := directIoLoad day
    bufferIndex := 0
    published := []
    workers := fun _ => .new
    status := fun _ => .absent }

/-- A step of `main`. -/
def mainStep (s : BaselineEntrance) : BaselineEntrance :=
  match s.accesses with
  | _ :: _ => { s with toEntrance := s.toEntrance.loaderStep }
  | [] =>
    match s.todo with
    | [] => s
    | .load day :: rest => { s.load day with todo := rest }
    | .create id :: rest =>
      { s with status := Function.update s.status id .running, todo := rest }
    | .join id :: rest =>
      if s.status id = .ended then
        { s with
          status := Function.update s.status id .joined
          log := Function.update s.log id (s.log id ++ [(s.workers id).calls])
          todo := rest }
      else s

/-- A step of a matching thread. -/
def workerStep (s : BaselineEntrance) (id : Fin workerThreadNum) : BaselineEntrance :=
  let w := s.workers id
  match s.status id with
  | .running =>
    { s with
      toEntrance := s.toEntrance.workerStep id
      status :=
        if w.pc = .tail ∧ (s.buffers w.bufferIndex).flag = .FileEnd then
          Function.update s.status id .last
        else s.status }
  | .last =>
    { s with
      toEntrance := s.toEntrance.workerStep id
      status := Function.update s.status id .ended }
  | _ => s

/-- The thread that loads the files is `main`. -/
def step (s : BaselineEntrance) : Thread → BaselineEntrance
  | .loader => s.mainStep
  | .worker id => s.workerStep id

/-- The state after the threads of the list have taken their steps, one after the other. -/
def run (s : BaselineEntrance) (schedule : List Thread) : BaselineEntrance :=
  schedule.foldl step s

end BaselineEntrance
end MatchingEngine
