import ProcessMonitor.Model.Vts.FifoInterleaving
import ProcessMonitor.Model.Vts.LogWrite

/-! # The thread that logs the messages

`thr_coords` takes messages out of the FIFO and logs them until it sees the stop flag, and then once more what is
left. It is cut at every access to what it shares with the receiver: the flag, and the accesses of a pop. The
receiver goes on as the scheduler wants, also when the flag is set.
-/

namespace ProcessMonitor.Model.Vts

open Machine Machine.Posix

namespace SharedFifo

/-- What a pop returns, if the next access is its last one. -/
def popResult (s : SharedFifo) : Option (Option Message) :=
  match s.consumer with
  | .loadTail head => if head = s.fifo.tail then some none else none
  | .storeMetrics out _ => some out
  | _ => none

/-- The next access of a call of `vts_fifo_pop_spsc`, and its result if that is the last one. -/
def stepPop (s : SharedFifo) : Option (SharedFifo × Option (Option Message)) :=
  if s.consumer = .idle then (s.step .pop).map fun next => (next, none)
  else (s.step .consumer).map fun next => (next, s.popResult)

end SharedFifo

/-- Where `thr_coords` is; `i` is the counter of the second loop. -/
inductive CoordsPhase
  | testStop
  | popping
  | sleeping
  | logging (msg : Message)
  | testCount (i : ℕ)
  | drainPopping (i : ℕ)
  | drainLogging (i : ℕ) (m : Message)
  | returned
deriving DecidableEq, Repr

/-- The thread with the FIFO, the flag and the log. For the record, `drained` are the messages that the second loop
has logged. -/
structure CoordsThread where
  shared : SharedFifo
  gStop : Bool
  phase : CoordsPhase
  log : VtsLog
  drained : List Message

namespace CoordsThread

def start (cap : ℕ) (log : VtsLog) : CoordsThread := ⟨.start cap, false, .testStop, log, []⟩

/-- `push` and `producer` are of the receiver, `stop` sets the flag. -/
inductive Event
  | push (msg : Option Bytes)
  | producer
  | stop
  | coords
deriving DecidableEq, Repr

/-- `vts_log_write("%s\n", msg)` -/
def logMessage (log : VtsLog) (msg : Message) : VtsLog := log.vtsLogWrite (msg.text ++ literal "\n")

/-- The first loop after an access of its pop. -/
def afterPop : Option (Option Message) → CoordsPhase
  | none => .popping
  | some none => .sleeping
  | some (some msg) => .logging msg

/-- The second loop after an access of its pop. -/
def afterDrainPop (i : ℕ) : Option (Option Message) → CoordsPhase
  | none => .drainPopping i
  | some none => .returned
  | some (some m) => .drainLogging i m

def stepCoords (s : CoordsThread) : Option CoordsThread :=
  match s.phase with
  | .testStop => some { s with phase := if s.gStop then .testCount 0 else .popping }
  | .popping => s.shared.stepPop.map fun (shared, result) => { s with shared, phase := afterPop result }
  | .sleeping => some { s with phase := .testStop }
  | .logging msg => some { s with log := logMessage s.log msg, phase := .testStop }
  | .testCount i => some { s with phase := if i < 1000 then .drainPopping i else .returned }
  | .drainPopping i => s.shared.stepPop.map fun (shared, result) => { s with shared, phase := afterDrainPop i result }
  | .drainLogging i m =>
    -- the third expression of the loop is `i`, which computes nothing
    some { s with log := logMessage s.log m, drained := s.drained ++ [m], phase := .testCount i }
  | .returned => none

def step (s : CoordsThread) : Event → Option CoordsThread
  | .push msg => (s.shared.step (.push msg)).map fun shared => { s with shared }
  | .producer => (s.shared.step .producer).map fun shared => { s with shared }
  | .stop => some { s with gStop := true }
  | .coords => s.stepCoords

def machine : EventMachine CoordsThread Event := ⟨step⟩

/-- What a step can do. -/
inductive Moves (s : CoordsThread) : CoordsThread → Prop
  | push (msg shared) (moved : s.shared.step (.push msg) = some shared) : Moves s { s with shared }
  | producer (shared) (moved : s.shared.step .producer = some shared) : Moves s { s with shared }
  | stop : Moves s { s with gStop := true }
  | testStop (phase : s.phase = .testStop) :
      Moves s { s with phase := if s.gStop then .testCount 0 else .popping }
  | pop (shared result) (phase : s.phase = .popping) (popped : s.shared.stepPop = some (shared, result)) :
      Moves s { s with shared, phase := afterPop result }
  | sleep (phase : s.phase = .sleeping) : Moves s { s with phase := .testStop }
  | log (msg) (phase : s.phase = .logging msg) : Moves s { s with log := logMessage s.log msg, phase := .testStop }
  | testCount (i) (phase : s.phase = .testCount i) :
      Moves s { s with phase := if i < 1000 then .drainPopping i else .returned }
  | drainPop (i shared result) (phase : s.phase = .drainPopping i)
      (popped : s.shared.stepPop = some (shared, result)) :
      Moves s { s with shared, phase := afterDrainPop i result }
  | drainLog (i m) (phase : s.phase = .drainLogging i m) :
      Moves s { s with log := logMessage s.log m, drained := s.drained ++ [m], phase := .testCount i }

theorem moves_of_step {s next : CoordsThread} {event : Event} (success : s.step event = some next) :
    Moves s next := by
  cases event with
  | push msg =>
    obtain ⟨shared, moved, rfl⟩ := Option.map_eq_some_iff.mp success
    exact .push msg shared moved
  | producer =>
    obtain ⟨shared, moved, rfl⟩ := Option.map_eq_some_iff.mp success
    exact .producer shared moved
  | stop =>
    cases success
    exact .stop
  | coords =>
    rw [step, stepCoords] at success
    split at success
    next phase => cases success; exact .testStop phase
    next phase =>
      obtain ⟨⟨shared, result⟩, popped, rfl⟩ := Option.map_eq_some_iff.mp success
      exact .pop shared result phase popped
    next phase => cases success; exact .sleep phase
    next msg phase => cases success; exact .log msg phase
    next i phase => cases success; exact .testCount i phase
    next i phase =>
      obtain ⟨⟨shared, result⟩, popped, rfl⟩ := Option.map_eq_some_iff.mp success
      exact .drainPop i shared result phase popped
    next i m phase => cases success; exact .drainLog i m phase
    next => cases success

end CoordsThread

end ProcessMonitor.Model.Vts
