import ProcessMonitor.Model.Vts.ThreadsCoords
import ProcessMonitor.Model.Vts.ThreadsRecv

/-! # The daemon from the pipe to the log

`main` starts the receiver and the logging thread, waits for a signal, and then joins the two and frees what is
left in the FIFO. The receiver tests `g_stop` at the head of each round of its loop, and pushes the lines of one
`read()` one after the other. The handler of the signal runs in the main thread, which the kernel prefers; it
sets `g_stop`, and makes a `pause()` return. Both threads are taken to have been started. The networking thread
is not among them: its workers touch neither the FIFO nor the flag, but write their own lines to the log file.
-/

namespace ProcessMonitor.Model.Vts

open Machine Machine.Posix

/-- Where `main` is, after the threads have been started; between the test of the flag and the call of `pause()` a
signal may come. `vts_threads_join_all` finds the flag set and does not sleep; with its return `main` is `joined`,
and goes on to cancel the networking thread. -/
inductive MainPhase
  | testStop
  | callPause
  | pausing
  | joinCoords
  | joinRecv
  | freeFifo
  | joined
deriving DecidableEq, Repr

/-- The messages that the next step of `thr_coords` logs. -/
def CoordsPhase.logs : CoordsPhase → List Message
  | .logging msg => [msg]
  | .drainLogging _ m => [m]
  | _ => []

namespace CoordsThread

/-- The steps of the thread itself. -/
inductive OwnMoves (s : CoordsThread) : CoordsThread → Prop
  | testStop (phase : s.phase = .testStop) : OwnMoves s { s with phase := if s.gStop then .testCount 0 else .popping }
  | pop {shared : SharedFifo} {result : Option (Option Message)} (phase : s.phase = .popping)
      (popped : s.shared.stepPop = some (shared, result)) : OwnMoves s { s with shared, phase := afterPop result }
  | sleep (phase : s.phase = .sleeping) : OwnMoves s { s with phase := .testStop }
  | log {msg : Message} (phase : s.phase = .logging msg) :
      OwnMoves s { s with log := logMessage s.log msg, phase := .testStop }
  | testCount {i : ℕ} (phase : s.phase = .testCount i) :
      OwnMoves s { s with phase := if i < 1000 then .drainPopping i else .returned }
  | drainPop {i : ℕ} {shared : SharedFifo} {result : Option (Option Message)} (phase : s.phase = .drainPopping i)
      (popped : s.shared.stepPop = some (shared, result)) :
      OwnMoves s { s with shared, phase := afterDrainPop i result }
  | drainLog {i : ℕ} {m : Message} (phase : s.phase = .drainLogging i m) :
      OwnMoves s { s with log := logMessage s.log m, drained := s.drained ++ [m], phase := .testCount i }

theorem ownMoves_of_stepCoords {s next : CoordsThread} (stepped : s.stepCoords = some next) : OwnMoves s next := by
  rw [stepCoords] at stepped
  split at stepped
  next phase => cases stepped; exact .testStop phase
  next phase =>
    obtain ⟨⟨shared, result⟩, popped, rfl⟩ := Option.map_eq_some_iff.mp stepped
    exact .pop phase popped
  next phase => cases stepped; exact .sleep phase
  next msg phase => cases stepped; exact .log phase
  next i phase => cases stepped; exact .testCount phase
  next i phase =>
    obtain ⟨⟨shared, result⟩, popped, rfl⟩ := Option.map_eq_some_iff.mp stepped
    exact .drainPop phase popped
  next i m phase => cases stepped; exact .drainLog phase
  next => cases stepped

end CoordsThread

/-- `tested` says that the receiver has found the flag unset and goes through its loop, `outbox` are the lines of
the last `read()` that it has not pushed yet. For the record, `logged` are the messages logged, and `freed` those
that `vts_fifo_free` has freed. -/
structure VtsMain where
  recv : ThrRecv UInt8
  tested : Bool
  outbox : List Bytes
  coords : CoordsThread
  main : MainPhase
  logged : List Message
  freed : List Message

namespace VtsMain

def start (cap : ℕ) (log : VtsLog) : VtsMain := ⟨.start, false, [], .start cap log, .testStop, [], []⟩

/-- `recv` is the next system call of the receiver, `handleLine` the next call of `handle_line`, and `push` the
next access of the push that is under way. -/
inductive Event
  | signal
  | recvTest
  | recv (e : ThrRecv.Event UInt8)
  | handleLine
  | push
  | coords
  | main
deriving DecidableEq, Repr

def shared (s : VtsMain) : SharedFifo := s.coords.shared

/-- The receiver is between two calls of `handle_line`, with none left to make. -/
def AllPushed (s : VtsMain) : Prop := s.outbox = [] ∧ s.shared.producer = .idle

instance (s : VtsMain) : Decidable s.AllPushed := inferInstanceAs (Decidable (_ ∧ _))

/-- `on_sig` -/
def onSig (s : VtsMain) : VtsMain :=
  { s with
    coords := { s.coords with gStop := true }
    main := if s.main = .pausing then .testStop else s.main }

/-- The receiver leaves its loop and closes its two descriptors. -/
def recvEnd (s : VtsMain) : VtsMain :=
  { s with recv := { s.recv with pc := .ended, kernel := (s.recv.kernel.closeFd s.recv.fd).closeFd s.recv.ep } }

def stepMain (s : VtsMain) : Option VtsMain :=
  match s.main with
  | .testStop =>
    -- `vts_threads_request_stop` stores the flag once more.
    some { s with main := if s.coords.gStop then .joinCoords else .callPause }
  | .callPause => some { s with main := .pausing }
  | .pausing => none
  | .joinCoords => if s.coords.phase = .returned then some { s with main := .joinRecv } else none
  | .joinRecv => if s.recv.pc = .ended then some { s with main := .freeFifo } else none
  | .freeFifo =>
    s.shared.fifo.vtsFifoFree.map fun (fifo, freed) =>
      { s with coords := { s.coords with shared := { s.shared with fifo } }, freed, main := .joined }
  | .joined => none

def step (s : VtsMain) : Event → Option VtsMain
  | .signal => some s.onSig
  | .recvTest =>
    if s.recv.pc = .wait ∧ s.tested = false ∧ s.AllPushed then
      some (if s.coords.gStop then s.recvEnd else { s with tested := true })
    else none
  | .recv e =>
    if s.AllPushed ∧ (s.recv.pc = .wait → s.tested = true) then
      (s.recv.step id e).map fun recv =>
        { s with recv, tested := false, outbox := recv.messages.drop s.recv.messages.length }
    else none
  | .handleLine =>
    match s.outbox with
    | line :: rest => (s.coords.step (.push (some line))).map fun coords => { s with coords, outbox := rest }
    | [] => none
  | .push => (s.coords.step .producer).map fun coords => { s with coords }
  | .coords => (s.coords.step .coords).map fun coords => { s with coords, logged := s.logged ++ s.coords.phase.logs }
  | .main => s.stepMain

def machine : EventMachine VtsMain Event := ⟨step⟩

/-- Every step, with the tests it has passed. -/
inductive Moves (s : VtsMain) : Event → VtsMain → Prop
  | signal : Moves s .signal s.onSig
  | sawStop (here : s.recv.pc = .wait) (pushed : s.AllPushed) (stop : s.coords.gStop = true) :
      Moves s .recvTest s.recvEnd
  | goesOn (here : s.recv.pc = .wait) (fresh : s.tested = false) (going : s.coords.gStop = false) :
      Moves s .recvTest { s with tested := true }
  | recv {e : ThrRecv.Event UInt8} {recv : ThrRecv UInt8} (pushed : s.AllPushed)
      (tested : s.recv.pc = .wait → s.tested = true) (moves : ThrRecv.Moves id s.recv e recv)
      (fits : e.bytes.length ≤ 65536) :
      Moves s (.recv e) { s with recv, tested := false, outbox := recv.messages.drop s.recv.messages.length }
  | handleLine {line : Bytes} {rest : List Bytes} {shared : SharedFifo} (next : s.outbox = line :: rest)
      (moved : s.shared.step (.push (some line)) = some shared) :
      Moves s .handleLine { s with coords := { s.coords with shared }, outbox := rest }
  | push {shared : SharedFifo} (moved : s.shared.stepProducer = some shared) :
      Moves s .push { s with coords := { s.coords with shared } }
  | coords {coords : CoordsThread} (moves : s.coords.OwnMoves coords) :
      Moves s .coords { s with coords, logged := s.logged ++ s.coords.phase.logs }
  | mainStops (here : s.main = .testStop) (stop : s.coords.gStop = true) : Moves s .main { s with main := .joinCoords }
  | mainGoesOn (here : s.main = .testStop) (going : s.coords.gStop = false) :
      Moves s .main { s with main := .callPause }
  | mainPauses (here : s.main = .callPause) : Moves s .main { s with main := .pausing }
  | joinedCoords (here : s.main = .joinCoords) (returned : s.coords.phase = .returned) :
      Moves s .main { s with main := .joinRecv }
  | joinedRecv (here : s.main = .joinRecv) (returned : s.recv.pc = .ended) : Moves s .main { s with main := .freeFifo }
  | freed {fifo : Fifo} {freed : List Message} (here : s.main = .freeFifo)
      (free : s.shared.fifo.vtsFifoFree = some (fifo, freed)) :
      Moves s .main { s with coords := { s.coords with shared := { s.shared with fifo } }, freed, main := .joined }

/-- No `read()` returns more than its buffer holds. -/
theorem bytes_le {s next : ThrRecv UInt8} {e : ThrRecv.Event UInt8} (stepped : s.step id e = some next) :
    e.bytes.length ≤ 65536 := by
  cases e with
  | read result =>
    cases result with
    | data bytes =>
      cases here : s.pc with
      | read =>
        simp only [ThrRecv.step, here, ThrRecv.readStep] at stepped
        split at stepped
        next => cases stepped
        next fits => exact Nat.not_lt.mp fun large => fits (.inr large)
      | _ => simp [ThrRecv.step, here] at stepped
    | _ => exact Nat.zero_le _
  | _ => exact Nat.zero_le _

theorem moves_of_step {s next : VtsMain} {e : Event} (stepped : s.step e = some next) : s.Moves e next := by
  cases e with
  | signal =>
    cases stepped
    exact .signal
  | recvTest =>
    obtain ⟨⟨here, fresh, pushed⟩, same⟩ := Option.ite_none_right_eq_some.mp stepped
    cases same
    split
    next stop => exact .sawStop here pushed stop
    next going => exact .goesOn here fresh (Bool.eq_false_iff.mpr going)
  | recv e =>
    obtain ⟨⟨pushed, tested⟩, mapped⟩ := Option.ite_none_right_eq_some.mp stepped
    obtain ⟨recv, moved, rfl⟩ := Option.map_eq_some_iff.mp mapped
    exact .recv pushed tested (ThrRecv.step_moves moved) (bytes_le moved)
  | handleLine =>
    simp only [step] at stepped
    split at stepped
    next line rest next =>
      obtain ⟨coords, moved, rfl⟩ := Option.map_eq_some_iff.mp stepped
      obtain ⟨shared, pushed, rfl⟩ := Option.map_eq_some_iff.mp moved
      exact .handleLine next pushed
    next => cases stepped
  | push =>
    obtain ⟨coords, moved, rfl⟩ := Option.map_eq_some_iff.mp stepped
    obtain ⟨shared, pushed, rfl⟩ := Option.map_eq_some_iff.mp moved
    exact .push pushed
  | coords =>
    obtain ⟨coords, moved, rfl⟩ := Option.map_eq_some_iff.mp stepped
    exact .coords (CoordsThread.ownMoves_of_stepCoords moved)
  | main =>
    simp only [step, stepMain] at stepped
    split at stepped
    next here =>
      cases stepped
      split
      next stop => exact .mainStops here stop
      next going => exact .mainGoesOn here (Bool.eq_false_iff.mpr going)
    next here =>
      cases stepped
      exact .mainPauses here
    next => cases stepped
    next here =>
      obtain ⟨returned, same⟩ := Option.ite_none_right_eq_some.mp stepped
      cases same
      exact .joinedCoords here returned
    next here =>
      obtain ⟨returned, same⟩ := Option.ite_none_right_eq_some.mp stepped
      cases same
      exact .joinedRecv here returned
    next here =>
      obtain ⟨⟨fifo, freed⟩, free, rfl⟩ := Option.map_eq_some_iff.mp stepped
      exact .freed here free
    next => cases stepped

end VtsMain

end ProcessMonitor.Model.Vts
