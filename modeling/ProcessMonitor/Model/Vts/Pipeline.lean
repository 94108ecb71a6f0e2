import ProcessMonitor.Machine.Core.Run
import ProcessMonitor.Machine.Posix.Socket
import ProcessMonitor.Model.Vts.ReqHandler
import ProcessMonitor.Model.Vts.WorkQueue

/-! # The workers that answer one connection

The frames of one connection go into the queue, which the works of other clients share; workers take
them out, run their critical sections, and write their replies, each with two `write_full` calls that
take any number of `write()` calls. Nothing but the queue stands between two requests of the
connection, so every step of one can fall between any two steps of another. What the workers of other
clients do to the shared state between two steps is arbitrary.

A worker knows the connection by the number of its descriptor only. Once the connection is closed its `write()` calls
fail, or go to whatever connection has the number then; and while it is open, a worker that still answers an earlier
connection with the number writes to this one.
-/

namespace ProcessMonitor.Model.Vts

open Machine Machine.Posix

/-- A frame of the connection, numbered by its place among them. -/
structure Request where
  number : ℕ
  payload : Bytes
deriving DecidableEq, Repr

/-- In the handler, or in `send_length_prefixed` with the buffers that are still to be written. -/
inductive Stage
  | handling (rest : Handler)
  | sending (reply : Reply) (left : List Bytes)

/-- A request that a worker has taken. For the record, `put` are the bytes its `write()` calls have put
on the connection, and `failed` tells that one of them has failed or gone elsewhere. -/
structure Task where
  request : Request
  stage : Stage
  put : Bytes
  failed : Bool

/-- The works of other clients in the queue are `none`. Tasks stand in the order they were taken, the
finished ones included. `applied` records the registry calls of the connection's requests, and `stream`
is all that has been put on it until it was `closed`. -/
structure Pipeline where
  shared : Shared
  received : ℕ
  queue : List (Option Request)
  tasks : List Task
  applied : List (ℕ × RegistryCall)
  stream : Bytes
  closed : Bool

/-- The call that the next critical section makes, if it is one on the registry. -/
def Handler.registryCall? : Handler → Option RegistryCall
  | registry call _ => some call
  | _ => none

namespace Pipeline

def start : Pipeline := ⟨.start, 0, [], [], [], [], false⟩

/-- `recv` is a frame that `read_from_conn` pushes, `other` a work of another client, and `outside` a
critical section of a worker that answers another client. `close` is `conn_free`, and `stray` a `write()` of a worker
that answers an earlier connection with the same descriptor number. The tasks are named by their place. -/
inductive Event
  | recv (payload : Bytes)
  | close
  | other
  | outside (shared : Shared)
  | stray (bytes : Bytes)
  | pop
  | act (task : ℕ)
  | reply (task : ℕ)
  | write (task : ℕ) (answer : WriteAnswer)

/-- `req_queue_push` -/
def push (p : Pipeline) (item : Option Request) : Pipeline := { p with queue := pushBounded p.queue item }

def takeRequest (p : Pipeline) (request : Request) (queue : List (Option Request)) : Pipeline :=
  { p with queue, tasks := p.tasks ++ [⟨request, .handling (processOne request.payload), [], false⟩] }

def setTask (p : Pipeline) (i : ℕ) (task : Task) : Pipeline := { p with tasks := p.tasks.set i task }

/-- One critical section, with the registry call it makes. -/
def actTask (p : Pipeline) (i : ℕ) (task : Task) (rest next : Handler) (shared : Shared) : Pipeline :=
  { p with
    shared
    tasks := p.tasks.set i { task with stage := .handling next }
    applied := p.applied ++ rest.registryCall?.toList.map fun call => (task.request.number, call) }

/-- One `write()` of `write_full`: an error, `EAGAIN` included, ends the buffer but not the reply. On a closed
connection the bytes are accepted only by another connection. -/
def writeOnce (p : Pipeline) (i : ℕ) (task : Task) (r : Reply) (buffer : Bytes) (left : List Bytes) :
    WriteAnswer → Pipeline
  | .accept more =>
    let n := min (more + 1) buffer.length
    if p.closed then p.setTask i { task with stage := .sending r (buffer.drop n :: left), failed := true }
    else
      { p.setTask i { task with stage := .sending r (buffer.drop n :: left), put := task.put ++ buffer.take n } with
        stream := p.stream ++ buffer.take n }
  | .interrupted => p
  | .fault => p.setTask i { task with stage := .sending r left, failed := true }

def step (p : Pipeline) : Event → Option Pipeline
  | .recv payload =>
    if p.closed then none else some { p.push (some ⟨p.received, payload⟩) with received := p.received + 1 }
  | .close => if p.closed then none else some { p with closed := true }
  | .other => some (p.push none)
  | .outside shared => some { p with shared }
  | .stray bytes => if p.closed then none else some { p with stream := p.stream ++ bytes }
  | .pop =>
    match p.queue with
    | some request :: queue => some (p.takeRequest request queue)
    | none :: queue => some { p with queue }
    | [] => none
  | .act i => do
    let task ← p.tasks[i]?
    match task.stage with
    | .handling rest => (rest.act p.shared).map fun (shared, next) => p.actTask i task rest next shared
    | .sending .. => none
  | .reply i => do
    let task ← p.tasks[i]?
    match task.stage with
    | .handling (.reply r) => some (p.setTask i { task with stage := .sending r r.segments })
    | _ => none
  | .write i answer => do
    let task ← p.tasks[i]?
    match task.stage with
    | .sending r ([] :: left) => some (p.setTask i { task with stage := .sending r left })
    | .sending r (buffer :: left) => some (p.writeOnce i task r buffer left answer)
    | _ => none

def machine : EventMachine Pipeline Event := ⟨step⟩

/-- What a step can do. -/
inductive Moves (p : Pipeline) : Event → Pipeline → Prop
  | recv (payload : Bytes) (isOpen : p.closed = false) :
      Moves p (.recv payload) { p.push (some ⟨p.received, payload⟩) with received := p.received + 1 }
  | close (isOpen : p.closed = false) : Moves p .close { p with closed := true }
  | other : Moves p .other (p.push none)
  | outside (shared : Shared) : Moves p (.outside shared) { p with shared }
  | stray (bytes : Bytes) (isOpen : p.closed = false) : Moves p (.stray bytes) { p with stream := p.stream ++ bytes }
  | skip (queue) (head : p.queue = none :: queue) : Moves p .pop { p with queue }
  | take (request queue) (head : p.queue = some request :: queue) : Moves p .pop (p.takeRequest request queue)
  | act (i task rest next shared) (found : p.tasks[i]? = some task) (handling : task.stage = .handling rest)
      (acted : rest.act p.shared = some (shared, next)) : Moves p (.act i) (p.actTask i task rest next shared)
  | reply (i task r) (found : p.tasks[i]? = some task) (handling : task.stage = .handling (.reply r)) :
      Moves p (.reply i) (p.setTask i { task with stage := .sending r r.segments })
  | next (i task r left answer) (found : p.tasks[i]? = some task) (sending : task.stage = .sending r ([] :: left)) :
      Moves p (.write i answer) (p.setTask i { task with stage := .sending r left })
  | write (i task r buffer left answer) (found : p.tasks[i]? = some task)
      (sending : task.stage = .sending r (buffer :: left)) (unsent : buffer ≠ []) :
      Moves p (.write i answer) (p.writeOnce i task r buffer left answer)

theorem moves_of_step {p next : Pipeline} {event : Event} (success : p.step event = some next) :
    Moves p event next := by
  have guarded {after : Pipeline} (success : (if p.closed then none else some after) = some next) :
      p.closed = false ∧ after = next := by
    obtain ⟨isOpen, same⟩ := Option.ite_none_left_eq_some.mp success
    exact ⟨Bool.eq_false_iff.mpr isOpen, Option.some.inj same⟩
  cases event with
  | recv payload =>
    obtain ⟨isOpen, rfl⟩ := guarded success
    exact .recv payload isOpen
  | close =>
    obtain ⟨isOpen, rfl⟩ := guarded success
    exact .close isOpen
  | stray bytes =>
    obtain ⟨isOpen, rfl⟩ := guarded success
    exact .stray bytes isOpen
  | other | outside => cases success; constructor
  | pop =>
    rw [step] at success
    split at success
    next request queue head => cases success; exact .take request queue head
    next queue head => cases success; exact .skip queue head
    next => cases success
  | act i =>
    obtain ⟨task, found, success⟩ := Option.bind_eq_some_iff.mp success
    split at success
    next rest handling =>
      obtain ⟨⟨shared, next⟩, acted, rfl⟩ := Option.map_eq_some_iff.mp success
      exact .act i task rest next shared found handling acted
    next => cases success
  | reply i =>
    obtain ⟨task, found, success⟩ := Option.bind_eq_some_iff.mp success
    split at success
    next r handling => cases success; exact .reply i task r found handling
    next => cases success
  | write i answer =>
    obtain ⟨task, found, success⟩ := Option.bind_eq_some_iff.mp success
    split at success
    next r left sending => cases success; exact .next i task r left answer found sending
    next r buffer left unsent sending =>
      cases success
      exact .write i task r buffer left answer found sending unsent
    next => cases success

theorem step_of_moves {p next : Pipeline} {event : Event} (moves : Moves p event next) :
    p.step event = some next := by
  cases moves with
  | recv payload isOpen | close isOpen | stray bytes isOpen => simp [step, isOpen]
  | other | outside => rfl
  | skip queue head | take request queue head => simp [step, head]
  | act i task rest next shared found handling acted => simp [step, found, handling, acted]
  | reply i task r found handling => simp [step, found, handling]
  | next i task r left answer found sending => simp [step, found, sending]
  | write i task r buffer left answer found sending unsent =>
    obtain ⟨first, others, rfl⟩ := List.exists_cons_of_ne_nil unsent
    simp [step, found, sending]

end Pipeline

end ProcessMonitor.Model.Vts
