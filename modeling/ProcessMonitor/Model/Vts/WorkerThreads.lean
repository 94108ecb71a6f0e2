import ProcessMonitor.Machine.Posix.Monitor
import ProcessMonitor.Model.Vts.WorkQueue

/-! # The threads at the request queue

`req_queue_push` and `worker_fn`, cut at the calls that lock `qlock`, unlock it, wait on `qcond` and signal it, and
at the blocks between these calls. The phases are those of a monitor, with the address of the node at hand. One
thread pushes, the server loop, and `req_handler_start` makes the workers; the scheduler chooses who goes on, whom a
signal wakes, and who wakes up without one. What `process_one` does with its work before it frees it is not
part of this model.
-/

namespace ProcessMonitor.Model.Vts

open Machine Machine.Posix

/-- `WORKER_COUNT` -/
def workerCount : ℕ := 8

structure WorkerThreads where
  queue : WorkQueue
  qlock : Option Monitor.Owner
  pusher : Monitor.Producer ℕ
  workers : List (Monitor.Consumer ℕ)

namespace WorkerThreads

/-- After `req_handler_start` has made `count` threads. -/
def start (count : ℕ) : WorkerThreads := ⟨.empty, none, .idle, List.replicate count .entering⟩

/-- `push` is a call of `req_queue_push` up to its lock, in which `malloc` returns `w`. -/
inductive Event
  | push (w : ℕ) (payload : Bytes) (len : ℕ) (peerFd : ℤ)
  | pusher
  | signal (woken : Option ℕ)
  | worker (i : ℕ)
  | wakeup (i : ℕ)
deriving DecidableEq, Repr

/-- The events that are steps of a thread in the middle of its work. -/
def Event.Inner : Event → Prop
  | .pusher | .signal _ | .worker _ => True
  | .push .. | .wakeup _ => False

/-- The critical section of `req_queue_push` without its signal. -/
def stepPusher (s : WorkerThreads) : Option WorkerThreads :=
  match s.pusher with
  | .entering w => if s.qlock = none then some { s with qlock := some .producer, pusher := .inside w } else none
  | .inside w => s.queue.dropOldest.map fun (queue, _) => { s with queue, pusher := .roomy w }
  | .roomy w => (s.queue.link w).map fun queue => { s with queue, pusher := .added }
  | .signalled => some { s with qlock := none, pusher := .idle }
  | .idle | .added => none

/-- `pthread_cond_signal(&qcond)`; without a thread that waits it has no effect. -/
def stepSignal (s : WorkerThreads) (woken : Option ℕ) : Option WorkerThreads :=
  if s.pusher = .added then
    match woken with
    | some i =>
      if s.workers[i]? = some .asleep then
        some { s with pusher := .signalled, workers := s.workers.set i .entering }
      else none
    | none => if .asleep ∈ s.workers then none else some { s with pusher := .signalled }
  else none

/-- `worker_fn` -/
def stepWorker (s : WorkerThreads) (i : ℕ) : Option WorkerThreads :=
  match s.workers[i]? with
  | some .entering =>
    if s.qlock = none then some { s with qlock := some (.consumer i), workers := s.workers.set i .inside } else none
  | some .inside =>
    s.queue.workerTake.map fun
      -- `pthread_cond_wait` gives the mutex up
      | (queue, none) => { s with queue, qlock := none, workers := s.workers.set i .asleep }
      | (queue, some (w, _)) => { s with queue, workers := s.workers.set i (.leaving w) }
  | some (.leaving w) => some { s with qlock := none, workers := s.workers.set i (.busy w) }
  | some (.busy w) => some { s with queue := s.queue.free w, workers := s.workers.set i .entering }
  | some .asleep | none => none

def step (s : WorkerThreads) : Event → Option WorkerThreads
  | .push w payload len peerFd =>
    if s.pusher = .idle ∧ s.queue.heap w = none then
      some { s with queue := s.queue.prepare w (WorkQueue.makeWork payload len peerFd), pusher := .entering w }
    else none
  | .pusher => s.stepPusher
  | .signal woken => s.stepSignal woken
  | .worker i => s.stepWorker i
  | .wakeup i =>
    if s.workers[i]? = some .asleep then some { s with workers := s.workers.set i .entering } else none

def machine : EventMachine WorkerThreads Event := ⟨step⟩

/-- What a step can do. -/
inductive Moves (s : WorkerThreads) : Event → WorkerThreads → Prop
  | push {w payload len peerFd} (idle : s.pusher = .idle) (fresh : s.queue.heap w = none) :
      Moves s (.push w payload len peerFd)
        { s with queue := s.queue.prepare w (WorkQueue.makeWork payload len peerFd), pusher := .entering w }
  | lock {w} (phase : s.pusher = .entering w) (free : s.qlock = none) :
      Moves s .pusher { s with qlock := some .producer, pusher := .inside w }
  | drop {w queue dropped} (phase : s.pusher = .inside w) (trimmed : s.queue.dropOldest = some (queue, dropped)) :
      Moves s .pusher { s with queue, pusher := .roomy w }
  | link {w queue} (phase : s.pusher = .roomy w) (linked : s.queue.link w = some queue) :
      Moves s .pusher { s with queue, pusher := .added }
  | signal {i} (phase : s.pusher = .added) (sleeper : s.workers[i]? = some .asleep) :
      Moves s (.signal (some i)) { s with pusher := .signalled, workers := s.workers.set i .entering }
  | signalNobody (phase : s.pusher = .added) (nobody : .asleep ∉ s.workers) :
      Moves s (.signal none) { s with pusher := .signalled }
  | unlock (phase : s.pusher = .signalled) : Moves s .pusher { s with qlock := none, pusher := .idle }
  | enter {i} (phase : s.workers[i]? = some .entering) (free : s.qlock = none) :
      Moves s (.worker i) { s with qlock := some (.consumer i), workers := s.workers.set i .inside }
  | wait {i queue} (phase : s.workers[i]? = some .inside) (taken : s.queue.workerTake = some (queue, none)) :
      Moves s (.worker i) { s with queue, qlock := none, workers := s.workers.set i .asleep }
  | take {i queue w work} (phase : s.workers[i]? = some .inside)
      (taken : s.queue.workerTake = some (queue, some (w, work))) :
      Moves s (.worker i) { s with queue, workers := s.workers.set i (.leaving w) }
  | leave {i w} (phase : s.workers[i]? = some (.leaving w)) :
      Moves s (.worker i) { s with qlock := none, workers := s.workers.set i (.busy w) }
  | free {i w} (phase : s.workers[i]? = some (.busy w)) :
      Moves s (.worker i) { s with queue := s.queue.free w, workers := s.workers.set i .entering }
  | wakeup {i} (phase : s.workers[i]? = some .asleep) :
      Moves s (.wakeup i) { s with workers := s.workers.set i .entering }

theorem moves_of_step {s next : WorkerThreads} {event : Event} (success : s.step event = some next) :
    Moves s event next := by
  cases event with
  | push w payload len peerFd =>
    obtain ⟨⟨idle, fresh⟩, same⟩ := Option.ite_none_right_eq_some.mp success
    cases same
    exact .push idle fresh
  | pusher =>
    rw [step, stepPusher] at success
    split at success
    next w phase =>
      obtain ⟨free, same⟩ := Option.ite_none_right_eq_some.mp success
      cases same
      exact .lock phase free
    next w phase =>
      obtain ⟨⟨queue, dropped⟩, trimmed, rfl⟩ := Option.map_eq_some_iff.mp success
      exact .drop phase trimmed
    next w phase =>
      obtain ⟨queue, linked, rfl⟩ := Option.map_eq_some_iff.mp success
      exact .link phase linked
    next phase => cases success; exact .unlock phase
    next => cases success
    next => cases success
  | signal woken =>
    obtain ⟨phase, success⟩ := Option.ite_none_right_eq_some.mp success
    cases woken with
    | some i =>
      obtain ⟨sleeper, same⟩ := Option.ite_none_right_eq_some.mp success
      cases same
      exact .signal phase sleeper
    | none =>
      obtain ⟨nobody, same⟩ := Option.ite_none_left_eq_some.mp success
      cases same
      exact .signalNobody phase nobody
  | worker i =>
    rw [step, stepWorker] at success
    split at success
    next phase =>
      obtain ⟨free, same⟩ := Option.ite_none_right_eq_some.mp success
      cases same
      exact .enter phase free
    next phase =>
      obtain ⟨⟨queue, item⟩, taken, same⟩ := Option.map_eq_some_iff.mp success
      cases item with
      | none => cases same; exact .wait phase taken
      | some node => cases same; exact .take phase taken
    next w phase => cases success; exact .leave phase
    next w phase => cases success; exact .free phase
    next => cases success
    next => cases success
  | wakeup i =>
    obtain ⟨phase, same⟩ := Option.ite_none_right_eq_some.mp success
    cases same
    exact .wakeup phase

end WorkerThreads

end ProcessMonitor.Model.Vts
