import ProcessMonitor.Machine.Core.Chain
import ProcessMonitor.Machine.Core.Run
import ProcessMonitor.Machine.Posix.Word
import Mathlib.Data.Int.Notation

/-! # The request queue between the server loop and the workers

`qhead`, `qtail`, and `qlen` are kept as the source keeps them, over a heap of `work_t` nodes.
Reading through a null or freed pointer has no value, so an operation that would do it fails
here. The critical sections under `qlock` are the atomic steps; `malloc` returns any address that
holds no live node, and a dequeued node stays live until `process_one` frees it.
-/

namespace ProcessMonitor.Model.Vts

open Machine Machine.Posix

/-- The contents of one `work_t`: `len` request bytes and the descriptor to answer on. -/
structure Work where
  payload : Bytes
  len : ℕ
  peerFd : ℤ
deriving DecidableEq, Repr

/-- `QUEUE_DEPTH` -/
def queueDepth : ℤ := 10240

/-- The queue as a list, oldest first: a push into a full queue discards the oldest item. -/
def pushBounded {α : Type*} (items : List α) (item : α) : List α :=
  (if queueDepth ≤ items.length then items.tail else items) ++ [item]

structure WorkQueue where
  heap : Heap Work
  qhead : Option ℕ
  qtail : Option ℕ
  qlen : ℤ

namespace WorkQueue

def empty : WorkQueue := ⟨fun _ => none, none, none, 0⟩

/-- `qhead = old->next; if(!qhead) qtail = NULL; qlen--;` as both ends of the queue do it. -/
def unlinkHead (q : WorkQueue) (old : ℕ) : Option (WorkQueue × Work) :=
  (q.heap old).map fun cell =>
    ({ q with
        qhead := cell.next
        qtail := if cell.next = none then none else q.qtail
        qlen := q.qlen - 1 }, cell.value)

/-- `free(old->payload); free(old);` -/
def free (q : WorkQueue) (old : ℕ) : WorkQueue :=
  { q with heap := Function.update q.heap old none }

/-- The `if(qlen >= QUEUE_DEPTH)` block, with the work it discards. -/
def dropOldest (q : WorkQueue) : Option (WorkQueue × Option Work) :=
  if queueDepth ≤ q.qlen then
    match q.qhead with
    | none => some (q, none)
    | some old => (q.unlinkHead old).map fun (q, work) => (q.free old, some work)
  else some (q, none)

/-- `if(!qhead) qhead = w, qtail = w; else { qtail->next = w; qtail = w; } qlen++;` -/
def link (q : WorkQueue) (w : ℕ) : Option WorkQueue :=
  match q.qhead with
  | none => some { q with qhead := some w, qtail := some w, qlen := q.qlen + 1 }
  | some _ => do
    let last ← q.qtail
    let cell ← q.heap last
    some { q with
      heap := Function.update q.heap last (some { cell with next := some w })
      qtail := some w
      qlen := q.qlen + 1 }

/-- `w->payload` is a copy of the first `len` bytes, so the caller's buffer can be freed. -/
def makeWork (payload : Bytes) (len : ℕ) (peerFd : ℤ) : Work := ⟨payload.take len, len, peerFd⟩

/-- `req_queue_push` up to the lock: the new node `w` is filled and linked to nothing. -/
def prepare (q : WorkQueue) (w : ℕ) (work : Work) : WorkQueue :=
  { q with heap := Function.update q.heap w (some ⟨work, none⟩) }

/-- The critical section of `req_queue_push`; the second component is the work dropped, if any. -/
def enqueue (q : WorkQueue) (w : ℕ) : Option (WorkQueue × Option Work) := do
  let (q, dropped) ← q.dropOldest
  let q ← q.link w
  some (q, dropped)

def reqQueuePush (q : WorkQueue) (w : ℕ) (payload : Bytes) (len : ℕ) (peerFd : ℤ) :
    Option (WorkQueue × Option Work) :=
  (q.prepare w (makeWork payload len peerFd)).enqueue w

/-- The critical section of `worker_fn`; on an empty queue the worker waits on `qcond`. -/
def workerTake (q : WorkQueue) : Option (WorkQueue × Option (ℕ × Work)) :=
  match q.qhead with
  | none => some (q, none)
  | some w => (q.unlinkHead w).map fun (q, work) => (q, some (w, work))

end WorkQueue

/-- The queue together with the history that the accounting of its items is about. -/
structure QueueSystem where
  queue : WorkQueue
  taken : List ℕ
  pushed : List Work
  dequeued : List Work
  dropped : List Work

namespace QueueSystem

def start : QueueSystem := ⟨.empty, [], [], [], []⟩

/-- A call of `req_queue_push`, a worker's dequeue, or a worker finishing `process_one`. -/
inductive Event
  | push (w : ℕ) (payload : Bytes) (len : ℕ) (peerFd : ℤ)
  | dequeue
  | finish (w : ℕ)
deriving DecidableEq, Repr

def step (s : QueueSystem) : Event → Option QueueSystem
  | .push w payload len peerFd =>
    if s.queue.heap w = none then
      (s.queue.reqQueuePush w payload len peerFd).map fun (queue, old) =>
        { s with
          queue
          pushed := s.pushed ++ [WorkQueue.makeWork payload len peerFd]
          dropped := s.dropped ++ old.toList }
    else none
  | .dequeue =>
    s.queue.workerTake.map fun (queue, item) =>
      { s with
        queue
        taken := s.taken ++ (item.map Prod.fst).toList
        dequeued := s.dequeued ++ (item.map Prod.snd).toList }
  | .finish w =>
    if w ∈ s.taken then some { s with queue := s.queue.free w, taken := s.taken.erase w } else none

def machine : EventMachine QueueSystem Event := ⟨step⟩

end QueueSystem

end ProcessMonitor.Model.Vts
