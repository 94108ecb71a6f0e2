import ProcessMonitor.Model.Vts.Fifo

/-! # The ring FIFO shared by a producer and a consumer

`vts_fifo_push_spsc` and `vts_fifo_pop_spsc` as two threads run them, cut at every access to shared
memory: loads and stores of `head`, `tail`, and the metrics, reads and writes of a slot, and `free`.
A phase is named after the access that comes next and holds the registers that are still needed. The
scheduler chooses at each step which side goes on, and memory is sequentially consistent.
-/

namespace ProcessMonitor.Model.Vts

open Machine Machine.Posix

/-- Where a push is; `dropped` is the source's flag. -/
inductive Producer
  | idle
  | loadHead (msg : Option Bytes) (tail : ℕ)
  | loadMetrics (msg : Option Bytes) (tail head : ℕ)
  | readOld (msg : Option Bytes) (tail head : ℕ) (m : FifoMetrics)
  | freeOld (msg : Option Bytes) (tail head : ℕ) (m : FifoMetrics) (old : Option Message)
  | clearOld (msg : Option Bytes) (tail head : ℕ) (m : FifoMetrics)
  | storeHead (msg : Option Bytes) (tail head : ℕ) (m : FifoMetrics)
  | writeSlot (msg : Option Bytes) (tail : ℕ) (m : FifoMetrics) (dropped : Bool)
  | storeTail (tail : ℕ) (m : FifoMetrics) (dropped : Bool) (dup : Message)
  | storeMetrics (m : FifoMetrics) (dropped : Bool)
  | reloadMetrics (dropped : Bool)
  | depthHead (m : FifoMetrics) (dropped : Bool)
  | depthTail (m : FifoMetrics) (dropped : Bool) (head : ℕ)
  | storeDepth (m : FifoMetrics) (dropped : Bool)
deriving DecidableEq, Repr

/-- Where a pop is. -/
inductive Consumer
  | idle
  | loadTail (head : ℕ)
  | readSlot (head : ℕ)
  | clearSlot (head : ℕ) (out : Option Message)
  | storeHead (head : ℕ) (out : Option Message)
  | loadMetrics (out : Option Message)
  | storeMetrics (out : Option Message) (m : FifoMetrics)
deriving DecidableEq, Repr

/-- The FIFO with its two users: the number of messages pushed, those freed by a push, those returned by
a pop, and the results of the pushes. -/
structure SharedFifo where
  fifo : Fifo
  producer : Producer
  consumer : Consumer
  pushed : ℕ
  freed : List Message
  returned : List Message
  rets : List ℤ
deriving DecidableEq, Repr

namespace SharedFifo

def start (cap : ℕ) : SharedFifo := ⟨(vtsFifoInit cap true).1, .idle, .idle, 0, [], [], []⟩

/-- `push` and `pop` start a call, which loads `tail` or `head` first; the others go on with one. -/
inductive Event
  | push (msg : Option Bytes)
  | pop
  | producer
  | consumer
deriving DecidableEq, Repr

def finishPush (s : SharedFifo) (dropped : Bool) : SharedFifo :=
  { s with producer := .idle, rets := s.rets ++ [if dropped then 0 else 1] }

def finishPop (s : SharedFifo) (out : Option Message) : SharedFifo :=
  { s with consumer := .idle, returned := s.returned ++ out.toList }

/-- The next access of a push. -/
def stepProducer (s : SharedFifo) : Option SharedFifo :=
  match s.producer with
  | .idle => none
  | .loadHead msg tail => some { s with producer := .loadMetrics msg tail s.fifo.head }
  | .loadMetrics msg tail head =>
    some { s with
      producer := if nextIdx tail s.fifo.cap = head then .readOld msg tail head s.fifo.m
        else .writeSlot msg tail s.fifo.m false }
  | .readOld msg tail head m =>
    (s.fifo.slot head).map fun old => { s with producer := .freeOld msg tail head m old }
  | .freeOld msg tail head m old =>
    some { s with producer := .clearOld msg tail head m, freed := s.freed ++ old.toList }
  | .clearOld msg tail head m =>
    (s.fifo.setSlot head none).map fun fifo => { s with fifo, producer := .storeHead msg tail head m }
  | .storeHead msg tail head m =>
    some { s with
      fifo := { s.fifo with head := nextIdx head s.fifo.cap }
      producer := .writeSlot msg tail m true }
  | .writeSlot msg tail m dropped =>
    (s.fifo.setSlot tail (some ⟨s.pushed, msg.getD []⟩)).map fun fifo =>
      { s with fifo, producer := .storeTail tail m dropped ⟨s.pushed, msg.getD []⟩ }
  | .storeTail tail m dropped _ =>
    some { s with
      fifo := { s.fifo with tail := nextIdx tail s.fifo.cap }
      producer := .storeMetrics m dropped
      pushed := s.pushed + 1 }
  | .storeMetrics m dropped => some { s with fifo := { s.fifo with m }, producer := .reloadMetrics dropped }
  | .reloadMetrics dropped => some { s with producer := .depthHead s.fifo.m dropped }
  | .depthHead m dropped => some { s with producer := .depthTail m dropped s.fifo.head }
  | .depthTail m dropped head =>
    let d := { s.fifo with head }.vtsFifoDepth
    if m.maxDepth < d then some { s with producer := .storeDepth { m with maxDepth := d } dropped }
    else some (s.finishPush dropped)
  | .storeDepth m dropped => some ({ s with fifo := { s.fifo with m } }.finishPush dropped)

/-- The next access of a pop. -/
def stepConsumer (s : SharedFifo) : Option SharedFifo :=
  match s.consumer with
  | .idle => none
  | .loadTail head =>
    if head = s.fifo.tail then some (s.finishPop none) else some { s with consumer := .readSlot head }
  | .readSlot head => (s.fifo.slot head).map fun out => { s with consumer := .clearSlot head out }
  | .clearSlot head out =>
    (s.fifo.setSlot head none).map fun fifo => { s with fifo, consumer := .storeHead head out }
  | .storeHead head out =>
    some { s with fifo := { s.fifo with head := nextIdx head s.fifo.cap }, consumer := .loadMetrics out }
  | .loadMetrics out => some { s with consumer := .storeMetrics out s.fifo.m }
  | .storeMetrics out m => some ({ s with fifo := { s.fifo with m } }.finishPop out)

def step (s : SharedFifo) : Event → Option SharedFifo
  | .push msg =>
    if s.producer = .idle then some { s with producer := .loadHead msg s.fifo.tail } else none
  | .pop => if s.consumer = .idle then some { s with consumer := .loadTail s.fifo.head } else none
  | .producer => s.stepProducer
  | .consumer => s.stepConsumer

def machine : EventMachine SharedFifo Event := ⟨step⟩

end SharedFifo

end ProcessMonitor.Model.Vts
