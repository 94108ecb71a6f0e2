import ProcessMonitor.Machine.Core.Run
import ProcessMonitor.Machine.Posix.Word
import Mathlib.Data.Int.Notation

/-! # The ring FIFO, one call at a time

`fifo.c` called by one thread. Every access to a slot is checked against the allocated buffer: reading
or writing outside it, or after `vts_fifo_free`, has no result here. A message is a `strdup`ed string
together with the number of its allocation, so that the same text pushed twice is two messages, and
`free` reports what it frees. Calls that are in a history return their results there.
-/

namespace ProcessMonitor.Model.Vts

open Machine Machine.Posix

structure Message where
  number : ℕ
  text : Bytes
deriving DecidableEq, Repr

/-- `vts_fifo_metrics_t` -/
structure FifoMetrics where
  pushes : ℕ
  pops : ℕ
  drops : ℕ
  maxDepth : ℕ
deriving DecidableEq, Repr

/-- `vts_fifo_t`; a null `buf` is `none`, a null slot is `none` inside it. -/
structure Fifo where
  cap : ℕ
  head : ℕ
  tail : ℕ
  buf : Option (List (Option Message))
  m : FifoMetrics
deriving DecidableEq, Repr

def nextIdx (i cap : ℕ) : ℕ := if i + 1 = cap then 0 else i + 1

/-- `vts_fifo_init`; `calloc` gives null slots, or nothing. -/
def vtsFifoInit (cap : ℕ) (allocated : Bool) : Fifo × ℤ :=
  if allocated then (⟨cap, 0, 0, some (List.replicate cap none), ⟨0, 0, 0, 0⟩⟩, 0)
  else (⟨cap, 0, 0, none, ⟨0, 0, 0, 0⟩⟩, -1)

namespace Fifo

def slot (q : Fifo) (i : ℕ) : Option (Option Message) := q.buf.bind fun slots => slots[i]?

def setSlot (q : Fifo) (i : ℕ) (v : Option Message) : Option Fifo :=
  q.buf.bind fun slots => if i < slots.length then some { q with buf := some (slots.set i v) } else none

theorem slot_eq {q : Fifo} {slots : List (Option Message)} (buf : q.buf = some slots) (i : ℕ) :
    q.slot i = slots[i]? := by
  rw [slot, buf, Option.bind_some]

theorem setSlot_eq {q : Fifo} {slots : List (Option Message)} (buf : q.buf = some slots) {i : ℕ}
    (bound : i < slots.length) (v : Option Message) :
    q.setSlot i v = some { q with buf := some (slots.set i v) } := by
  rw [setSlot, buf, Option.bind_some, if_pos bound]

theorem setSlot_inv {q written : Fifo} {i : ℕ} {v : Option Message} (wrote : q.setSlot i v = some written) :
    ∃ slots, q.buf = some slots ∧ i < slots.length ∧ written = { q with buf := some (slots.set i v) } := by
  obtain ⟨slots, buf, inside⟩ := Option.bind_eq_some_iff.mp wrote
  obtain ⟨bound, same⟩ := Option.ite_none_right_eq_some.mp inside
  cases same
  exact ⟨slots, buf, bound, rfl⟩

theorem setSlot_eq_some {q written : Fifo} {i : ℕ} {v : Option Message} (wrote : q.setSlot i v = some written) :
    ∃ slots, written = { q with buf := some slots } := by
  obtain ⟨slots, -, -, same⟩ := setSlot_inv wrote
  exact ⟨_, same⟩

theorem setSlot_cap {q written : Fifo} {i : ℕ} {v : Option Message} (wrote : q.setSlot i v = some written) :
    written.cap = q.cap := by
  obtain ⟨slots, rfl⟩ := setSlot_eq_some wrote
  rfl

def vtsFifoDepth (q : Fifo) : ℕ := if q.head ≤ q.tail then q.tail - q.head else q.cap - (q.head - q.tail)

def metricsUpdateDepth (q : Fifo) : Fifo :=
  let m := q.m
  let d := q.vtsFifoDepth
  if m.maxDepth < d then { q with m := { m with maxDepth := d } } else q

theorem metricsUpdateDepth_eq (q : Fifo) :
    q.metricsUpdateDepth = { q with m := { q.m with maxDepth := max q.m.maxDepth q.vtsFifoDepth } } := by
  rw [metricsUpdateDepth]
  dsimp only
  split
  · next deeper => rw [Nat.max_eq_right (Nat.le_of_lt deeper)]
  · next shallower => rw [Nat.max_eq_left (Nat.le_of_not_lt shallower)]

/-- A push that finds the FIFO full and a pop take the oldest message out in the same way: its slot is
read and cleared, and `head` is stored. -/
def takeHead (q : Fifo) (head : ℕ) : Option (Fifo × Option Message) := do
  let old ← q.slot head
  let q ← q.setSlot head none
  some ({ q with head := nextIdx head q.cap }, old)

theorem takeHead_m {q next : Fifo} {head : ℕ} {old : Option Message} (took : q.takeHead head = some (next, old)) :
    next.m = q.m := by
  obtain ⟨cell, -, took⟩ := Option.bind_eq_some_iff.mp took
  obtain ⟨cleared, wrote, same⟩ := Option.bind_eq_some_iff.mp took
  obtain ⟨slots, rfl⟩ := setSlot_eq_some wrote
  cases same
  rfl

/-- `q->buf[tail] = dup;` and the store of `tail`. -/
def putAt (q : Fifo) (tail nxt : ℕ) (dup : Message) : Option Fifo := do
  let q ← q.setSlot tail (some dup)
  some { q with tail := nxt }

/-- A new FIFO, the result of the call, and the message it freed; freeing a null slot frees nothing. The
statements `m.drops;` and `m.pushes;` compute nothing, so the metrics loaded at the start are stored
back unchanged. -/
def vtsFifoPushSpsc (q : Fifo) (msg : Option Bytes) (number : ℕ) : Option (Fifo × ℤ × Option Message) := do
  let tail := q.tail
  let head := q.head
  let nxt := nextIdx tail q.cap
  let m := q.m
  let dup : Message := ⟨number, msg.getD []⟩
  if nxt = head then
    let (q, old) ← q.takeHead head
    let q ← q.putAt tail nxt dup
    some ({ q with m }.metricsUpdateDepth, 0, old)
  else
    let q ← q.putAt tail nxt dup
    some ({ q with m }.metricsUpdateDepth, 1, none)

/-- A push stores its message in what is left of the ring once there is room for it. -/
theorem push_eq_some {q next : Fifo} {msg : Option Bytes} {number : ℕ} {ret : ℤ} {old : Option Message}
    (pushed : q.vtsFifoPushSpsc msg number = some (next, ret, old)) :
    ∃ rest stored : Fifo,
      (nextIdx q.tail q.cap = q.head ∧ q.takeHead q.head = some (rest, old) ∧ ret = 0 ∨
        nextIdx q.tail q.cap ≠ q.head ∧ rest = q ∧ old = none ∧ ret = 1) ∧
      rest.putAt q.tail (nextIdx q.tail q.cap) ⟨number, msg.getD []⟩ = some stored ∧
      next = { stored with m := { q.m with maxDepth := max q.m.maxDepth stored.vtsFifoDepth } } := by
  simp only [vtsFifoPushSpsc, metricsUpdateDepth_eq] at pushed
  split at pushed
  · next full =>
    obtain ⟨⟨rest, taken⟩, took, pushed⟩ := Option.bind_eq_some_iff.mp pushed
    obtain ⟨stored, put, same⟩ := Option.bind_eq_some_iff.mp pushed
    cases same
    exact ⟨rest, stored, .inl ⟨full, took, rfl⟩, put, rfl⟩
  · next free =>
    obtain ⟨stored, put, same⟩ := Option.bind_eq_some_iff.mp pushed
    cases same
    exact ⟨q, stored, .inr ⟨free, rfl, rfl, rfl⟩, put, rfl⟩

/-- A null result is an empty FIFO, or a null slot; `m.pops;` computes nothing either. -/
def vtsFifoPopSpsc (q : Fifo) : Option (Fifo × Option Message) :=
  if q.head = q.tail then some (q, none) else q.takeHead q.head

/-- The loop of `vts_fifo_free`, with the messages it frees. -/
def freeSlots (cap t : ℕ) : ℕ → ℕ → List (Option Message) → Option (List Message)
  | 0, h, _ => if h = t then some [] else none
  | fuel + 1, h, slots =>
    if h = t then some []
    else do
      let old ← slots[h]?
      let freed ← freeSlots cap t fuel (nextIdx h cap) (slots.set h none)
      some (old.toList ++ freed)

/-- `cap` rounds reach `tail` from any `head`, if both are slots. -/
def vtsFifoFree (q : Fifo) : Option (Fifo × List Message) :=
  match q.buf with
  | none => some (q, [])
  | some slots => (freeSlots q.cap q.tail q.cap q.head slots).map fun freed => ({ q with buf := none }, freed)

end Fifo

inductive FifoCall
  | push (msg : Option Bytes)
  | pop
  | depth
deriving DecidableEq, Repr

def FifoCall.isPush : FifoCall → Bool
  | .push _ => true
  | .pop | .depth => false

inductive FifoResult
  | pushed (ret : ℤ)
  | popped (out : Option Message)
  | depth (n : ℕ)
deriving DecidableEq, Repr

/-- A FIFO with the calls made on it so far: the number of allocations, what they returned, and what
the pushes freed. -/
structure FifoHistory where
  fifo : Fifo
  allocations : ℕ
  results : List FifoResult
  freed : List Message
deriving DecidableEq, Repr

namespace FifoHistory

def start (cap : ℕ) : FifoHistory := ⟨(vtsFifoInit cap true).1, 0, [], []⟩

def call (s : FifoHistory) : FifoCall → Option FifoHistory
  | .push msg => do
    let (fifo, ret, old) ← s.fifo.vtsFifoPushSpsc msg s.allocations
    some ⟨fifo, s.allocations + 1, s.results ++ [.pushed ret], s.freed ++ old.toList⟩
  | .pop => do
    let (fifo, out) ← s.fifo.vtsFifoPopSpsc
    some { s with fifo, results := s.results ++ [.popped out] }
  | .depth => some { s with results := s.results ++ [.depth s.fifo.vtsFifoDepth] }

def machine : EventMachine FifoHistory FifoCall := ⟨call⟩

end FifoHistory

end ProcessMonitor.Model.Vts
