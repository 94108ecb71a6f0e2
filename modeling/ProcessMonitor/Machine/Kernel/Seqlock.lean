import Mathlib.Algebra.Group.Nat.Defs
import Mathlib.Data.Nat.Basic

/-! # Sequence locks

A writer section makes the sequence number odd and, at its end, even again; a lock keeps sections
apart. A reader waits for an even number, reads, and starts over when the number has changed. The
counter is a 32-bit word, which changes no parity when it wraps.
-/

namespace ProcessMonitor.Machine.Kernel

/-- The number is odd exactly while a writer section is in progress. -/
structure Seqlock where
  sequence : ℕ
  held : Bool
  parity : sequence % 2 = if held then 1 else 0

namespace Seqlock

/-- `seqlock_init` -/
def init : Seqlock := ⟨0, false, rfl⟩

/-- `write_seqlock`, once no other section is in progress. -/
def writeBegin (l : Seqlock) : Option Seqlock :=
  if free : l.held = false then
    some ⟨(l.sequence + 1) % 2 ^ 32, true, by have := l.parity; rw [if_neg (by simp [free])] at this; simp; omega⟩
  else none

/-- `write_sequnlock` -/
def writeEnd (l : Seqlock) : Option Seqlock :=
  if inside : l.held = true then
    some ⟨(l.sequence + 1) % 2 ^ 32, false, by have := l.parity; rw [if_pos inside] at this; simp; omega⟩
  else none

/-- `read_seqbegin` returning; while the number is odd it does not. -/
def readBegin (l : Seqlock) : Option ℕ := if l.sequence % 2 = 0 then some l.sequence else none

/-- `read_seqretry` -/
def readRetry (l : Seqlock) (seq : ℕ) : Bool := l.sequence ≠ seq

theorem held_of_writeBegin {l next : Seqlock} (began : l.writeBegin = some next) : next.held = true := by
  rw [writeBegin] at began
  split_ifs at began
  cases began
  rfl

/-- A reader starts outside every writer section. -/
theorem free_of_readBegin {l : Seqlock} {seq : ℕ} (began : l.readBegin = some seq) :
    l.held = false ∧ l.sequence = seq := by
  obtain ⟨even, same⟩ := Option.ite_none_right_eq_some.mp began
  have parity := l.parity
  cases same
  cases held : l.held with
  | false => exact ⟨rfl, rfl⟩
  | true =>
    rw [held, if_pos rfl] at parity
    omega

end Seqlock

end ProcessMonitor.Machine.Kernel
