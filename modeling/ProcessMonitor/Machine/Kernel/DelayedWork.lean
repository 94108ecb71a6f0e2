import Mathlib.Data.Option.Basic

/-! # Delayed work items

A work item is queued or not, and its function runs in at most one thread at a time; it leaves the
queue when it starts, so that it can queue itself again while it runs. Queueing an item that is queued
changes nothing. The synchronous cancel returns when the function is not running, with the item off
the queue, whoever put it there last.
-/

namespace ProcessMonitor.Machine.Kernel

/-- `running` is where the function stands, if it is running. -/
structure DelayedWork (φ : Type*) where
  pending : Bool
  running : Option φ
deriving DecidableEq, Repr

namespace DelayedWork

variable {φ : Type*}

def idle : DelayedWork φ := ⟨false, none⟩

/-- `schedule_delayed_work` -/
def schedule (w : DelayedWork φ) : DelayedWork φ := { w with pending := true }

/-- The timer has run out and a thread starts the function. -/
def fire (w : DelayedWork φ) (entry : φ) : Option (DelayedWork φ) :=
  if w.pending = true ∧ w.running = none then some ⟨false, some entry⟩ else none

/-- `cancel_delayed_work_sync` returning; while the function runs it does not. -/
def cancelSync (w : DelayedWork φ) : Option (DelayedWork φ) :=
  if w.running = none then some ⟨false, none⟩ else none

/-- The function will run again or is running. -/
def Alive (w : DelayedWork φ) : Prop := w.pending = true ∨ w.running ≠ none

theorem alive_schedule (w : DelayedWork φ) : w.schedule.Alive := .inl rfl

theorem alive_fire {w next : DelayedWork φ} {entry : φ} (fired : w.fire entry = some next) : next.Alive := by
  obtain ⟨-, success⟩ := Option.ite_none_right_eq_some.mp fired
  cases success
  exact .inr nofun

theorem cancelSync_eq_some {w next : DelayedWork φ} (cancelled : w.cancelSync = some next) : next = idle := by
  obtain ⟨-, success⟩ := Option.ite_none_right_eq_some.mp cancelled
  cases success
  rfl

theorem not_alive_idle : ¬ (idle : DelayedWork φ).Alive := by rintro (queued | running) <;> trivial

end DelayedWork

end ProcessMonitor.Machine.Kernel
