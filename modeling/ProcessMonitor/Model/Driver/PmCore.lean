import Mathlib.Data.Int.Notation
import ProcessMonitor.Machine.Core.Run
import ProcessMonitor.Machine.Kernel.DelayedWork
import ProcessMonitor.Machine.Posix.CString

/-! # The sampling driver

`cfg_write` switches sampling on and off, `pm_tick` takes a sample and queues itself again, and
`mydrv_exit` ends it all. The flag, the interval, and the work item are updated by these without a
common lock, so each access to one of them is a step of its own and any number of calls of `cfg_write`
can be between two of theirs.
-/

namespace ProcessMonitor.Model.Driver

open Machine Machine.Posix Machine.Kernel

/-- What `pm_tick` does next. -/
inductive Tick
  | readEnabled
  | update
  | requeue
deriving DecidableEq, Repr

/-- What a call of `cfg_write` does next. -/
inductive Phase
  | storeInterval (interval : ℕ)
  | exchange
  | schedule
  | clear
  | cancel
  | done (ret : ℤ)
deriving DecidableEq, Repr

structure CfgCall where
  len : ℕ
  phase : Phase
deriving DecidableEq, Repr

def CfgCall.returned (call : CfgCall) : Bool :=
  match call.phase with
  | .done _ => true
  | _ => false

/-- `isspace` of the kernel -/
def isSpace (c : UInt8) : Bool := (9 ≤ c && c ≤ 13) || c = 32 || c = 160

def isDigit (c : UInt8) : Bool := 48 ≤ c && c ≤ 57

/-- `sscanf(buf, "1 %u", &new_interval)`, with the value it stores if it returns 1. -/
def scanInterval : Bytes → Option ℕ
  | 49 :: rest =>
    match (rest.dropWhile isSpace).takeWhile isDigit with
    | [] => none
    | digits => some (digits.foldl (fun n d => n * 10 + (d.toNat - 48)) 0 % 2 ^ 32)
  | _ => none

/-- `cfg_write` up to its first access to the shared state; `fault` is a failing `copy_from_user`. -/
def cfgWrite (ubuf : Bytes) (fault : Bool) : Phase :=
  if 64 ≤ ubuf.length then .done (-22)
  else if fault then .done (-14)
  else match ubuf with
    | 49 :: _ =>
      match scanInterval (cstr ubuf) with
      | some interval => if 0 < interval then .storeInterval interval else .exchange
      | none => .exchange
    | 48 :: _ => .clear
    | _ => .done ubuf.length

/-- `pm_enabled`, which only holds 0 and 1, `pm_interval_ms`, `pm_work`, and the calls of `cfg_write`,
the finished ones included. -/
structure Sampler where
  pmEnabled : Bool
  pmIntervalMs : ℕ
  pmWork : DelayedWork Tick
  calls : List CfgCall
deriving DecidableEq, Repr

namespace Sampler

def start : Sampler := ⟨false, 500, .idle, []⟩

/-- The calls are named by their place. -/
inductive Event
  | write (ubuf : Bytes) (fault : Bool)
  | advance (call : ℕ)
  | fire
  | tick
deriving DecidableEq, Repr

/-- The next step of `cfg_write`, and what it does after that. -/
def cfgStep (s : Sampler) (call : CfgCall) : Option (Sampler × Phase) :=
  match call.phase with
  | .storeInterval interval => some ({ s with pmIntervalMs := interval }, .exchange)
  | .exchange => some ({ s with pmEnabled := true }, if s.pmEnabled then .done call.len else .schedule)
  | .schedule => some ({ s with pmWork := s.pmWork.schedule }, .done call.len)
  | .clear => some ({ s with pmEnabled := false }, .cancel)
  | .cancel => s.pmWork.cancelSync.map fun work => ({ s with pmWork := work }, .done call.len)
  | .done _ => none

def pmTick (s : Sampler) : Option Sampler :=
  match s.pmWork.running with
  | some .readEnabled =>
    some { s with pmWork.running := if s.pmEnabled then some .update else none }
  | some .update => some { s with pmWork.running := some .requeue }
  | some .requeue => some { s with pmWork := { s.pmWork.schedule with running := none } }
  | none => none

def setPhase (s : Sampler) (i : ℕ) (call : CfgCall) (phase : Phase) : Sampler :=
  { s with calls := s.calls.set i { call with phase } }

def step (s : Sampler) : Event → Option Sampler
  | .write ubuf fault => some { s with calls := s.calls ++ [⟨ubuf.length, cfgWrite ubuf fault⟩] }
  | .advance i => do
    let call ← s.calls[i]?
    (s.cfgStep call).map fun (next, phase) => next.setPhase i call phase
  | .fire => (s.pmWork.fire .readEnabled).map fun work => { s with pmWork := work }
  | .tick => s.pmTick

def machine : EventMachine Sampler Event := ⟨step⟩

end Sampler

/-- How far `mydrv_exit` is: before the return of its cancel, before the return of
`remove_proc_subtree`, or at its end. -/
inductive Exit
  | cancel
  | remove
  | returned
deriving DecidableEq, Repr

structure Module where
  sampler : Sampler
  exit : Exit
deriving DecidableEq, Repr

namespace Module

def start : Module := ⟨.start, .cancel⟩

inductive Event
  | sampler (event : Sampler.Event)
  | exit
deriving DecidableEq, Repr

/-- The next step of `mydrv_exit`. `remove_proc_subtree` waits for the calls of `cfg_write` in progress. -/
def mydrvExit (m : Module) : Option Module :=
  match m.exit with
  | .cancel => m.sampler.pmWork.cancelSync.map fun work => ⟨{ m.sampler with pmWork := work }, .remove⟩
  | .remove =>
    if m.sampler.calls.all CfgCall.returned then some { m with exit := .returned } else none
  | .returned => none

/-- Once the subtree is gone no call of `cfg_write` begins. -/
def step (m : Module) : Event → Option Module
  | .sampler (.write ubuf fault) =>
    if m.exit = .returned then none
    else (m.sampler.step (.write ubuf fault)).map fun next => { m with sampler := next }
  | .sampler event => (m.sampler.step event).map fun next => { m with sampler := next }
  | .exit => m.mydrvExit

def machine : EventMachine Module Event := ⟨step⟩

end Module

end ProcessMonitor.Model.Driver
