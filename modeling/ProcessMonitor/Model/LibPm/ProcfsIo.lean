import ProcessMonitor.Machine.Posix.CString
import ProcessMonitor.Model.LibPm.CircuitBreaker

/-! # Reading and writing the proc files

`read_text_file` and `write_text_file` are one loop around `open`, `poll`, and one transfer, with a
number of exits that each update the statistics and the breaker in their own way. What the system
calls of one pass return is a script entry, `errno` is a variable that only failing calls change, and the
clock readings a call makes are part of its script.
-/

namespace ProcessMonitor.Model.LibPm

set_option linter.dupNamespace false

open Machine Machine.Posix

inductive Errno
  | eagain
  | eintr
  | emfile
  | other (code : ℕ)
deriving DecidableEq, Repr

inductive PmRc
  | ok
  | again
  | timeout
  | ioerr
deriving DecidableEq, Repr

inductive PmNode
  | cpu
  | mem
  | inf
deriving DecidableEq, Repr

inductive PmFile
  | config
  | status
  | data
deriving DecidableEq, Repr

structure PmCfg where
  root : Option Bytes
  timeoutMs : UInt32
  backoffInitUs : UInt32
  backoffMaxUs : UInt32
  breakerFailN : UInt32
  breakerHalfMs : UInt32
deriving DecidableEq, Repr

structure PmStats where
  ioOk : ℕ
  ioRetry : ℕ
  ioTimeout : ℕ
  ioErr : ℕ
  breakerTrips : ℕ
deriving DecidableEq, Repr

/-! ## Backoff -/

structure PmBackoff where
  curUs : ℕ
  maxUs : ℕ
deriving DecidableEq, Repr

def pmBackoffInit (initUs maxUs : UInt32) : PmBackoff :=
  ⟨if initUs = 0 then 100 else initUs.toNat, if maxUs = 0 then 20000 else maxUs.toNat⟩

/-- The delay to sleep, and the next state: doubled, up to the maximum. -/
def pmBackoffNext (b : PmBackoff) : ℕ × PmBackoff :=
  (b.curUs, { b with curUs := if b.maxUs < u64 (b.curUs * 2) then b.maxUs else u32 (u64 (b.curUs * 2)) })

/-! ## The library -/

/-- `g_cfg`, `g_stats`, `g_cb`, and `errno`. -/
structure LibPm where
  gCfg : PmCfg
  gStats : PmStats
  gCb : PmBreaker
  errno : Errno
deriving DecidableEq, Repr

/-- The initial value of `g_cfg`. -/
def defaultCfg : PmCfg := ⟨some (literal "/proc/pm"), 200, 200, 20000, 8, 200⟩

def zeroStats : PmStats := ⟨0, 0, 0, 0, 0⟩

/-- The static variables as they are before any call of `pm_init`. -/
def loaded : LibPm := ⟨defaultCfg, zeroStats, ⟨0, 0, 0, ⟨0, 0⟩, false⟩, .other 0⟩

/-- The state after `pm_init` as the first call of the library. -/
def pmInit (opt : Option PmCfg) : LibPm :=
  let cfg := opt.getD defaultCfg
  ⟨cfg, zeroStats, pmBreakerInit cfg.breakerFailN cfg.breakerHalfMs, .other 0⟩

/-- `pm_init` at any later time; without options the configuration stays. -/
def pmInitAgain (lib : LibPm) (opt : Option PmCfg) : LibPm :=
  let cfg := opt.getD lib.gCfg
  ⟨cfg, zeroStats, pmBreakerInit cfg.breakerFailN cfg.breakerHalfMs, lib.errno⟩

def pmResetStats (lib : LibPm) : LibPm := { lib with gStats := zeroStats }

def nodeDir : PmNode → Bytes
  | .cpu => literal "cpu"
  | .mem => literal "mem"
  | .inf => literal "inf"

def buildPath (lib : LibPm) (node : PmNode) (file : PmFile) : Bytes :=
  let f := match file with
    | .config => literal "config"
    | .status => literal "status"
    | .data => literal "data"
  (snprintf 256 (lib.gCfg.root.getD (literal "/proc/pm") ++ literal "/" ++ nodeDir node ++ literal "/" ++ f)).1

inductive PollResult
  | ready
  | timeout
  | fault (e : Errno)
deriving DecidableEq, Repr

/-- What the system calls of one pass through the loop return: an error or nothing from `open`, `close`, and
`usleep`, and an error or a count from `read` or `write`. `check` is the clock at the test of the
timeout, and `ends` the clock when the pass has ended. -/
structure Pass where
  openErr : Option Errno
  poll : PollResult
  io : Except Errno ℕ
  closeErr : Option Errno
  sleepErr : Option Errno
  check : Instant
  ends : Instant

/-- Where a pass leaves the loop, or that it goes to `retry`. -/
inductive Verdict
  | openError
  | pollTimeout
  | pollError
  | ioError
  | success (n : ℕ)
  | retry
deriving DecidableEq, Repr

/-- One pass up to `retry`, with the value it leaves in `errno`. A count that is not `complete` is judged by
the `errno` it finds, which no call of this pass may have set. -/
def Pass.verdict (pass : Pass) (requested : ℕ) (complete : ℕ → Bool) (errno : Errno) : Verdict × Errno :=
  match pass.openErr with
  | some e => (if e = .eagain ∨ e = .emfile then .retry else .openError, e)
  | none =>
    match pass.poll with
    | .timeout => (.pollTimeout, pass.closeErr.getD errno)
    | .fault e => (if e = .eintr then .retry else .pollError, pass.closeErr.getD e)
    | .ready =>
      match pass.io with
      | .ok n =>
        (if complete (min n requested) then .success (min n requested)
          else if errno = .eagain ∨ errno = .eintr then .retry else .ioError, pass.closeErr.getD errno)
      | .error e => (if e = .eagain ∨ e = .eintr then .retry else .ioError, pass.closeErr.getD e)

/-- What a call returns and leaves: the paths it opened, the outcomes it recorded with the breaker, the
delays it slept, and the clock at its end. -/
structure Outcome where
  rc : PmRc
  count : Option ℕ
  lib : LibPm
  opened : List Bytes
  recorded : List (Instant × Bool)
  slept : List ℕ
  ends : Instant

/-- `pm_breaker_record(&g_cb, ok); return rc;` at the end of a pass. -/
def LibPm.leave (lib : LibPm) (path : Bytes) (pass : Pass) (rc : PmRc) (ok : Bool) : Outcome :=
  { rc
    count := none
    lib := { lib with gCb := pmBreakerRecord lib.gCb pass.ends ok }
    opened := [path]
    recorded := [(pass.ends, ok)]
    slept := []
    ends := pass.ends }

/-- The loop of `read_text_file` and `write_text_file`; a script that ends before the call does gives
nothing. -/
def retryLoop (path : Bytes) (requested : ℕ) (complete : ℕ → Bool) (t0 : ℕ) :
    LibPm → PmBackoff → List Pass → Option Outcome
  | _, _, [] => none
  | lib, bo, pass :: passes =>
    let (verdict, errno) := pass.verdict requested complete lib.errno
    let lib := { lib with errno }
    match verdict with
    -- `return PM_IOERR` with neither a count nor a record
    | .openError => some ⟨.ioerr, none, lib, [path], [], [], pass.ends⟩
    | .pollTimeout => some ({ lib with gStats.ioTimeout := lib.gStats.ioTimeout + 1 }.leave path pass .timeout false)
    | .pollError => some (lib.leave path pass .ioerr false)
    | .ioError => some ({ lib with gStats.ioErr := lib.gStats.ioErr + 1 }.leave path pass .ioerr false)
    | .success n =>
      some { { lib with gStats.ioOk := lib.gStats.ioOk + 1 }.leave path pass .ok true with count := some n }
    | .retry =>
      let lib := { lib with gStats.ioRetry := lib.gStats.ioRetry + 1 }
      if lib.gCfg.timeoutMs.toNat ≤ u64 (nowMs pass.check.toTimespec + 2 ^ 64 - t0) then
        some ({ lib with gStats.ioTimeout := lib.gStats.ioTimeout + 1 }.leave path pass .timeout false)
      else
        let (delay, bo) := pmBackoffNext bo
        (retryLoop path requested complete t0 { lib with errno := pass.sleepErr.getD errno } bo passes).map fun o =>
          { o with opened := path :: o.opened, slept := delay :: o.slept }

/-- The clock when a call looks at the breaker, when it starts its loop, and the passes of the loop. -/
structure Script where
  enter : Instant
  start : Instant
  passes : List Pass

/-- `read_text_file` and `write_text_file` but for what they ask for. -/
def textFile (lib : LibPm) (path : Bytes) (requested : ℕ) (complete : ℕ → Bool) (script : Script) : Option Outcome :=
  let (gCb, allowed) := pmBreakerAllow lib.gCb script.enter
  let lib := { lib with gCb }
  if allowed = false then
    some ⟨.again, none, { lib with gStats.breakerTrips := lib.gStats.breakerTrips + 1 }, [], [], [], script.enter⟩
  else
    retryLoop path requested complete (nowMs script.start.toTimespec) lib
      (pmBackoffInit lib.gCfg.backoffInitUs lib.gCfg.backoffMaxUs) script.passes

section TextFile

variable {lib : LibPm} {script : Script}

theorem textFile_of_denied (denied : (pmBreakerAllow lib.gCb script.enter).2 = false) (path : Bytes) (requested : ℕ)
    (complete : ℕ → Bool) :
    textFile lib path requested complete script =
      some ⟨.again, none,
        { lib with
          gCb := (pmBreakerAllow lib.gCb script.enter).1
          gStats.breakerTrips := lib.gStats.breakerTrips + 1 }, [], [], [], script.enter⟩ := by
  rw [textFile]
  generalize pmBreakerAllow lib.gCb script.enter = answer at denied ⊢
  obtain ⟨cb, allowed⟩ := answer
  cases denied
  rfl

theorem textFile_of_allowed (admitted : (pmBreakerAllow lib.gCb script.enter).2 = true) (path : Bytes) (requested : ℕ)
    (complete : ℕ → Bool) :
    textFile lib path requested complete script =
      retryLoop path requested complete (nowMs script.start.toTimespec)
        { lib with gCb := (pmBreakerAllow lib.gCb script.enter).1 }
        (pmBackoffInit lib.gCfg.backoffInitUs lib.gCfg.backoffMaxUs) script.passes := by
  rw [textFile]
  generalize pmBreakerAllow lib.gCb script.enter = answer at admitted ⊢
  obtain ⟨cb, allowed⟩ := answer
  cases admitted
  rfl

end TextFile

/-- Any count is success: `n >= 0`. -/
def readTextFile (lib : LibPm) (path : Bytes) (buflen : ℕ) (script : Script) : Option Outcome :=
  textFile lib path (if buflen = 0 then 0 else buflen - 1) (fun _ => true) script

/-- Only the whole length is success: `n == (ssize_t)len`. -/
def writeTextFile (lib : LibPm) (path : Bytes) (len : UInt32) (script : Script) : Option Outcome :=
  textFile lib path len.toNat (fun n => n = len.toNat) script

inductive Call
  | readStatus (node : PmNode) (buflen : ℕ)
  | readData (node : PmNode) (buflen : ℕ)
  | setConfig (node : PmNode) (payloadLen : UInt32)
deriving DecidableEq, Repr

/-- `pm_read_status`, `pm_read_data`, and `pm_set_config`. -/
def Call.exec (lib : LibPm) (script : Script) : Call → Option Outcome
  | .readStatus node buflen => readTextFile lib (buildPath lib node .status) buflen script
  | .readData node buflen => readTextFile lib (buildPath lib node .data) buflen script
  | .setConfig node payloadLen => writeTextFile lib (buildPath lib node .config) payloadLen script

end ProcessMonitor.Model.LibPm
