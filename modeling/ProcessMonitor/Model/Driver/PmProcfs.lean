import ProcessMonitor.Machine.Core.Run
import ProcessMonitor.Machine.Kernel.Seqlock
import ProcessMonitor.Machine.Posix.CString

/-! # The status file of the driver

`stat_show` prints one line for each online CPU and one for the settings, while `pm_update_fake` writes
new samples under a sequence lock. One execution of `stat_show` is interleaved, access by access, with
writer sections and with writes to the settings.
-/

namespace ProcessMonitor.Model.Driver

open Machine Machine.Posix Machine.Kernel

/-- `struct pm_cpu_snap` -/
structure PmCpuSnap where
  usage : ℕ
  ts : ℕ
deriving DecidableEq, Repr

/-- Where `pm_update_fake` stands: the CPUs left to write, and whether the next store is the time stamp of
one of them. -/
inductive Writer
  | idle
  | usage (left : List ℕ)
  | ts (cpu : ℕ) (left : List ℕ)
deriving DecidableEq, Repr

/-- Where `stat_show` stands; `usage seq []` is before `read_seqretry`. -/
inductive Reader
  | begin
  | usage (seq : ℕ) (left : List ℕ)
  | ts (seq : ℕ) (cpu : ℕ) (usage : ℕ) (left : List ℕ)
  | tail
  | done
deriving DecidableEq, Repr

/-- `online` are the CPUs of `for_each_online_cpu`. For the record, `settled` are the contents that the
buffers have had between writer sections. -/
structure StatusFile where
  online : List ℕ
  pmSeq : Seqlock
  pmCpuBuf : ℕ → PmCpuSnap
  pmEnabled : Bool
  pmIntervalMs : ℕ
  writer : Writer
  reader : Reader
  text : Bytes
  settled : List (ℕ → PmCpuSnap)

/-- `"cpu%u.usage=%llu ts=%llu\n"` -/
def cpuLine (cpu : ℕ) (snap : PmCpuSnap) : Bytes :=
  literal "cpu" ++ decimal cpu ++ literal ".usage=" ++ decimal snap.usage ++ literal " ts=" ++ decimal snap.ts ++
    literal "\n"

/-- `"enabled=%d interval_ms=%u\n"` -/
def settingsLine (enabled : Bool) (interval : ℕ) : Bytes :=
  literal "enabled=" ++ decimal enabled.toNat ++ literal " interval_ms=" ++ decimal interval ++ literal "\n"

namespace StatusFile

def start (online : List ℕ) : StatusFile :=
  ⟨online, .init, fun _ => ⟨0, 0⟩, false, 500, .idle, .begin, [], [fun _ => ⟨0, 0⟩]⟩

/-- `update` is the `write_seqlock` of a writer section, `write` its next step, with the random number or
the time it stores, `config` a write to the settings, and `read` the next step of `stat_show`. -/
inductive Event
  | update
  | write (value : ℕ)
  | config (enabled : Bool) (interval : ℕ)
  | read
deriving DecidableEq, Repr

def pmUpdateFake (s : StatusFile) (value : ℕ) : Option StatusFile :=
  match s.writer with
  | .usage (cpu :: left) =>
    some { s with
      pmCpuBuf := Function.update s.pmCpuBuf cpu { s.pmCpuBuf cpu with usage := value % 2 ^ 32 % 100 }
      writer := .ts cpu left }
  | .ts cpu left =>
    some { s with
      pmCpuBuf := Function.update s.pmCpuBuf cpu { s.pmCpuBuf cpu with ts := value % 2 ^ 64 }
      writer := .usage left }
  | .usage [] =>
    s.pmSeq.writeEnd.map fun lock =>
      { s with pmSeq := lock, writer := .idle, settled := s.settled ++ [s.pmCpuBuf] }
  | .idle => none

def statShow (s : StatusFile) : Option StatusFile :=
  match s.reader with
  | .begin => s.pmSeq.readBegin.map fun seq => { s with reader := .usage seq s.online }
  | .usage seq (cpu :: left) => some { s with reader := .ts seq cpu (s.pmCpuBuf cpu).usage left }
  | .ts seq cpu usage left =>
    some { s with text := s.text ++ cpuLine cpu ⟨usage, (s.pmCpuBuf cpu).ts⟩, reader := .usage seq left }
  | .usage seq [] => some { s with reader := if s.pmSeq.readRetry seq then .begin else .tail }
  | .tail => some { s with text := s.text ++ settingsLine s.pmEnabled s.pmIntervalMs, reader := .done }
  | .done => none

def step (s : StatusFile) : Event → Option StatusFile
  | .update => s.pmSeq.writeBegin.map fun lock => { s with pmSeq := lock, writer := .usage s.online }
  | .write value => s.pmUpdateFake value
  | .config enabled interval => some { s with pmEnabled := enabled, pmIntervalMs := interval }
  | .read => s.statShow

def machine : EventMachine StatusFile Event := ⟨step⟩

end StatusFile

end ProcessMonitor.Model.Driver
