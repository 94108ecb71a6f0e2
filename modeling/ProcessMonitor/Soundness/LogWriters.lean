import ProcessMonitor.Soundness.LogRotation

/-! # Two writers on one log

The stream of `log_write_req_result` stays on the file it was opened on. So its records go to the file that is
named `logs/vts.log` only until the first rotation after that, and since it never looks at the size, the
file grows past the limit with every record until the other writer comes. Whether this happens is a matter of the
calls and of the sizes of their records: `Account` goes through them without any files.
-/

namespace ProcessMonitor.Soundness.LogWriters

open Machine Machine.Posix Model.Vts LogRotation

/-- One call: its record, the file it was appended to, the file that had the name `LOG0` then, and the size
of the file that has it after the call. -/
structure Appended where
  record : Bytes
  file : ℕ
  named : Option ℕ
  size : ℕ
deriving DecidableEq, Repr

/-- The log, and the calls so far. -/
structure WriterRun where
  log : VtsLog
  calls : List Appended

namespace WriterRun

def start (maxb : ℕ) (files : Files LogName) : WriterRun := ⟨.start maxb files, []⟩

def record : VtsLog.Event → Bytes
  | .write record => record
  | .reqResult ts reqId success => VtsLog.resultText ts reqId success

/-- The log when the writer has its stream, and the file of the stream. -/
def opened (log : VtsLog) : VtsLog.Event → VtsLog × ℕ
  | .write _ => log.ensureOpen
  | .reqResult .. => log.ensureLogOpen

def appended (log next : VtsLog) (event : VtsLog.Event) : Appended where
  record := record event
  file := (opened log event).2
  named := (opened log event).1.files.dir .log0
  size := (current next.files).length

def step (s : WriterRun) (event : VtsLog.Event) : Option WriterRun :=
  (VtsLog.machine.step s.log event).map fun next => ⟨next, s.calls ++ [appended s.log next event]⟩

def machine : EventMachine WriterRun VtsLog.Event := ⟨step⟩

end WriterRun

/-- The record went to the log by its name, and the log is too large by at most this record. -/
def Respected (maxb : ℕ) (call : Appended) : Prop :=
  call.named = some call.file ∧ call.size ≤ maxb + call.record.length

instance (maxb : ℕ) : DecidablePred (Respected maxb) := fun call =>
  inferInstanceAs (Decidable (call.named = some call.file ∧ _))

/-- What the calls so far come to: the bytes written since the last rotation, whether `log_write_req_result` has been
called, and whether `vts_log_write` has rotated the files since the first such call. -/
structure Account where
  size : ℕ
  begun : Bool
  rotated : Bool
deriving DecidableEq, Repr

namespace Account

/-- A log of this size that `log_write_req_result` has not opened yet. -/
def start (size : ℕ) : Account := ⟨size, false, false⟩

/-- `vts_log_write` rotates when its record makes the log larger than `maxb`. -/
def after (maxb : ℕ) (a : Account) : VtsLog.Event → Account
  | .write record =>
    if a.size + record.length ≤ maxb then { a with size := a.size + record.length }
    else ⟨0, a.begun, a.begun⟩
  | .reqResult ts reqId success =>
    { a with size := a.size + (VtsLog.resultText ts reqId success).length, begun := true }

def machine (maxb : ℕ) : EventMachine Account VtsLog.Event := ⟨fun a event => some (a.after maxb event)⟩

/-- `log_write_req_result` is called before any rotation since its first call, and while at most `maxb` bytes have been
written since the last rotation. -/
def InTime (maxb : ℕ) (a : Account) : VtsLog.Event → Prop
  | .write _ => True
  | .reqResult .. => a.rotated = false ∧ a.size ≤ maxb

instance (maxb : ℕ) (a : Account) : DecidablePred (InTime maxb a)
  | .write _ => .isTrue trivial
  | .reqResult .. => inferInstanceAs (Decidable (_ ∧ _))

end Account

/-- The account is right about the files, and `fp` is open on the log if at all. -/
structure Counts (maxb : ℕ) (s : WriterRun) (a : Account) : Prop where
  maxb : s.log.maxb = maxb
  tied : s.log.Tied
  size : (current s.log.files).length = a.size
  begun : s.log.gLogf.isSome = a.begun
  older : ∀ file ∈ s.log.gLogf, file < s.log.files.next
  unmoved : a.rotated = false ↔ ∀ file ∈ s.log.gLogf, s.log.files.dir .log0 = some file

theorem counts_start (maxb : ℕ) (files : Files LogName) :
    Counts maxb (.start maxb files) (.start (current files).length) where
  maxb := rfl
  tied _ isOpen := by cases isOpen
  size := rfl
  begun := rfl
  older _ isOpen := by cases isOpen
  unmoved := iff_of_true rfl fun _ isOpen => by cases isOpen

theorem Counts.write {maxb : ℕ} {s : WriterRun} {a : Account} (counts : Counts maxb s a) (record : Bytes)
    (calls : List Appended) : Counts maxb ⟨s.log.vtsLogWrite record, calls⟩ (a.after maxb (.write record)) := by
  have written := VtsLog.vtsLogWrite_written counts.tied record
  have sum : ((s.log.files.read .log0).getD [] ++ record).length = a.size + record.length := by
    rw [List.length_append, ← counts.size]
    rfl
  have total := written.current
  have stream := s.log.vtsLogWrite_gLogf record
  rw [sum, counts.maxb] at total
  have named {file : ℕ} (isOpen : file ∈ s.log.gLogf) :
      (s.log.vtsLogWrite record).files.dir .log0 = some file ↔
        s.log.files.dir .log0 = some file ∧ a.size + record.length ≤ maxb := by
    rw [← sum, ← counts.maxb]
    exact (VtsLog.vtsLogWrite_named counts.tied record (counts.older file isOpen)).1
  have older : ∀ file ∈ (s.log.vtsLogWrite record).gLogf, file < (s.log.vtsLogWrite record).files.next := by
    rw [stream]
    intro file isOpen
    have before := counts.older file isOpen
    exact Nat.lt_of_lt_of_le before (VtsLog.vtsLogWrite_named counts.tied record before).2
  rw [Account.after]
  split
  next under =>
    rw [if_neg (Nat.not_lt_of_le under)] at total
    refine ⟨written.maxb.trans counts.maxb, written.tied, ?_, ?_, older, ?_⟩
    · rw [current, total, Option.getD_some, sum]
    · rw [stream]
      exact counts.begun
    · rw [counts.unmoved, stream]
      exact forall₂_congr fun file isOpen => ((named isOpen).trans (and_iff_left under)).symm
  next larger =>
    rw [if_pos (Nat.lt_of_not_le larger)] at total
    refine ⟨written.maxb.trans counts.maxb, written.tied, ?_, ?_, older, ?_⟩
    · rw [current, total]
      rfl
    · rw [stream]
      exact counts.begun
    · rw [← counts.begun, stream]
      cases isOpen : s.log.gLogf with
      | none => exact iff_of_true rfl fun file impossible => by cases impossible
      | some file =>
        refine iff_of_false Bool.noConfusion fun all => ?_
        exact larger ((named isOpen).mp (all file rfl)).2

theorem Counts.reqResult {maxb : ℕ} {s : WriterRun} {a : Account} (counts : Counts maxb s a) (ts : Bytes)
    (reqId : Option Bytes) (success : ℤ) (unmoved : a.rotated = false) (calls : List Appended) :
    Counts maxb ⟨s.log.logWriteReqResult ts reqId success, calls⟩ (a.after maxb (.reqResult ts reqId success)) := by
  have opened := VtsLog.ensureLogOpen_opened (counts.unmoved.mp unmoved)
  have stream : (s.log.logWriteReqResult ts reqId success).gLogf = some s.log.ensureLogOpen.2 := by
    change s.log.ensureLogOpen.1.gLogf = _
    rw [VtsLog.ensureLogOpen]
    split
    next file isOpen => exact isOpen
    next => rfl
  have named : (s.log.logWriteReqResult ts reqId success).files.dir .log0 = some s.log.ensureLogOpen.2 := opened.named
  refine ⟨s.log.ensureLogOpen_maxb.trans counts.maxb, VtsLog.logWriteReqResult_tied counts.tied ts reqId success,
    ?_, ?_, ?_, ?_⟩
  · have now := (opened.append (VtsLog.resultText ts reqId success)).1
    change (((s.log.ensureLogOpen.1.files.append s.log.ensureLogOpen.2 _).read .log0).getD []).length = _
    rw [now, Option.getD_some, List.length_append, Account.after, ← counts.size]
    rfl
  · rw [stream]
    rfl
  · rw [stream]
    rintro file ⟨⟩
    exact (s.log.logWriteReqResult ts reqId success).files.wellNamed.bounded named
  · rw [stream]
    refine iff_of_true unmoved ?_
    rintro file ⟨⟩
    exact named

theorem write_respected {s : VtsLog} (tied : s.Tied) (record : Bytes) :
    Respected s.maxb (WriterRun.appended s (s.vtsLogWrite record) (.write record)) := by
  refine ⟨(VtsLog.ensureOpen_opened tied).1.named, ?_⟩
  have written := (VtsLog.vtsLogWrite_written tied record).current
  dsimp only [WriterRun.appended, current]
  rw [written, Option.getD_some]
  split
  · exact Nat.zero_le _
  · omega

theorem reqResult_respected_iff (s : VtsLog) (ts : Bytes) (reqId : Option Bytes) (success : ℤ) :
    Respected s.maxb (WriterRun.appended s (s.logWriteReqResult ts reqId success) (.reqResult ts reqId success)) ↔
      (∀ file ∈ s.gLogf, s.files.dir .log0 = some file) ∧ (current s.files).length ≤ s.maxb := by
  by_cases tied : ∀ file ∈ s.gLogf, s.files.dir .log0 = some file
  · have opened := VtsLog.ensureLogOpen_opened tied
    have size : (current (s.logWriteReqResult ts reqId success).files).length =
        (current s.files).length + (VtsLog.resultText ts reqId success).length := by
      have now := (opened.append (VtsLog.resultText ts reqId success)).1
      change (((s.ensureLogOpen.1.files.append s.ensureLogOpen.2 _).read .log0).getD []).length = _
      rw [now, Option.getD_some, List.length_append]
      rfl
    have named : (WriterRun.opened s (.reqResult ts reqId success)).1.files.dir .log0 =
      some (WriterRun.opened s (.reqResult ts reqId success)).2 := opened.named
    simp only [Respected, WriterRun.appended, WriterRun.record, named, size, true_and, Nat.add_le_add_iff_right]
    exact (and_iff_right tied).symm
  · refine iff_of_false (fun respected => tied fun file isOpen => ?_) fun both => tied both.1
    -- the stream is used as it is
    have named := respected.1
    have same : s.ensureLogOpen = (s, file) := by rw [VtsLog.ensureLogOpen, isOpen]
    dsimp only [WriterRun.appended, WriterRun.opened] at named
    rwa [same] at named

theorem respected_step {maxb : ℕ} (s : WriterRun) (a : Account) (event : VtsLog.Event) (next : WriterRun)
    (counts : Counts maxb s a) (respected : ∀ call ∈ s.calls, Respected maxb call)
    (moved : WriterRun.machine.step s event = some next) :
    (∀ call ∈ next.calls, Respected maxb call) ↔ Account.InTime maxb a event := by
  obtain ⟨log, written, rfl⟩ := Option.map_eq_some_iff.mp moved
  rw [List.forall_mem_append, List.forall_mem_singleton, and_iff_right respected, ← counts.maxb]
  cases event with
  | write record =>
    cases written
    exact iff_of_true (write_respected counts.tied record) trivial
  | reqResult ts reqId success =>
    cases written
    rw [reqResult_respected_iff, ← counts.unmoved, counts.size]
    rfl

theorem counts_step {maxb : ℕ} (s : WriterRun) (a : Account) (event : VtsLog.Event) (next : WriterRun)
    (counts : Counts maxb s a) (inTime : Account.InTime maxb a event)
    (moved : WriterRun.machine.step s event = some next) : Counts maxb next (a.after maxb event) := by
  obtain ⟨log, written, rfl⟩ := Option.map_eq_some_iff.mp moved
  cases event with
  | write record =>
    cases written
    exact counts.write record _
  | reqResult ts reqId success =>
    cases written
    exact counts.reqResult ts reqId success inTime.1 _

/-- Both writers respect the rotation exactly if no rotation comes between two calls of the second one, and whenever it
is called at most `maxb` bytes have been written since the last rotation. -/
theorem writers_respect_iff (maxb : ℕ) (files : Files LogName) {events : List VtsLog.Event} {s : WriterRun}
    (ran : WriterRun.machine.run (.start maxb files) events = some s) :
    (∀ call ∈ s.calls, Respected maxb call) ↔
      (Account.machine maxb).Along (Account.InTime maxb) (.start (current files).length) events := by
  apply EventMachine.holds_iff_along_of_follows (Counts maxb) (fun s => ∀ call ∈ s.calls, Respected maxb call)
    (Account.after maxb) _ respected_step counts_step (counts_start maxb files) _ ran
  · intro s event next moved all call member
    obtain ⟨log, -, rfl⟩ := Option.map_eq_some_iff.mp moved
    exact all call (List.mem_append_left _ member)
  · exact fun call member => absurd member List.not_mem_nil

/-- A record of 20 bytes of the second writer. -/
def result (id : String) : VtsLog.Event := .reqResult [] (some (literal id)) 1

/-- Two results, and then records of the first writer, which rotates the file. -/
def inTimeRun : List VtsLog.Event := [result "1", result "2", .write (literal "a"), .write (literal "b")]

theorem writers_respect_iff_inTime : ∃ s, WriterRun.machine.run (.start 20 noFiles) inTimeRun = some s ∧
    s.calls.map Appended.size = [20, 40, 0, 1] ∧ ∀ call ∈ s.calls, Respected 20 call := by
  have evaluated : (WriterRun.machine.run (.start 20 noFiles) inTimeRun).map (fun s => s.calls.map Appended.size) =
      some [20, 40, 0, 1] := by decide +kernel
  obtain ⟨s, ran, sizes⟩ := Option.map_eq_some_iff.mp evaluated
  exact ⟨s, ran, sizes, (writers_respect_iff 20 noFiles ran).mpr (by decide +kernel)⟩

/-- One result more, and one after the rotation. -/
def lateRun : List VtsLog.Event := [result "1", result "2", result "3", .write (literal "a"), result "4"]

/-- The log grows by more than a record over its limit, and after the rotation the last record goes to
`logs/vts.log.1`. -/
theorem late_records_misplaced : ∃ s, WriterRun.machine.run (.start 20 noFiles) lateRun = some s ∧
    s.calls.map (fun call => (call.file, call.named, call.size)) =
      [(0, some 0, 20), (0, some 0, 40), (0, some 0, 60), (0, some 0, 0), (0, some 1, 0)] ∧
      ¬ ∀ call ∈ s.calls, Respected 20 call := by
  have evaluated : (WriterRun.machine.run (.start 20 noFiles) lateRun).map WriterRun.calls = some
      [⟨WriterRun.record (result "1"), 0, some 0, 20⟩, ⟨WriterRun.record (result "2"), 0, some 0, 40⟩,
        ⟨WriterRun.record (result "3"), 0, some 0, 60⟩, ⟨literal "a", 0, some 0, 0⟩,
        ⟨WriterRun.record (result "4"), 0, some 1, 0⟩] := by decide +kernel
  obtain ⟨s, ran, calls⟩ := Option.map_eq_some_iff.mp evaluated
  refine ⟨s, ran, by rw [calls]; rfl, ?_⟩
  rw [calls]
  decide

end ProcessMonitor.Soundness.LogWriters
