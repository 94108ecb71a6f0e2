import ProcessMonitor.Machine.Core.Rotation
import ProcessMonitor.Model.Vts.LogWrite

/-! # Rotation keeps the stream of records

`vts_log_write` alone, on any three files it finds, follows the rotation of a log of which the two newest
closed files are kept. That the renames go through missing files without effect is what makes this true from
the start: whatever is there of the two older files counts as closed before.
-/

namespace ProcessMonitor.Soundness.LogRotation

open Machine Machine.Posix Model.Vts

/-- What is there of `LOG2` and `LOG1`, oldest first. -/
def older (files : Files LogName) : List Bytes := (files.read .log2).toList ++ (files.read .log1).toList

def current (files : Files LogName) : Bytes := (files.read .log0).getD []

/-- `LOG2 ++ LOG1 ++ LOG0` -/
def concatenation (files : Files LogName) : Bytes :=
  (files.read .log2).getD [] ++ (files.read .log1).getD [] ++ (files.read .log0).getD []

theorem flatten_toList (file : Option Bytes) : file.toList.flatten = file.getD [] := by
  cases file with
  | none => rfl
  | some bytes => exact List.append_nil bytes

theorem concatenation_eq (files : Files LogName) : concatenation files = (older files).flatten ++ current files := by
  rw [older, List.flatten_append, flatten_toList, flatten_toList, concatenation, current]

/-- The log, and the files that have been rotated out. -/
structure LogRun where
  log : VtsLog
  closed : List Bytes

namespace LogRun

def start (maxb : ℕ) (files : Files LogName) : LogRun := ⟨.start maxb files, []⟩

/-- One call of `vts_log_write`. -/
def step (s : LogRun) (record : Bytes) : Option LogRun :=
  some ⟨s.log.vtsLogWrite record, s.closed ++ (s.log.rotatedOut record).toList⟩

def machine : EventMachine LogRun Bytes := ⟨step⟩

end LogRun

/-- The files are those of the rotation `r`; `before` are the ones there were already. -/
structure Follows (maxb : ℕ) (before : List Bytes) (s : LogRun) (r : Rotation UInt8) : Prop where
  maxb : s.log.maxb = maxb
  tied : s.log.Tied
  current : current s.log.files = r.current
  older : older s.log.files = newest 2 (before ++ r.closed)
  closed : s.closed = r.closed

/-- The renames keep the newest one of the older files. -/
theorem newest_older (files : Files LogName) :
    newest 1 (older files) = ((files.read .log1).or (files.read .log2)).toList := by
  rw [older]
  cases files.read .log1 <;> cases files.read .log2 <;> rfl

theorem follows_step {maxb : ℕ} {before : List Bytes} (s : LogRun) (r : Rotation UInt8) (record : Bytes)
    (follows : Follows maxb before s r) :
    ∃ next, LogRun.machine.step s record = some next ∧ Follows maxb before next (r.write maxb record) := by
  refine ⟨_, rfl, ?_⟩
  have written := VtsLog.vtsLogWrite_written follows.tied record
  have whole : (s.log.files.read .log0).getD [] = r.current := follows.current
  have recent := newest_older s.log.files
  rw [follows.older, newest_newest (by decide)] at recent
  obtain ⟨limit, tied, now, one, two, rotated⟩ := written
  rw [whole, follows.maxb] at now one two rotated
  rw [Rotation.write]
  split
  next larger =>
    rw [if_pos larger] at now one two rotated
    refine ⟨limit.trans follows.maxb, tied, ?_, ?_, ?_⟩
    · rw [current, now, Option.getD_some]
    · rw [older, two, one, ← recent, ← List.append_assoc, newest_concat]
      rfl
    · rw [VtsLog.rotatedOut, rotated, follows.closed]
      rfl
  next under =>
    rw [if_neg under] at now one two rotated
    refine ⟨limit.trans follows.maxb, tied, ?_, ?_, ?_⟩
    · rw [current, now, Option.getD_some]
    · rw [older, two, one]
      exact follows.older
    · rw [VtsLog.rotatedOut, rotated, follows.closed]
      exact List.append_nil _

theorem older_length (files : Files LogName) : (older files).length ≤ 2 := by
  rw [older]
  cases files.read .log1 <;> cases files.read .log2 <;> simp

theorem follows_start (maxb : ℕ) (files : Files LogName) :
    Follows maxb (older files) (.start maxb files) ⟨[], current files⟩ where
  maxb := rfl
  tied := nofun
  current := rfl
  older := by
    have few := older_length files
    rw [List.append_nil, newest, Nat.sub_eq_zero_of_le few, List.drop_zero]
    rfl
  closed := rfl

/-- A run of calls always goes on, and follows the rotation. -/
theorem run_follows (maxb : ℕ) (files : Files LogName) (records : List Bytes) :
    ∃ s, LogRun.machine.run (.start maxb files) records = some s ∧
      Follows maxb (older files) s (.writeAll maxb ⟨[], current files⟩ records) :=
  EventMachine.run_refines (Follows maxb (older files)) (Rotation.write maxb) follows_step (follows_start maxb files)
    records

theorem Follows.concatenation_eq {maxb : ℕ} {before : List Bytes} {s : LogRun} {r : Rotation UInt8}
    (follows : Follows maxb before s r) : concatenation s.log.files = r.kept 2 before := by
  rw [LogRotation.concatenation_eq, follows.older, follows.current, Rotation.kept]

/-- What the calls with these records, on these files, leave behind. -/
structure Preserved (maxb : ℕ) (files : Files LogName) (records : List Bytes) (s : LogRun) : Prop where
  bounded : (current s.log.files).length ≤ maxb
  suffix : concatenation s.log.files <:+ concatenation files ++ records.flatten
  /-- Whole records fill the files that were rotated out, one after the other, and then the current one. -/
  filled : Rotation.Filled maxb (current files) records s.closed (current s.log.files)
  /-- As long as fewer than three files have been rotated out since, everything written is there. -/
  retained : ∀ earlier later t, records = earlier ++ later →
    LogRun.machine.run (.start maxb files) earlier = some t → s.closed.length < t.closed.length + 3 →
      later.flatten <:+ concatenation s.log.files

theorem records_preserved {maxb : ℕ} {files : Files LogName} (small : (current files).length ≤ maxb)
    (records : List Bytes) :
    ∃ s, LogRun.machine.run (.start maxb files) records = some s ∧ Preserved maxb files records s := by
  obtain ⟨s, ran, follows⟩ := run_follows maxb files records
  refine ⟨s, ran, ?_, ?_, ?_, ?_⟩
  · rw [follows.current]
    exact Rotation.writeAll_bounded small records
  · have kept := Rotation.kept_suffix 2 (older files) (.writeAll maxb ⟨[], current files⟩ records)
    rwa [← follows.concatenation_eq, Rotation.writeAll_contents, ← List.append_assoc, Rotation.contents,
      List.flatten_nil, List.nil_append, ← concatenation_eq] at kept
  · rw [follows.current, follows.closed]
    exact Rotation.writeAll_filled small records
  · intro earlier later t split before few
    obtain ⟨t', ran', middle⟩ := run_follows maxb files earlier
    rw [before] at ran'
    cases ran'
    rw [split, Rotation.writeAll_append] at follows
    rw [follows.closed, middle.closed] at few
    rw [follows.concatenation_eq]
    exact Rotation.retained _ _ _ (Nat.le_of_lt_succ few)

/-- An empty directory. -/
def noFiles : Files LogName := ⟨fun _ => none, fun _ => [], 0, ⟨nofun, nofun⟩⟩

theorem records_preserved_empty : (current noFiles).length ≤ 4 ∧
    ∃ s, LogRun.machine.run (.start 4 noFiles) [literal "abc", literal "de", literal "f"] = some s ∧
      Preserved 4 noFiles [literal "abc", literal "de", literal "f"] s :=
  ⟨by decide, records_preserved (by decide) [literal "abc", literal "de", literal "f"]⟩

end ProcessMonitor.Soundness.LogRotation
