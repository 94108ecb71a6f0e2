import Mathlib.Data.Int.Notation
import ProcessMonitor.Machine.Core.Run
import ProcessMonitor.Machine.Posix.CString
import ProcessMonitor.Machine.Posix.Files

/-! # The log of the server

Two writers append to `logs/vts.log`, each through a stream of its own. `vts_log_write` looks at the size of
its file after every record and moves the files on when it is too large. `log_write_req_result` opens its
stream once and does neither. Records reach the file before a call returns: the one writer flushes, the
other is line-buffered and ends its records with a newline.
-/

namespace ProcessMonitor.Model.Vts

open Machine Machine.Posix

/-- `LOG0`, `LOG1`, and `LOG2` -/
inductive LogName
  | log0
  | log1
  | log2
deriving DecidableEq, Repr

/-- The directory, `MAXB`, and the files that `fp` and `g_logf` are open on. -/
structure VtsLog where
  files : Files LogName
  maxb : ℕ
  fp : Option ℕ
  gLogf : Option ℕ

/-- Both renames; one of a missing file has no effect. -/
def rotate (files : Files LogName) : Files LogName := (files.rename .log1 .log2).rename .log0 .log1

/-- A log file of records moves on whole; the one before it is kept, the second before it only if there is
no other. -/
theorem read_rotate {files : Files LogName} {bytes : Bytes} (current : files.read .log0 = some bytes) :
    (rotate files).read .log0 = none ∧ (rotate files).read .log1 = some bytes ∧
      (rotate files).read .log2 = (files.read .log1).or (files.read .log2) := by
  have still : (files.rename .log1 .log2).read .log0 = some bytes := by
    rw [Files.read_rename]
    split
    · exact current
    · exact current
  have older : (files.rename .log1 .log2).read .log2 = (files.read .log1).or (files.read .log2) := by
    rw [Files.read_rename]
    cases files.read .log1 <;> rfl
  simp only [rotate, Files.read_rename (files.rename .log1 .log2), still]
  exact ⟨rfl, rfl, older⟩

namespace VtsLog

def start (maxb : ℕ) (files : Files LogName) : VtsLog := ⟨files, maxb, none, none⟩

def ensureOpen (s : VtsLog) : VtsLog × ℕ :=
  match s.fp with
  | some file => (s, file)
  | none => ({ s with files := (s.files.fopen .log0).1, fp := some (s.files.fopen .log0).2 }, (s.files.fopen .log0).2)

def ensureLogOpen (s : VtsLog) : VtsLog × ℕ :=
  match s.gLogf with
  | some file => (s, file)
  | none =>
    ({ s with files := (s.files.fopen .log0).1, gLogf := some (s.files.fopen .log0).2 }, (s.files.fopen .log0).2)

def vtsLogWrite (s : VtsLog) (record : Bytes) : VtsLog :=
  let (s, file) := s.ensureOpen
  let s := { s with files := s.files.append file record }
  if s.maxb < (s.files.content file).length then
    { s with fp := none, files := rotate s.files }.ensureOpen.1
  else s

/-- `"%s req_id=%s result=%s\n"` -/
def resultText (ts : Bytes) (reqId : Option Bytes) (success : ℤ) : Bytes :=
  ts ++ literal " req_id=" ++ reqId.getD (literal "-") ++ literal " result=" ++
    (if success ≠ 0 then literal "OK" else literal "ERR") ++ literal "\n"

def logWriteReqResult (s : VtsLog) (ts : Bytes) (reqId : Option Bytes) (success : ℤ) : VtsLog :=
  let (s, file) := s.ensureLogOpen
  { s with files := s.files.append file (resultText ts reqId success) }

/-- A call of either writer; `record` is the text that `vfprintf` makes of the arguments, and `ts` the time
as text. -/
inductive Event
  | write (record : Bytes)
  | reqResult (ts : Bytes) (reqId : Option Bytes) (success : ℤ)
deriving DecidableEq, Repr

def step (s : VtsLog) : Event → Option VtsLog
  | .write record => some (s.vtsLogWrite record)
  | .reqResult ts reqId success => some (s.logWriteReqResult ts reqId success)

def machine : EventMachine VtsLog Event := ⟨step⟩

/-- If `fp` is open, it is open on the file that has the name `LOG0`. -/
def Tied (s : VtsLog) : Prop := ∀ file, s.fp = some file → s.files.dir .log0 = some file

/-- `t` is `s` with a stream open on the file that has the name `LOG0`, which holds what it held before. -/
structure Opened (s t : VtsLog) (file : ℕ) : Prop where
  maxb : t.maxb = s.maxb
  named : t.files.dir .log0 = some file
  content : t.files.content file = (s.files.read .log0).getD []
  others : ∀ name ≠ .log0, t.files.read name = s.files.read name

theorem opened_fopen (s : VtsLog) (fp gLogf : Option ℕ) :
    Opened s { s with files := (s.files.fopen .log0).1, fp, gLogf } (s.files.fopen .log0).2 where
  maxb := rfl
  named := Files.dir_fopen s.files .log0
  content := Files.content_fopen s.files .log0
  others _ different := Files.read_fopen_of_ne different

theorem opened_of_dir {s : VtsLog} {file : ℕ} (named : s.files.dir .log0 = some file) : Opened s s file where
  maxb := rfl
  named := named
  content := by rw [Files.read_of_dir named, Option.getD_some]
  others _ _ := rfl

theorem ensureOpen_opened {s : VtsLog} (tied : s.Tied) :
    Opened s s.ensureOpen.1 s.ensureOpen.2 ∧ s.ensureOpen.1.fp = some s.ensureOpen.2 := by
  rw [ensureOpen]
  split
  next file isOpen => exact ⟨opened_of_dir (tied file isOpen), isOpen⟩
  next => exact ⟨opened_fopen s _ _, rfl⟩

/-- A stream of the other writer that is open on some other file stays there. -/
theorem ensureLogOpen_opened {s : VtsLog} (tied : ∀ file, s.gLogf = some file → s.files.dir .log0 = some file) :
    Opened s s.ensureLogOpen.1 s.ensureLogOpen.2 := by
  rw [ensureLogOpen]
  split
  next file isOpen => exact opened_of_dir (tied file isOpen)
  next => exact opened_fopen s _ _

theorem ensureLogOpen_maxb (s : VtsLog) : s.ensureLogOpen.1.maxb = s.maxb := by
  rw [ensureLogOpen]
  split <;> rfl

theorem logWriteReqResult_tied {s : VtsLog} (tied : s.Tied) (ts : Bytes) (reqId : Option Bytes) (success : ℤ) :
    (s.logWriteReqResult ts reqId success).Tied := by
  intro file isOpen
  change s.ensureLogOpen.1.fp = some file at isOpen
  change s.ensureLogOpen.1.files.dir .log0 = some file
  rw [ensureLogOpen] at isOpen ⊢
  split at isOpen
  · exact tied file isOpen
  · exact Files.dir_fopen_of_dir (tied file isOpen) .log0

/-- The record is in the file with the name `LOG0`, and the other files are as before. -/
theorem Opened.append {s t : VtsLog} {file : ℕ} (opened : Opened s t file) (record : Bytes) :
    (t.files.append file record).read .log0 = some ((s.files.read .log0).getD [] ++ record) ∧
      ∀ name ≠ .log0, (t.files.append file record).read name = s.files.read name := by
  refine ⟨by rw [Files.read_append opened.named, opened.content], fun name different => ?_⟩
  have elsewhere : t.files.dir name ≠ some file := fun same =>
    different (t.files.wellNamed.unshared same opened.named)
  rw [Files.read_append_of_ne elsewhere, opened.others name different]

/-- The contents of a file, if it does not have the name `LOG0` any more. -/
def lost (t : VtsLog) (file : ℕ) : Option Bytes :=
  if t.files.dir .log0 = some file then none else some (t.files.content file)

/-- The file that a call of `vts_log_write` has written to and then moved away. -/
def rotatedOut (s : VtsLog) (record : Bytes) : Option Bytes := lost (s.vtsLogWrite record) s.ensureOpen.2

/-- What `vts_log_write` does to the three files. -/
structure Written (s t : VtsLog) (record : Bytes) : Prop where
  maxb : t.maxb = s.maxb
  tied : t.Tied
  current : t.files.read .log0 =
    some (if s.maxb < ((s.files.read .log0).getD [] ++ record).length then []
      else (s.files.read .log0).getD [] ++ record)
  older : t.files.read .log1 =
    if s.maxb < ((s.files.read .log0).getD [] ++ record).length then some ((s.files.read .log0).getD [] ++ record)
    else s.files.read .log1
  oldest : t.files.read .log2 =
    if s.maxb < ((s.files.read .log0).getD [] ++ record).length then (s.files.read .log1).or (s.files.read .log2)
    else s.files.read .log2
  rotated : lost t s.ensureOpen.2 =
    if s.maxb < ((s.files.read .log0).getD [] ++ record).length then some ((s.files.read .log0).getD [] ++ record)
    else none

theorem vtsLogWrite_written {s : VtsLog} (tied : s.Tied) (record : Bytes) :
    Written s (s.vtsLogWrite record) record := by
  obtain ⟨opened, isOpen⟩ := ensureOpen_opened tied
  rw [vtsLogWrite]
  generalize answered : s.ensureOpen = answer at opened isOpen
  obtain ⟨t, file⟩ := answer
  have target : s.ensureOpen.2 = file := congrArg Prod.snd answered
  dsimp only at opened isOpen ⊢
  obtain ⟨current, others⟩ := opened.append record
  have size : (t.files.append file record).content file = (s.files.read .log0).getD [] ++ record := by
    have named : (t.files.append file record).dir .log0 = some file := opened.named
    rw [Files.read_of_dir named] at current
    exact Option.some.inj current
  rw [size]
  split
  next larger =>
    rw [opened.maxb] at larger
    obtain ⟨gone, older, oldest⟩ := read_rotate current
    have closed : ({ t with fp := none, files := rotate (t.files.append file record) } : VtsLog).Tied := nofun
    obtain ⟨again, reopened⟩ := ensureOpen_opened closed
    have content := again.content
    rw [gone, Option.getD_none] at content
    rw [others .log1 nofun, others .log2 nofun] at oldest
    refine ⟨again.maxb.trans opened.maxb, ?_, ?_, ?_, ?_, ?_⟩
    · intro other same
      rw [reopened] at same
      cases same
      exact again.named
    · rw [Files.read_of_dir again.named, content, if_pos larger]
    · rw [again.others .log1 nofun, if_pos larger]
      exact older
    · rw [again.others .log2 nofun, if_pos larger]
      exact oldest
    · have older : file < (rotate (t.files.append file record)).next := by
        rw [rotate, Files.next_rename, Files.next_rename]
        exact t.files.wellNamed.bounded opened.named
      obtain ⟨fresh, kept⟩ := Files.fopen_of_missing (Option.map_eq_none_iff.mp gone) older
      have moved : ((rotate (t.files.append file record)).fopen .log0).1.dir .log0 ≠ some file := by
        rw [Files.dir_fopen]
        exact fun same => fresh (Option.some.inj same)
      rw [rotate, Files.content_rename, Files.content_rename, size] at kept
      rw [target, if_pos larger]
      exact (if_neg moved).trans (congrArg some kept)
  next under =>
    rw [opened.maxb] at under
    refine ⟨opened.maxb, ?_, ?_, ?_, ?_, ?_⟩
    · intro other same
      rw [isOpen] at same
      cases same
      exact opened.named
    · rw [if_neg under]
      exact current
    · rw [if_neg under]
      exact others .log1 nofun
    · rw [if_neg under]
      exact others .log2 nofun
    · rw [target, if_neg under]
      exact if_pos opened.named

/-- Opening the log gives its name to no file that is there already. -/
theorem ensureOpen_named (s : VtsLog) {file : ℕ} (older : file < s.files.next) :
    (s.ensureOpen.1.files.dir .log0 = some file ↔ s.files.dir .log0 = some file) ∧
      s.files.next ≤ s.ensureOpen.1.files.next := by
  rw [ensureOpen]
  split
  · exact ⟨Iff.rfl, Nat.le_refl _⟩
  · dsimp only
    rw [Files.fopen]
    split
    · exact ⟨Iff.rfl, Nat.le_refl _⟩
    next missing =>
      refine ⟨?_, Nat.le_succ _⟩
      have created : (s.files.create .log0).dir .log0 = some s.files.next := by simp [Files.create]
      rw [created, missing]
      exact iff_of_false (fun same => Nat.ne_of_gt older (Option.some.inj same)) (Option.some_ne_none file).symm

/-- A file keeps the name `LOG0` exactly until the next rotation, and does not get it back. -/
theorem vtsLogWrite_named {s : VtsLog} (tied : s.Tied) (record : Bytes) {file : ℕ} (older : file < s.files.next) :
    ((s.vtsLogWrite record).files.dir .log0 = some file ↔
        s.files.dir .log0 = some file ∧ ((s.files.read .log0).getD [] ++ record).length ≤ s.maxb) ∧
      s.files.next ≤ (s.vtsLogWrite record).files.next := by
  obtain ⟨named, grows⟩ := s.ensureOpen_named older
  obtain ⟨opened, -⟩ := ensureOpen_opened tied
  have size : (s.ensureOpen.1.files.append s.ensureOpen.2 record).content s.ensureOpen.2 =
      (s.files.read .log0).getD [] ++ record := by
    rw [← opened.content]
    exact Function.update_self _ _ _
  dsimp only [vtsLogWrite]
  rw [size, opened.maxb]
  split
  next larger =>
    have still : (rotate (s.ensureOpen.1.files.append s.ensureOpen.2 record)).next = s.ensureOpen.1.files.next := by
      rw [rotate, Files.next_rename, Files.next_rename]
      rfl
    have gone : (rotate (s.ensureOpen.1.files.append s.ensureOpen.2 record)).dir .log0 ≠ some file := by
      intro kept
      have read := (read_rotate (opened.append record).1).1
      rw [Files.read_of_dir kept] at read
      cases read
    obtain ⟨again, after⟩ := ensureOpen_named
      { s.ensureOpen.1 with fp := none, files := rotate (s.ensureOpen.1.files.append s.ensureOpen.2 record) }
      (show file < _ from still ▸ Nat.lt_of_lt_of_le older grows)
    refine ⟨again.trans (iff_of_false gone fun both => ?_), ?_⟩
    · exact absurd both.2 (Nat.not_le_of_lt larger)
    · exact Nat.le_trans (Nat.le_trans grows (Nat.le_of_eq still.symm)) after
  next under =>
    exact ⟨named.trans (and_iff_left (Nat.le_of_not_lt under)).symm, grows⟩

theorem vtsLogWrite_gLogf (s : VtsLog) (record : Bytes) : (s.vtsLogWrite record).gLogf = s.gLogf := by
  have kept (t : VtsLog) : t.ensureOpen.1.gLogf = t.gLogf := by
    rw [ensureOpen]
    split <;> rfl
  dsimp only [vtsLogWrite]
  split
  · rw [kept]
    exact kept s
  · exact kept s

end VtsLog

end ProcessMonitor.Model.Vts
