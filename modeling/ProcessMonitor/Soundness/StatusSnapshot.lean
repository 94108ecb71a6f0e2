import ProcessMonitor.Model.Driver.PmProcfs

/-! # One snapshot in the status file

The sequence lock makes `stat_show` read again when a writer section has come in between, but what it
has printed by then stays printed. The text is one snapshot as long as no section begins between the
two looks at the sequence number.
-/

namespace ProcessMonitor.Soundness.StatusSnapshot

open Machine Machine.Kernel Machine.Posix Model.Driver

/-- The lines of some CPUs, in order, with the samples of one snapshot. -/
def cpuLines (cpus : List ℕ) (snap : ℕ → PmCpuSnap) : Bytes := cpus.flatMap fun cpu => cpuLine cpu (snap cpu)

/-- What a finished `stat_show` has printed is one line for each online CPU, all from the time between the
same two writer sections, and the line of the settings. -/
def OneSnapshot (s : StatusFile) : Prop :=
  s.reader = .done → ∃ snap ∈ s.settled, ∃ enabled interval,
    s.text = cpuLines s.online snap ++ settingsLine enabled interval

/-- Between `read_seqbegin` and `read_seqretry`. -/
def reading : Reader → Bool
  | .usage .. | .ts .. => true
  | .begin | .tail | .done => false

/-- No writer section begins while `stat_show` reads. -/
def Unhurried (s : StatusFile) : StatusFile.Event → Prop
  | .update => reading s.reader = false
  | _ => True

instance (s : StatusFile) : DecidablePred (Unhurried s)
  | .update => inferInstanceAs (Decidable (_ = _))
  | .write _ | .config .. | .read => .isTrue trivial

/-- How far `stat_show` is; while it reads, the buffers are at rest. -/
def Printed (s : StatusFile) : Prop :=
  match s.reader with
  | .begin => s.text = []
  | .usage seq left => s.pmSeq.held = false ∧ s.pmSeq.sequence = seq ∧
      ∃ front, s.online = front ++ left ∧ s.text = cpuLines front s.pmCpuBuf
  | .ts seq cpu usage left => s.pmSeq.held = false ∧ s.pmSeq.sequence = seq ∧ usage = (s.pmCpuBuf cpu).usage ∧
      ∃ front, s.online = front ++ cpu :: left ∧ s.text = cpuLines front s.pmCpuBuf
  | .tail => ∃ snap ∈ s.settled, s.text = cpuLines s.online snap
  | .done => ∃ snap ∈ s.settled, ∃ enabled interval, s.text = cpuLines s.online snap ++ settingsLine enabled interval

structure Steady (s : StatusFile) : Prop where
  idle : s.pmSeq.held = false → s.writer = .idle
  settled : s.pmSeq.held = false → s.pmCpuBuf ∈ s.settled
  printed : Printed s

theorem steady_start (online : List ℕ) : Steady (.start online) :=
  ⟨fun _ => rfl, fun _ => List.mem_singleton_self _, rfl⟩

variable {s : StatusFile}

/-- What is printed outside the reads does not depend on the buffers. -/
theorem Printed.of_not_reading (printed : Printed s) (away : reading s.reader = false) {lock : Seqlock}
    {buf : ℕ → PmCpuSnap} {writer : Writer} {settled : List (ℕ → PmCpuSnap)} (grows : s.settled ⊆ settled) :
    Printed { s with pmSeq := lock, pmCpuBuf := buf, writer, settled } := by
  obtain ⟨online, lockBefore, bufBefore, enabled, interval, writerBefore, reader, text, settledBefore⟩ := s
  cases reader with
  | begin => exact printed
  | usage | ts => cases away
  | tail => exact printed.imp fun _ facts => ⟨grows facts.1, facts.2⟩
  | done => exact printed.imp fun _ facts => ⟨grows facts.1, facts.2⟩

/-- A writer section in progress keeps `stat_show` from reading. -/
theorem Steady.not_reading (steady : Steady s) (writing : s.writer ≠ .idle) :
    s.pmSeq.held = true ∧ reading s.reader = false := by
  have held : s.pmSeq.held = true := by
    by_contra free
    exact writing (steady.idle (Bool.not_eq_true _ ▸ free))
  refine ⟨held, ?_⟩
  have printed := steady.printed
  cases reader : s.reader with
  | begin | tail | done => rfl
  | usage | ts =>
    simp only [Printed, reader, held] at printed
    exact absurd printed.1 nofun

/-- Inside a writer section the buffers may be in any state. -/
theorem Steady.inside (steady : Steady s) (away : reading s.reader = false) {lock : Seqlock} (held : lock.held = true)
    (buf : ℕ → PmCpuSnap) (writer : Writer) : Steady { s with pmSeq := lock, pmCpuBuf := buf, writer } where
  idle free := absurd (held.symm.trans free) nofun
  settled free := absurd (held.symm.trans free) nofun
  printed := steady.printed.of_not_reading away (List.Subset.refl _)

theorem Steady.write (steady : Steady s) {value : ℕ} {next : StatusFile}
    (success : s.pmUpdateFake value = some next) : Steady next := by
  rw [StatusFile.pmUpdateFake] at success
  split at success
  next cpu left writing =>
    obtain ⟨held, away⟩ := steady.not_reading (writing ▸ nofun)
    cases success
    exact steady.inside away held _ _
  next cpu left writing =>
    obtain ⟨held, away⟩ := steady.not_reading (writing ▸ nofun)
    cases success
    exact steady.inside away held _ _
  next writing =>
    obtain ⟨-, away⟩ := steady.not_reading (writing ▸ nofun)
    obtain ⟨lock, ended, rfl⟩ := Option.map_eq_some_iff.mp success
    exact ⟨fun _ => rfl, fun _ => List.mem_append_right _ (List.mem_singleton_self _),
      steady.printed.of_not_reading away (List.subset_append_left _ _)⟩
  next => cases success

theorem Steady.read (steady : Steady s) {next : StatusFile} (success : s.statShow = some next) : Steady next := by
  have printed := steady.printed
  rw [StatusFile.statShow] at success
  split at success
  next begin =>
    obtain ⟨seq, began, rfl⟩ := Option.map_eq_some_iff.mp success
    obtain ⟨free, same⟩ := Seqlock.free_of_readBegin began
    simp only [Printed, begin] at printed
    exact ⟨steady.idle, steady.settled, free, same, [], rfl, printed⟩
  next seq cpu left reading =>
    cases success
    simp only [Printed, reading] at printed
    exact ⟨steady.idle, steady.settled, printed.1, printed.2.1, rfl, printed.2.2⟩
  next seq cpu usage left reading =>
    cases success
    simp only [Printed, reading] at printed
    obtain ⟨free, same, rfl, front, online, text⟩ := printed
    refine ⟨steady.idle, steady.settled, free, same, front ++ [cpu], ?_, ?_⟩
    · rw [online, List.append_assoc, List.singleton_append]
    · simp only [text, cpuLines, List.flatMap_append, List.flatMap_singleton]
  next seq reading =>
    cases success
    simp only [Printed, reading, List.append_nil] at printed
    obtain ⟨free, same, front, online, text⟩ := printed
    have through : s.pmSeq.readRetry seq = false := by rw [Seqlock.readRetry, same]; simp
    refine ⟨steady.idle, steady.settled, ?_⟩
    rw [through]
    exact ⟨s.pmCpuBuf, steady.settled free, online ▸ text⟩
  next tail =>
    cases success
    simp only [Printed, tail] at printed
    obtain ⟨snap, member, text⟩ := printed
    exact ⟨steady.idle, steady.settled, snap, member, s.pmEnabled, s.pmIntervalMs, text ▸ rfl⟩
  next => cases success

theorem steady_step (s : StatusFile) (event : StatusFile.Event) (next : StatusFile) (steady : Steady s)
    (unhurried : Unhurried s event) (success : s.step event = some next) : Steady next := by
  cases event with
  | update =>
    obtain ⟨lock, began, rfl⟩ := Option.map_eq_some_iff.mp success
    exact steady.inside unhurried (Seqlock.held_of_writeBegin began) _ _
  | write value => exact steady.write success
  | config enabled interval =>
    cases success
    exact ⟨steady.idle, steady.settled, steady.printed⟩
  | read => exact steady.read success

/-- In a run in which no writer section begins while `stat_show` reads, it prints one snapshot. -/
theorem one_snapshot (online : List ℕ) {events : List StatusFile.Event}
    (unhurried : StatusFile.machine.Along Unhurried (.start online) events)
    (ran : StatusFile.machine.run (.start online) events = some s) : OneSnapshot s := by
  have steady := EventMachine.invariant_along Steady steady_step (steady_start online) unhurried ran
  intro finished
  have printed := steady.printed
  simpa only [Printed, finished] using printed

/-- Two CPUs, with a writer section before and one after the reads. -/
def unhurriedRun : List StatusFile.Event :=
  [.update, .write 42, .write 7, .write 13, .write 9, .write 0, .config true 100, .read, .read, .read, .read, .read,
    .read, .update, .write 1, .read]

theorem one_snapshot_two : ∃ s, StatusFile.machine.run (.start [0, 1]) unhurriedRun = some s ∧
    s.text = literal "cpu0.usage=42 ts=7\ncpu1.usage=13 ts=9\nenabled=1 interval_ms=100\n" ∧ OneSnapshot s := by
  obtain ⟨s, ran, text⟩ : ∃ s, StatusFile.machine.run (.start [0, 1]) unhurriedRun = some s ∧
      s.text = literal "cpu0.usage=42 ts=7\ncpu1.usage=13 ts=9\nenabled=1 interval_ms=100\n" := ⟨_, rfl, by decide⟩
  exact ⟨s, ran, text, one_snapshot [0, 1] (by decide) ran⟩

/-- A writer section falls between the first look at the sequence number and the second. -/
def hurriedRun : List StatusFile.Event :=
  [.read, .update, .read, .read, .write 42, .write 7, .write 0, .read, .read, .read, .read, .read, .read]

theorem lines_twice : ∃ s, StatusFile.machine.run (.start [0]) hurriedRun = some s ∧ s.reader = .done ∧
    s.text = literal "cpu0.usage=0 ts=0\ncpu0.usage=42 ts=7\nenabled=0 interval_ms=500\n" ∧ ¬ OneSnapshot s := by
  obtain ⟨s, ran, finished, text, cpus, settled⟩ : ∃ s, StatusFile.machine.run (.start [0]) hurriedRun = some s ∧
      s.reader = .done ∧
      s.text = literal "cpu0.usage=0 ts=0\ncpu0.usage=42 ts=7\nenabled=0 interval_ms=500\n" ∧ s.online = [0] ∧
      s.settled.map (· 0) = [⟨0, 0⟩, ⟨42, 7⟩] := ⟨_, rfl, rfl, by decide, rfl, rfl⟩
  refine ⟨s, ran, finished, text, fun snapshot => ?_⟩
  obtain ⟨snap, member, enabled, interval, printed⟩ := snapshot finished
  have sample := List.mem_map_of_mem (f := (· 0)) member
  rw [settled, List.mem_cons, List.mem_singleton] at sample
  -- the second line is no settings line, and the first one not the later sample
  rw [text, cpus, cpuLines, List.flatMap_singleton] at printed
  have start := congrArg (List.take 19) printed
  rcases sample with before | after
  · have settings : (cpuLine 0 ⟨0, 0⟩ ++ settingsLine enabled interval).take 19 = literal "cpu0.usage=0 ts=0\ne" := rfl
    rw [before, settings] at start
    exact absurd start (by decide)
  · have later : (cpuLine 0 ⟨42, 7⟩ ++ settingsLine enabled interval).take 19 = literal "cpu0.usage=42 ts=7\n" := rfl
    rw [after, later] at start
    exact absurd start (by decide)

end ProcessMonitor.Soundness.StatusSnapshot
