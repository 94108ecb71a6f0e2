import ProcessMonitor.Model.Driver.PmProcfs
import ProcessMonitor.Model.LibPm.Parser

/-! # The status file as libpm parses it

The driver prints its settings as one line, `enabled=E interval_ms=N`, and the parser takes a value up to the
end of its line. So the value of `enabled` goes on with the second setting, unless the caller's buffer happens to
cut it right behind the flag, and no line begins with `interval_ms`.
-/

namespace ProcessMonitor.Soundness.StatusText

open Machine Machine.Posix Model.Driver Model.LibPm

/-- What `stat_show` prints: the lines of the CPUs, a second time for each pass that the sequence lock
repeats, and the settings. -/
def statusText (lines : List (ℕ × PmCpuSnap)) (enabled : Bool) (interval : ℕ) : Bytes :=
  (lines.flatMap fun line => cpuLine line.1 line.2) ++ settingsLine enabled interval

/-! ## Every execution of `stat_show` -/

/-- The text so far is lines of CPUs, and at the end the settings. -/
def Printed (s : StatusFile) : Prop :=
  ∃ lines : List (ℕ × PmCpuSnap),
    if s.reader = .done then ∃ enabled interval, s.text = statusText lines enabled interval
    else s.text = lines.flatMap fun line => cpuLine line.1 line.2

theorem printed_read {s next : StatusFile} (printed : Printed s) (moved : s.statShow = some next) : Printed next := by
  obtain ⟨lines, text⟩ := printed
  rw [StatusFile.statShow] at moved
  have running : s.reader ≠ .done := fun done => by simp [done] at moved
  rw [if_neg running] at text
  split at moved
  case h_1 =>
    obtain ⟨seq, -, rfl⟩ := Option.map_eq_some_iff.mp moved
    exact ⟨lines, text⟩
  case h_2 =>
    cases moved
    exact ⟨lines, text⟩
  case h_3 seq cpu usage left _ =>
    cases moved
    refine ⟨lines ++ [(cpu, ⟨usage, (s.pmCpuBuf cpu).ts⟩)], ?_⟩
    simp only [text, List.flatMap_append, List.flatMap_cons, List.flatMap_nil, List.append_nil, reduceCtorEq, if_false]
  case h_4 =>
    cases moved
    refine ⟨lines, ?_⟩
    rw [if_neg (by dsimp only; split <;> exact nofun)]
    exact text
  case h_5 =>
    cases moved
    refine ⟨lines, ?_⟩
    rw [if_pos rfl]
    exact ⟨s.pmEnabled, s.pmIntervalMs, by rw [text, statusText]⟩
  case h_6 => cases moved

theorem printed_step (s : StatusFile) (event : StatusFile.Event) (next : StatusFile) (printed : Printed s)
    (moved : StatusFile.machine.step s event = some next) : Printed next := by
  cases event with
  | update =>
    obtain ⟨lock, -, rfl⟩ := Option.map_eq_some_iff.mp moved
    exact printed
  | write value =>
    have written : s.pmUpdateFake value = some next := moved
    rw [StatusFile.pmUpdateFake] at written
    split at written
    · cases written
      exact printed
    · cases written
      exact printed
    · obtain ⟨lock, -, rfl⟩ := Option.map_eq_some_iff.mp written
      exact printed
    · cases written
  | config enabled interval =>
    cases moved
    exact printed
  | read => exact printed_read printed moved

/-- Whatever interrupts it, a finished `stat_show` has printed such a text. -/
theorem text_of_done (online : List ℕ) {events : List StatusFile.Event} {s : StatusFile}
    (ran : StatusFile.machine.run (.start online) events = some s) (done : s.reader = .done) :
    ∃ lines enabled interval, s.text = statusText lines enabled interval := by
  have initial : Printed (.start online) := ⟨[], rfl⟩
  obtain ⟨lines, text⟩ := EventMachine.invariant Printed printed_step initial ran
  rw [if_pos done] at text
  obtain ⟨enabled, interval, same⟩ := text
  exact ⟨lines, enabled, interval, same⟩

/-! ## Parsing -/

theorem newline_not_mem_decimal (n : ℕ) : newline ∉ decimal n := by
  intro member
  have digit := digit_of_mem_decimal member
  exact absurd digit.1 (by decide)

theorem isspace_of_mem_decimal {n : ℕ} {c : UInt8} (member : c ∈ decimal n) : isspace c = false := by
  have digit := digit_of_mem_decimal member
  simp only [isspace, Bool.or_eq_false_iff, beq_eq_false_iff_ne, ne_eq, Bool.and_eq_false_iff, decide_eq_false_iff_not,
    ← UInt8.toNat_inj, UInt8.le_iff_toNat_le]
  change c.toNat ≠ 32 ∧ (¬ 9 ≤ c.toNat ∨ ¬ c.toNat ≤ 13)
  omega

theorem cpuLine_eq (cpu : ℕ) (snap : PmCpuSnap) :
    ∃ body, cpuLine cpu snap = (99 :: body) ++ [newline] ∧ newline ∉ (99 :: body : Bytes) := by
  refine ⟨literal "pu" ++ decimal cpu ++ literal ".usage=" ++ decimal snap.usage ++ literal " ts=" ++ decimal snap.ts,
    rfl, ?_⟩
  simp only [List.mem_cons, List.mem_append, newline_not_mem_decimal, or_false, not_or]
  decide

/-- Lines of CPUs begin with a `c`, so a key that does not is not found in them. -/
theorem pmParseKv_cpuLines {first : UInt8} (other : first ≠ 99) (key : Bytes) (lines : List (ℕ × PmCpuSnap))
    (rest : Bytes) (valSz : ℕ) :
    pmParseKv ((lines.flatMap fun line => cpuLine line.1 line.2) ++ rest) (first :: key) valSz =
      pmParseKv rest (first :: key) valSz := by
  induction lines with
  | nil => rfl
  | cons line lines ih =>
    obtain ⟨body, eq, free⟩ := cpuLine_eq line.1 line.2
    rw [List.flatMap_cons, eq, List.append_assoc, List.append_assoc, List.singleton_append]
    rw [pmParseKv_skip free _ (by simp [other]), ih]

/-- What stands behind `enabled=` on the line of the settings. -/
def settings (enabled : Bool) (interval : ℕ) : Bytes :=
  decimal enabled.toNat ++ literal " interval_ms=" ++ decimal interval

theorem settingsLine_eq (enabled : Bool) (interval : ℕ) :
    settingsLine enabled interval = literal "enabled" ++ equals :: settings enabled interval ++ [newline] := by
  simp only [settingsLine, settings, List.append_assoc, List.cons_append]
  rfl

theorem settings_free (enabled : Bool) (interval : ℕ) :
    newline ∉ literal "enabled" ++ equals :: settings enabled interval := by
  simp only [settings, List.mem_append, List.mem_cons, newline_not_mem_decimal, or_false, false_or, not_or]
  decide

/-- The flag is one digit, and of the rest only the first byte is white space. -/
theorem settings_eq (enabled : Bool) (interval : ℕ) :
    ∃ flag rest, decimal enabled.toNat = [flag] ∧ settings enabled interval = flag :: 32 :: rest ∧
      isspace flag = false ∧ rest ≠ [] ∧ ∀ c ∈ rest, isspace c = false := by
  have digit : ∃ flag, decimal enabled.toNat = [flag] ∧ isspace flag = false := by
    cases enabled <;> exact ⟨_, rfl, by decide⟩
  obtain ⟨flag, numeral, solid⟩ := digit
  have name : ∀ c ∈ literal "interval_ms=", isspace c = false := by
    have solid : (literal "interval_ms=").any isspace = false := by decide
    exact fun c member => Bool.eq_false_of_not_eq_true (List.any_eq_false.mp solid c member)
  refine ⟨flag, literal "interval_ms=" ++ decimal interval, numeral, ?_, solid, ?_, ?_⟩
  · rw [settings, numeral]
    rfl
  · exact List.append_ne_nil_of_left_ne_nil (by decide) _
  · intro c member
    exact (List.mem_append.mp member).elim (name c) isspace_of_mem_decimal

/-- A flag, a space, and any part of the rest: the flag is left alone exactly if there is none of the rest. -/
theorem trim_take_iff {flag : UInt8} {rest : Bytes} (solid : isspace flag = false) (nonempty : rest ≠ [])
    (words : ∀ c ∈ rest, isspace c = false) (n : ℕ) :
    trim ((flag :: 32 :: rest).take n) = [flag] ↔ n = 1 ∨ n = 2 := by
  have space : isspace 32 = true := by decide
  match n with
  | 0 => simp [trim]
  | 1 => simp [trim, solid]
  | 2 => simp [trim, solid, space, List.rdropWhile]
  | n + 3 =>
    have part : rest.take (n + 1) ≠ [] := by simp [nonempty]
    have last := words _ (List.mem_of_mem_take (List.getLast_mem part))
    rw [List.take_succ_cons, List.take_succ_cons, ← List.dropLast_concat_getLast part, ← List.cons_append,
      trim_eq_self solid last]
    exact iff_of_false (by simp) (by omega)

theorem parse_enabled (lines : List (ℕ × PmCpuSnap)) (enabled : Bool) (interval valSz : ℕ) :
    pmParseKv (statusText lines enabled interval) (literal "enabled") valSz =
      some (trim (copied (settings enabled interval) valSz)) := by
  obtain ⟨flag, rest, -, value, -⟩ := settings_eq enabled interval
  have begins : literal "enabled" = 101 :: literal "nabled" := rfl
  rw [statusText, settingsLine_eq, begins, pmParseKv_cpuLines (by decide), ← begins]
  exact pmParseKv_found (settings_free enabled interval) (by simp [value]) [] valSz

theorem parse_interval (lines : List (ℕ × PmCpuSnap)) (enabled : Bool) (interval valSz : ℕ) :
    pmParseKv (statusText lines enabled interval) (literal "interval_ms") valSz = none := by
  have begins : literal "interval_ms" = 105 :: literal "nterval_ms" := rfl
  rw [statusText, settingsLine_eq, begins, pmParseKv_cpuLines (by decide),
    pmParseKv_skip (settings_free enabled interval) [] (by simp [literal]), pmParseKv_nil]

/-- Of the two settings the parser finds the first, with the whole rest of the line, and never the second. -/
theorem status_parsed (lines : List (ℕ × PmCpuSnap)) (enabled : Bool) (interval : ℕ) {valSz : ℕ} (room : 0 < valSz) :
    (pmParseKv (statusText lines enabled interval) (literal "enabled") valSz = some (decimal enabled.toNat) ↔
      valSz = 2 ∨ valSz = 3) ∧
    pmParseKv (statusText lines enabled interval) (literal "interval_ms") valSz = none := by
  refine ⟨?_, parse_interval lines enabled interval valSz⟩
  obtain ⟨flag, rest, numeral, value, solid, nonempty, words⟩ := settings_eq enabled interval
  rw [parse_enabled, copied_eq room, numeral, value, Option.some.injEq, trim_take_iff solid nonempty words]
  omega

theorem status_parsed_two :
    pmParseKv (statusText [(0, ⟨42, 7⟩)] true 100) (literal "enabled") 2 = some (decimal 1) ∧
      pmParseKv (statusText [(0, ⟨42, 7⟩)] true 100) (literal "interval_ms") 2 = none := by
  have parsed := status_parsed [(0, ⟨42, 7⟩)] true 100 (by decide : 0 < 2)
  exact ⟨parsed.1.mpr (.inl rfl), parsed.2⟩

theorem status_misread :
    pmParseKv (statusText [(0, ⟨42, 7⟩)] true 100) (literal "enabled") 64 = some (literal "1 interval_ms=100") ∧
      pmParseKv (statusText [(0, ⟨42, 7⟩)] true 100) (literal "interval_ms") 64 = none := by
  refine ⟨?_, parse_interval _ _ _ _⟩
  rw [parse_enabled]
  decide

end ProcessMonitor.Soundness.StatusText
