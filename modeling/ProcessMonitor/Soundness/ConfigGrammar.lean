import ProcessMonitor.Soundness.TickChain

/-! # The grammar of the configuration file

The contract of the file is `"1 [interval_ms]"` or `"0"`, with a newline at the end or not. A call of
`cfg_write` that is let run to its end changes the settings as its first phase says, whatever the tick
does meanwhile. It follows the contract on every string of the grammar. On any other string it looks at the
first byte only, and for `'1'` at what `sscanf` finds behind it, so that it leaves the settings alone just
when they already are what it sets.
-/

namespace ProcessMonitor.Soundness.ConfigGrammar

open Machine Machine.Kernel Machine.Posix Model.Driver TickChain

/-! ## The contract -/

structure Settings where
  enabled : Bool
  interval : ℕ
deriving DecidableEq, Repr

inductive Command
  | disable
  | enable
  | sampleEvery (interval : ℕ)
deriving DecidableEq, Repr

def Command.apply : Command → Settings → Settings
  | .disable, before => { before with enabled := false }
  | .enable, before => { before with enabled := true }
  | .sampleEvery interval, _ => ⟨true, interval⟩

def numeral (digits : Bytes) : ℕ := digits.foldl (fun n d => n * 10 + (d.toNat - 48)) 0

inductive Documented : Bytes → Command → Prop
  | disable : Documented [48] .disable
  | enable : Documented [49] .enable
  | sampleEvery {blanks digits : Bytes} (blank : blanks ≠ []) (spaces : ∀ c ∈ blanks, isSpace c = true)
      (digit : digits ≠ []) (decimals : ∀ c ∈ digits, isDigit c = true) (positive : 0 < numeral digits)
      (range : numeral digits < 2 ^ 32) : Documented (49 :: (blanks ++ digits)) (.sampleEvery (numeral digits))

/-- The string without its newline, if it has one, is in the grammar. -/
def Accepted (ubuf : Bytes) (command : Command) : Prop :=
  ∃ text, Documented text command ∧ (ubuf = text ∨ ubuf = text ++ [10])

/-- The file does what its contract says, and nothing for any other string. -/
structure Obeys (ubuf : Bytes) (before after : Settings) : Prop where
  accepted : ∀ command, Accepted ubuf command → after = command.apply before
  other : (∀ command, ¬ Accepted ubuf command) → after = before

/-! ## A call on its own -/

def settings (s : Sampler) : Settings := ⟨s.pmEnabled, s.pmIntervalMs⟩

/-- What is left to do to the settings from a phase on. -/
def effect : Phase → Settings → Settings
  | .storeInterval interval, _ => ⟨true, interval⟩
  | .exchange, before => { before with enabled := true }
  | .clear, before => { before with enabled := false }
  | .schedule, before | .cancel, before | .done _, before => before

/-- The steps that can come between those of one call while no other call is made. -/
def Alone (i : ℕ) : Sampler.Event → Prop
  | .advance j => j = i
  | .fire | .tick => True
  | .write .. => False

def Returned (s : Sampler) (i : ℕ) : Prop := ∃ call, s.calls[i]? = some call ∧ call.returned = true

/-- A call is on its way to the settings `final`. -/
def Heading (i : ℕ) (final : Settings) (s : Sampler) : Prop :=
  ∃ call, s.calls[i]? = some call ∧ effect call.phase (settings s) = final

/-- A call that moves on still leads where it did, if its new phase makes up for what was done. -/
theorem heading_setPhase {i : ℕ} {final : Settings} {s : Sampler} {call : CfgCall} {phase : Phase}
    (inside : i < s.calls.length) (leads : effect phase (settings s) = final) :
    Heading i final (s.setPhase i call phase) :=
  ⟨{ call with phase }, List.getElem?_set_self inside, leads⟩

theorem heading_step {i : ℕ} {final : Settings} (s : Sampler) (event : Sampler.Event) (next : Sampler)
    (heading : Heading i final s) (alone : Alone i event) (stepped : Sampler.machine.step s event = some next) :
    Heading i final next := by
  obtain ⟨call, found, leads⟩ := heading
  have inside := (List.getElem?_eq_some_iff.mp found).1
  cases moves_of_step stepped with
  | write => exact alone.elim
  | storeInterval j other interval there phase =>
    obtain rfl : j = i := alone
    cases there.symm.trans found
    rw [phase] at leads
    apply heading_setPhase
    · exact inside
    · exact leads
  | exchange j other there phase =>
    obtain rfl : j = i := alone
    cases there.symm.trans found
    rw [phase] at leads
    apply heading_setPhase
    · exact inside
    · cases s.pmEnabled with
      | true => exact leads
      | false => exact leads
  | clear j other there phase =>
    obtain rfl : j = i := alone
    cases there.symm.trans found
    rw [phase] at leads
    apply heading_setPhase
    · exact inside
    · exact leads
  | schedule j other there phase | cancel j other there phase =>
    obtain rfl : j = i := alone
    cases there.symm.trans found
    rw [phase] at leads
    apply heading_setPhase
    · exact inside
    · exact leads
  | fire | readEnabled | update | requeue => exact ⟨call, found, leads⟩

/-- However the tick interleaves, a call that returns has had the effect of its first phase. -/
theorem settings_of_returned {s t : Sampler} {ubuf : Bytes} {fault : Bool} {events : List Sampler.Event}
    (alone : ∀ event ∈ events, Alone s.calls.length event)
    (ran : Sampler.machine.run s (.write ubuf fault :: events) = some t) (returned : Returned t s.calls.length) :
    settings t = effect (cfgWrite ubuf fault) (settings s) := by
  have begun : Heading s.calls.length (effect (cfgWrite ubuf fault) (settings s))
      { s with calls := s.calls ++ [⟨ubuf.length, cfgWrite ubuf fault⟩] } :=
    ⟨⟨ubuf.length, cfgWrite ubuf fault⟩, List.getElem?_concat_length, rfl⟩
  obtain ⟨call, found, leads⟩ :=
    EventMachine.invariant_along (Heading s.calls.length _) heading_step begun (EventMachine.along_of_forall alone) ran
  obtain ⟨same, there, done⟩ := returned
  cases there.symm.trans found
  rw [CfgCall.returned] at done
  split at done
  · next phase =>
    rw [phase] at leads
    exact leads
  · cases done

/-! ## A call returns -/

/-- Some steps of the call and of the tick bring the call to its end. -/
def Returns (i : ℕ) (s : Sampler) : Prop :=
  ∃ events t, (∀ event ∈ events, Alone i event) ∧ Sampler.machine.run s events = some t ∧ Returned t i

theorem Returns.before {i : ℕ} {s next : Sampler} {event : Sampler.Event} (alone : Alone i event)
    (stepped : s.step event = some next) (returns : Returns i next) : Returns i s := by
  obtain ⟨events, t, others, ran, returned⟩ := returns
  refine ⟨event :: events, t, List.forall_mem_cons.mpr ⟨alone, others⟩, ?_, returned⟩
  rw [EventMachine.run_cons, show Sampler.machine.step s event = some next from stepped, Option.bind_some, ran]

theorem Returns.tick {i : ℕ} {s next : Sampler} (returns : Returns i next) (ticked : s.pmTick = some next) :
    Returns i s := by
  have alone : Alone i .tick := trivial
  exact returns.before alone ticked

section Returns

variable {i : ℕ} {s : Sampler} {call : CfgCall} (found : s.calls[i]? = some call)

include found

theorem returns_done {ret : ℤ} (phase : call.phase = .done ret) : Returns i s :=
  ⟨[], s, fun _ member => absurd member List.not_mem_nil, rfl, call, found, by rw [CfgCall.returned, phase]⟩

/-- A call returns if it does after its next step. -/
theorem returns_of_step {after : Sampler} {phase : Phase} (advanced : s.cfgStep call = some (after, phase))
    (same : after.calls = s.calls)
    (returns : ∀ next : Sampler, next.calls[i]? = some { call with phase } → Returns i next) : Returns i s := by
  have alone : Alone i (.advance i) := rfl
  have stepped : s.step (.advance i) = some (after.setPhase i call phase) := by
    rw [Sampler.step, found]
    simp only [bind, Option.bind_some, advanced, Option.map_some]
  apply Returns.before alone stepped
  apply returns
  rw [Sampler.setPhase, same]
  exact List.getElem?_set_self (List.getElem?_eq_some_iff.mp found).1

theorem returns_schedule (phase : call.phase = .schedule) : Returns i s := by
  have advanced : s.cfgStep call = some ({ s with pmWork := s.pmWork.schedule }, .done call.len) := by
    rw [Sampler.cfgStep, phase]
  exact returns_of_step found advanced rfl fun next there => returns_done there rfl

theorem returns_exchange (phase : call.phase = .exchange) : Returns i s := by
  have advanced : s.cfgStep call =
      some ({ s with pmEnabled := true }, if s.pmEnabled then .done call.len else .schedule) := by
    rw [Sampler.cfgStep, phase]
  apply returns_of_step found advanced rfl
  intro next there
  cases enabled : s.pmEnabled with
  | true =>
    rw [enabled] at there
    exact returns_done there rfl
  | false =>
    rw [enabled] at there
    exact returns_schedule there rfl

theorem returns_storeInterval {interval : ℕ} (phase : call.phase = .storeInterval interval) : Returns i s := by
  have advanced : s.cfgStep call = some ({ s with pmIntervalMs := interval }, .exchange) := by
    rw [Sampler.cfgStep, phase]
  exact returns_of_step found advanced rfl fun next there => returns_exchange there rfl

theorem returns_cancel_of_idle (phase : call.phase = .cancel) (idle : s.pmWork.running = none) : Returns i s := by
  have advanced : s.cfgStep call = some ({ s with pmWork := .idle }, .done call.len) := by
    simp only [Sampler.cfgStep, phase, DelayedWork.cancelSync, idle, ↓reduceIte, Option.map_some]
    rfl
  exact returns_of_step found advanced rfl fun next there => returns_done there rfl

theorem returns_cancel_of_requeue (phase : call.phase = .cancel) (running : s.pmWork.running = some .requeue) :
    Returns i s := by
  have ticked : s.pmTick = some { s with pmWork := { s.pmWork.schedule with running := none } } := by
    rw [Sampler.pmTick, running]
  refine .tick ?_ ticked
  exact returns_cancel_of_idle found phase rfl

theorem returns_cancel_of_update (phase : call.phase = .cancel) (running : s.pmWork.running = some .update) :
    Returns i s := by
  have ticked : s.pmTick = some { s with pmWork.running := some .requeue } := by
    rw [Sampler.pmTick, running]
  refine .tick ?_ ticked
  exact returns_cancel_of_requeue found phase rfl

/-- The cancel waits for a tick that is running, and a tick ends by itself. -/
theorem returns_cancel (phase : call.phase = .cancel) : Returns i s := by
  cases running : s.pmWork.running with
  | none => exact returns_cancel_of_idle found phase running
  | some tick =>
    cases tick with
    | requeue => exact returns_cancel_of_requeue found phase running
    | update => exact returns_cancel_of_update found phase running
    | readEnabled =>
      have ticked : s.pmTick = some { s with pmWork.running := if s.pmEnabled then some .update else none } := by
        rw [Sampler.pmTick, running]
      refine .tick ?_ ticked
      cases s.pmEnabled with
      | true => exact returns_cancel_of_update found phase rfl
      | false => exact returns_cancel_of_idle found phase rfl

theorem returns_clear (phase : call.phase = .clear) : Returns i s := by
  have advanced : s.cfgStep call = some ({ s with pmEnabled := false }, .cancel) := by
    rw [Sampler.cfgStep, phase]
  exact returns_of_step found advanced rfl fun next there => returns_cancel there rfl

/-- From any phase on, and wherever the tick is, a call can be completed. -/
theorem returns_of_found : Returns i s := by
  cases phase : call.phase with
  | storeInterval interval => exact returns_storeInterval found phase
  | exchange => exact returns_exchange found phase
  | schedule => exact returns_schedule found phase
  | clear => exact returns_clear found phase
  | cancel => exact returns_cancel found phase
  | done ret => exact returns_done found phase

end Returns

/-! ## What a string does -/

theorem isSpace_of_isDigit {c : UInt8} (digit : isDigit c = true) : isSpace c = false := by
  simp only [isDigit, isSpace] at *
  grind

theorem cstr_of_accepted {ubuf : Bytes} {command : Command} (accepted : Accepted ubuf command) : cstr ubuf = ubuf := by
  apply cstr_of_nul_free
  obtain ⟨text, documented, same⟩ := accepted
  have free : (0 : UInt8) ∉ text := by
    cases documented with
    | disable => decide
    | enable => decide
    | sampleEvery blank spaces digit decimals positive range =>
      intro member
      rcases List.mem_cons.mp member with first | member
      · cases first
      · rcases List.mem_append.mp member with space | decimal
        · cases spaces 0 space
        · cases decimals 0 decimal
  rcases same with rfl | rfl
  · exact free
  · intro member
    rcases List.mem_append.mp member with inside | newline
    · exact free inside
    · cases List.mem_singleton.mp newline

/-- `sscanf` reads the numeral of a documented string, with or without the newline behind it. -/
theorem scanInterval_numeral {blanks digits : Bytes} (rest : Bytes) (spaces : ∀ c ∈ blanks, isSpace c = true)
    (digit : digits ≠ []) (decimals : ∀ c ∈ digits, isDigit c = true) (range : numeral digits < 2 ^ 32)
    (ends : ∀ c ∈ rest.head?, isDigit c = false) :
    scanInterval (49 :: (blanks ++ (digits ++ rest))) = some (numeral digits) := by
  obtain ⟨first, others, rfl⟩ := List.exists_cons_of_ne_nil digit
  have solid : ¬ isSpace first = true := Bool.eq_false_iff.mp (isSpace_of_isDigit (decimals first List.mem_cons_self))
  have begins : (blanks ++ (first :: others ++ rest)).dropWhile isSpace = first :: others ++ rest := by
    rw [List.dropWhile_append_of_pos spaces, List.cons_append, List.dropWhile_cons_of_neg solid]
  have stops : rest.takeWhile isDigit = [] := by
    cases rest with
    | nil => rfl
    | cons c rest => rw [List.takeWhile_cons_of_neg (Bool.eq_false_iff.mp (ends c rfl))]
  have taken : (first :: others ++ rest).takeWhile isDigit = first :: others := by
    rw [List.takeWhile_append_of_pos decimals, stops, List.append_nil]
  rw [scanInterval, begins, taken]
  exact congrArg some (Nat.mod_eq_of_lt range)

/-- A string of the grammar has the documented effect. -/
theorem effect_of_accepted {ubuf : Bytes} {command : Command} (accepted : Accepted ubuf command)
    (short : ubuf.length < 64) (before : Settings) : effect (cfgWrite ubuf false) before = command.apply before := by
  have scanned := cstr_of_accepted accepted
  obtain ⟨text, documented, same⟩ := accepted
  unfold cfgWrite
  rw [if_neg (Nat.not_le.mpr short), if_neg Bool.false_ne_true, scanned]
  cases documented with
  | disable => rcases same with rfl | rfl <;> rfl
  | enable => rcases same with rfl | rfl <;> rfl
  | @sampleEvery blanks digits blank spaces digit decimals positive range =>
    obtain ⟨rest, rfl, ends⟩ : ∃ rest, ubuf = 49 :: (blanks ++ (digits ++ rest)) ∧
        ∀ c ∈ rest.head?, isDigit c = false := by
      rcases same with rfl | rfl
      · exact ⟨[], by rw [List.append_nil], fun _ member => nomatch member⟩
      · refine ⟨[10], by simp only [List.cons_append, List.append_assoc], fun c member => ?_⟩
        cases member
        decide
    rw [scanInterval_numeral rest spaces digit decimals range ends]
    dsimp only
    rw [if_pos positive]
    rfl

/-- The settings already are what a string that begins like this would make them. -/
def Harmless (ubuf : Bytes) (before : Settings) : Prop :=
  (ubuf.head? = some 48 → before.enabled = false) ∧
    (ubuf.head? = some 49 → before.enabled = true ∧
      ∀ interval ∈ scanInterval (cstr ubuf), interval = 0 ∨ interval = before.interval)

theorem effect_eq_self_iff {ubuf : Bytes} (short : ubuf.length < 64) (before : Settings) :
    effect (cfgWrite ubuf false) before = before ↔ Harmless ubuf before := by
  obtain ⟨enabled, interval⟩ := before
  unfold cfgWrite
  rw [if_neg (Nat.not_le.mpr short), if_neg Bool.false_ne_true]
  split
  · next rest =>
    cases scanned : scanInterval (cstr (49 :: rest)) with
    | none => simp [Harmless, effect, scanned, eq_comm]
    | some found =>
      rcases Nat.eq_zero_or_pos found with rfl | positive
      · simp [Harmless, effect, scanned, eq_comm]
      · simp [Harmless, effect, scanned, positive, Nat.ne_of_gt positive, eq_comm]
  · simp [Harmless, effect, eq_comm]
  · next other one zero =>
    have notOne : ubuf.head? ≠ some 49 := by
      cases ubuf with
      | nil => exact nofun
      | cons c rest =>
        rintro same
        cases same
        exact one rest rfl
    have notZero : ubuf.head? ≠ some 48 := by
      cases ubuf with
      | nil => exact nofun
      | cons c rest =>
        rintro same
        cases same
        exact zero rest rfl
    exact ⟨fun _ => ⟨fun first => absurd first notZero, fun first => absurd first notOne⟩, fun _ => rfl⟩

theorem obeys_effect_iff {ubuf : Bytes} (short : ubuf.length < 64) (before : Settings) :
    Obeys ubuf before (effect (cfgWrite ubuf false) before) ↔
      (∃ command, Accepted ubuf command) ∨ Harmless ubuf before := by
  rw [← effect_eq_self_iff short]
  constructor
  · intro obeys
    by_cases accepted : ∃ command, Accepted ubuf command
    · exact .inl accepted
    · exact .inr (obeys.other (not_exists.mp accepted))
  · intro either
    refine ⟨fun command accepted => effect_of_accepted accepted short before, fun none => ?_⟩
    rcases either with ⟨command, accepted⟩ | same
    · exact absurd accepted (none command)
    · exact same

/-- A string of fewer than 64 bytes written in any state returns, and then has done what the contract says
exactly when it is in the grammar or the settings already were what it sets. -/
theorem cfgWrite_obeys_iff {ubuf : Bytes} (short : ubuf.length < 64) (s : Sampler) :
    (∃ events t, (∀ event ∈ events, Alone s.calls.length event) ∧
      Sampler.machine.run s (.write ubuf false :: events) = some t ∧ Returned t s.calls.length) ∧
    ∀ events t, (∀ event ∈ events, Alone s.calls.length event) →
      Sampler.machine.run s (.write ubuf false :: events) = some t → Returned t s.calls.length →
      (Obeys ubuf (settings s) (settings t) ↔ (∃ command, Accepted ubuf command) ∨ Harmless ubuf (settings s)) := by
  constructor
  · have begun : (s.calls ++ [⟨ubuf.length, cfgWrite ubuf false⟩])[s.calls.length]? = some _ :=
      List.getElem?_concat_length
    obtain ⟨events, t, alone, ran, returned⟩ :=
      returns_of_found (s := { s with calls := s.calls ++ [⟨ubuf.length, cfgWrite ubuf false⟩] }) begun
    exact ⟨events, t, alone, ran, returned⟩
  · intro events t alone ran returned
    rw [settings_of_returned alone ran returned]
    exact obeys_effect_iff short (settings s)

theorem cfgWrite_obeys_interval : (literal "1 250\n").length < 64 ∧
    ((∃ events t, (∀ event ∈ events, Alone 0 event) ∧
      Sampler.machine.run .start (.write (literal "1 250\n") false :: events) = some t ∧ Returned t 0) ∧
    ∀ events t, (∀ event ∈ events, Alone 0 event) →
      Sampler.machine.run .start (.write (literal "1 250\n") false :: events) = some t → Returned t 0 →
      (Obeys (literal "1 250\n") (settings .start) (settings t) ↔
        (∃ command, Accepted (literal "1 250\n") command) ∨ Harmless (literal "1 250\n") (settings .start))) :=
  ⟨by decide, cfgWrite_obeys_iff (by decide) .start⟩

/-- A numeral that follows the `'1'` without a blank is not in the grammar. -/
theorem not_accepted_glued (command : Command) : ¬ Accepted (literal "12") command := by
  rintro ⟨text, documented, same⟩
  cases documented with
  | disable => rcases same with same | same <;> cases same
  | enable => rcases same with same | same <;> cases same
  | @sampleEvery blanks digits blank spaces =>
    obtain ⟨first, others, rfl⟩ := List.exists_cons_of_ne_nil blank
    have second : first = 50 := by
      rcases same with same | same
      · injection same with _ same
        injection same with same
        exact same.symm
      · injection same with _ same
        injection same with same
        exact same.symm
    have space := spaces first List.mem_cons_self
    rw [second] at space
    cases space

/-- `"12"` switches sampling on, with an interval of 2. -/
theorem glued_numeral_disobeys : ∃ t,
    Sampler.machine.run .start [.write (literal "12") false, .advance 0, .advance 0, .advance 0] = some t ∧
      Returned t 0 ∧ settings t = ⟨true, 2⟩ ∧ ¬ Obeys (literal "12") (settings .start) (settings t) := by
  refine ⟨_, rfl, ⟨_, rfl, rfl⟩, rfl, fun obeys => ?_⟩
  exact nomatch obeys.other not_accepted_glued

end ProcessMonitor.Soundness.ConfigGrammar
