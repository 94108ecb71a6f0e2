import ProcessMonitor.Machine.Core.Run
import ProcessMonitor.Soundness.BreakerAccounting

/-! # The retry loops end

A pass of the loop leaves it, times out, or sleeps and goes round again. The backoff never sleeps for less
than a microsecond, so after 1000 rounds for each millisecond of the timeout the clock has advanced by the
timeout, truncated to milliseconds or not, and the next pass that would go round again times out.
-/

namespace ProcessMonitor.Soundness.RetryLoop

open Machine Machine.Posix Model.LibPm
open BreakerAccounting (atMs smooth)

/-! ## One pass -/

section Pass

variable (requested : ℕ) (complete : ℕ → Bool)

/-- The pass goes to `retry`. -/
def Retries (errno : Errno) (pass : Pass) : Prop := (pass.verdict requested complete errno).1 = .retry

instance (errno : Errno) (pass : Pass) : Decidable (Retries requested complete errno pass) :=
  inferInstanceAs (Decidable (_ = _))

/-- The time is up at the test of the timeout. -/
def Late (timeoutMs : UInt32) (t0 : ℕ) (pass : Pass) : Prop :=
  timeoutMs.toNat ≤ u64 (nowMs pass.check.toTimespec + 2 ^ 64 - t0)

instance (timeoutMs : UInt32) (t0 : ℕ) (pass : Pass) : Decidable (Late timeoutMs t0 pass) :=
  inferInstanceAs (Decidable (_ ≤ _))

/-- `errno` after a pass that has slept. -/
def errnoAfter (errno : Errno) (pass : Pass) : Errno :=
  pass.sleepErr.getD (pass.verdict requested complete errno).2

/-- `errno` from pass to pass. -/
def errnoMachine : EventMachine Errno Pass := ⟨fun errno pass => some (errnoAfter requested complete errno pass)⟩

/-- The library after a pass that goes round again. -/
def goneRound (lib : LibPm) (pass : Pass) : LibPm :=
  { lib with
    gStats.ioRetry := lib.gStats.ioRetry + 1
    errno := errnoAfter requested complete lib.errno pass }

end Pass

section Step

variable (path : Bytes) {requested t0 : ℕ} {complete : ℕ → Bool} {lib : LibPm} (bo : PmBackoff) {pass : Pass}

theorem retryLoop_leaves (t0 : ℕ) (leaves : ¬ Retries requested complete lib.errno pass) (passes : List Pass) :
    ∃ o, retryLoop path requested complete t0 lib bo (pass :: passes) = some o ∧ o.opened = [path] ∧
      (o.rc = .ok → ∃ n, (pass.verdict requested complete lib.errno).1 = .success n) := by
  rw [Retries] at leaves
  rw [retryLoop]
  generalize pass.verdict requested complete lib.errno = judged at leaves ⊢
  obtain ⟨verdict, errno⟩ := judged
  cases verdict with
  | openError | pollTimeout | pollError | ioError => exact ⟨_, rfl, rfl, fun returned => by cases returned⟩
  | success n => exact ⟨_, rfl, rfl, fun _ => ⟨n, rfl⟩⟩
  | retry => exact absurd rfl leaves

theorem retryLoop_late (retries : Retries requested complete lib.errno pass) (late : Late lib.gCfg.timeoutMs t0 pass)
    (passes : List Pass) :
    ∃ o, retryLoop path requested complete t0 lib bo (pass :: passes) = some o ∧ o.opened = [path] ∧
      o.rc = .timeout := by
  rw [Retries] at retries
  rw [Late] at late
  rw [retryLoop]
  generalize pass.verdict requested complete lib.errno = judged at retries ⊢
  obtain ⟨verdict, errno⟩ := judged
  cases retries
  dsimp only
  rw [if_pos late]
  exact ⟨_, rfl, rfl, rfl⟩

theorem retryLoop_again (retries : Retries requested complete lib.errno pass)
    (early : ¬ Late lib.gCfg.timeoutMs t0 pass) (passes : List Pass) :
    retryLoop path requested complete t0 lib bo (pass :: passes) =
      (retryLoop path requested complete t0 (goneRound requested complete lib pass) (pmBackoffNext bo).2 passes).map
        fun o => { o with opened := path :: o.opened, slept := (pmBackoffNext bo).1 :: o.slept } := by
  rw [Retries] at retries
  rw [Late] at early
  rw [retryLoop, goneRound, errnoAfter]
  generalize pass.verdict requested complete lib.errno = judged at retries ⊢
  obtain ⟨verdict, errno⟩ := judged
  cases retries
  dsimp only
  rw [if_neg early]

end Step

/-! ## The delays -/

/-- The state of a backoff in use. -/
structure Backing (bo : PmBackoff) : Prop where
  delay : 0 < bo.curUs
  word : bo.curUs < 2 ^ 32
  max : 0 < bo.maxUs
  maxWord : bo.maxUs < 2 ^ 32

theorem backing_init (initUs maxUs : UInt32) : Backing (pmBackoffInit initUs maxUs) := by
  have positive {n : UInt32} (nonzero : n ≠ 0) : 0 < n.toNat :=
    Nat.pos_of_ne_zero fun zero => nonzero (UInt32.toNat_inj.mp zero)
  unfold pmBackoffInit
  refine ⟨?_, ?_, ?_, ?_⟩
  · dsimp only
    split
    · decide
    · next nonzero => exact positive nonzero
  · dsimp only
    split
    · decide
    · exact initUs.toNat_lt
  · dsimp only
    split
    · decide
    · next nonzero => exact positive nonzero
  · dsimp only
    split
    · decide
    · exact maxUs.toNat_lt

section Next

variable {bo : PmBackoff} (backing : Backing bo)
include backing

/-- Neither the doubling nor the conversion back to 32 bits wraps. -/
theorem Backing.curUs_next : (pmBackoffNext bo).2.curUs = min (bo.curUs * 2) bo.maxUs := by
  obtain ⟨delay, word, max, maxWord⟩ := backing
  have exact : u64 (bo.curUs * 2) = bo.curUs * 2 := Nat.mod_eq_of_lt (by omega)
  rw [pmBackoffNext, exact]
  dsimp only
  split
  · next above => exact (Nat.min_eq_right above.le).symm
  · next fits =>
    rw [Nat.min_eq_left (Nat.le_of_not_lt fits)]
    exact Nat.mod_eq_of_lt (by omega)

theorem Backing.next : Backing (pmBackoffNext bo).2 := by
  have doubled := backing.curUs_next
  obtain ⟨delay, word, max, maxWord⟩ := backing
  exact ⟨by omega, by omega, max, maxWord⟩

end Next

/-! ## The clock -/

theorem nowMs_instant (t : Instant) : nowMs t.toTimespec = t.ms := by
  apply BreakerHistory.Tracks.nowMs_eq
  have sec := t.sec_lt
  have nsec := t.nsec_lt
  omega

/-- While there is time left, less than the timeout has passed. -/
theorem nanos_lt_of_not_late {timeoutMs : UInt32} {start : Instant} {pass : Pass} (ordered : start ≤ pass.check)
    (early : ¬ Late timeoutMs (nowMs start.toTimespec) pass) :
    pass.check.nanos < start.nanos + 1000000 * timeoutMs.toNat := by
  have forward := Instant.ms_mono ordered
  have sec := pass.check.sec_lt
  have nsec := pass.check.nsec_lt
  have bound : pass.check.ms < 2 ^ 64 := by
    rw [Timespec.ms]
    omega
  have elapsed : u64 (pass.check.ms + 2 ^ 64 - start.ms) = pass.check.ms - start.ms := by
    rw [u64, show pass.check.ms + 2 ^ 64 - start.ms = pass.check.ms - start.ms + 2 ^ 64 by omega, Nat.add_mod_right]
    exact Nat.mod_eq_of_lt (by omega)
  rw [Late, nowMs_instant, nowMs_instant, elapsed, Timespec.ms_eq, Timespec.ms_eq] at early
  omega

/-- The clock does not go back, and a pass that sleeps ends no earlier than its delay after the test of the
timeout. Nothing is asked of passes that are not made. -/
def Clocked (requested : ℕ) (complete : ℕ → Bool) (timeoutMs : UInt32) (t0 : ℕ) :
    Errno → PmBackoff → Instant → List Pass → Prop
  | _, _, _, [] => True
  | errno, bo, now, pass :: passes =>
    now ≤ pass.check ∧
      (Retries requested complete errno pass → ¬ Late timeoutMs t0 pass →
        pass.check.nanos + 1000 * (pmBackoffNext bo).1 ≤ pass.ends.nanos ∧
          Clocked requested complete timeoutMs t0 (errnoAfter requested complete errno pass) (pmBackoffNext bo).2
            pass.ends passes)

/-- From the `k`-th pass on: enough passes return, within the bound, and with a timeout if all passes made
go to `retry`. -/
theorem retryLoop_ends (path : Bytes) {requested : ℕ} {complete : ℕ → Bool} {start : Instant} {passes : List Pass}
    {lib : LibPm} {bo : PmBackoff} {now : Instant} {k : ℕ} (backing : Backing bo)
    (clocked : Clocked requested complete lib.gCfg.timeoutMs (nowMs start.toTimespec) lib.errno bo now passes)
    (elapsed : start.nanos + 1000 * k ≤ now.nanos) (within : k ≤ 1000 * lib.gCfg.timeoutMs.toNat) :
    (1000 * lib.gCfg.timeoutMs.toNat + 1 ≤ k + passes.length →
      ∃ o, retryLoop path requested complete (nowMs start.toTimespec) lib bo passes = some o) ∧
    ∀ o, retryLoop path requested complete (nowMs start.toTimespec) lib bo passes = some o →
      k + o.opened.length ≤ 1000 * lib.gCfg.timeoutMs.toNat + 1 ∧
        ((errnoMachine requested complete).Along (Retries requested complete) lib.errno
          (passes.take o.opened.length) → o.rc = .timeout) := by
  induction passes generalizing lib bo now k with
  | nil =>
    refine ⟨fun enough => ?_, fun o returned => nomatch returned⟩
    rw [List.length_nil] at enough
    omega
  | cons pass passes ih =>
    obtain ⟨forward, sleeps⟩ := clocked
    have reached : start.nanos ≤ pass.check.nanos := by
      have later : now.nanos ≤ pass.check.nanos := forward
      omega
    by_cases retries : Retries requested complete lib.errno pass
    · by_cases late : Late lib.gCfg.timeoutMs (nowMs start.toTimespec) pass
      · obtain ⟨left, returned, opened, rc⟩ := retryLoop_late path bo retries late passes
        refine ⟨fun _ => ⟨left, returned⟩, fun o same => ?_⟩
        cases returned.symm.trans same
        rw [opened, List.length_singleton]
        exact ⟨by omega, fun _ => rc⟩
      · obtain ⟨slept, rest⟩ := sleeps retries late
        have soon := nanos_lt_of_not_late reached late
        have delay := backing.delay
        have later : now.nanos ≤ pass.check.nanos := forward
        have further : start.nanos + 1000 * (k + 1) ≤ pass.ends.nanos := by
          rw [pmBackoffNext] at slept
          dsimp only at slept
          omega
        have more : k + 1 ≤ 1000 * (goneRound requested complete lib pass).gCfg.timeoutMs.toNat := by
          change k + 1 ≤ 1000 * lib.gCfg.timeoutMs.toNat
          omega
        obtain ⟨returns, bounded⟩ := ih backing.next rest further more
        rw [retryLoop_again path bo retries late]
        constructor
        · intro enough
          obtain ⟨o, returned⟩ := returns (by
            rw [List.length_cons] at enough
            change 1000 * lib.gCfg.timeoutMs.toNat + 1 ≤ k + 1 + passes.length
            omega)
          exact ⟨_, by rw [returned]; rfl⟩
        · intro o mapped
          obtain ⟨o, returned, rfl⟩ := Option.map_eq_some_iff.mp mapped
          obtain ⟨few, timesOut⟩ := bounded o returned
          refine ⟨?_, fun along => timesOut (along.2 _ rfl)⟩
          dsimp only
          rw [List.length_cons]
          change k + 1 + o.opened.length ≤ 1000 * lib.gCfg.timeoutMs.toNat + 1 at few
          omega
    · obtain ⟨left, returned, opened, -⟩ :=
        retryLoop_leaves path bo (nowMs start.toTimespec) retries passes
      refine ⟨fun _ => ⟨left, returned⟩, fun o same => ?_⟩
      cases returned.symm.trans same
      rw [opened, List.length_singleton]
      exact ⟨by omega, fun along => absurd along.1 retries⟩

/-! ## The calls -/

/-- The readings of a script are those of a clock that does not go back and that sleeping advances. -/
def ScriptClocked (lib : LibPm) (requested : ℕ) (complete : ℕ → Bool) (script : Script) : Prop :=
  Clocked requested complete lib.gCfg.timeoutMs (nowMs script.start.toTimespec) lib.errno
    (pmBackoffInit lib.gCfg.backoffInitUs lib.gCfg.backoffMaxUs) script.start script.passes

/-- The call returns before it runs out of passes, if there are as many as it may open the file, and never
opens it more often; if it is let through and makes no pass but to retry, it times out. -/
structure EndsInTime (lib : LibPm) (requested : ℕ) (complete : ℕ → Bool) (script : Script) (result : Option Outcome) :
    Prop where
  returns : 1000 * lib.gCfg.timeoutMs.toNat + 1 ≤ script.passes.length → ∃ o, result = some o
  bounded : ∀ o, result = some o → o.opened.length ≤ 1000 * lib.gCfg.timeoutMs.toNat + 1
  timesOut : ∀ o, result = some o → (pmBreakerAllow lib.gCb script.enter).2 = true →
    (errnoMachine requested complete).Along (Retries requested complete) lib.errno
      (script.passes.take o.opened.length) → o.rc = .timeout

theorem textFile_endsInTime {lib : LibPm} {requested : ℕ} {complete : ℕ → Bool} {script : Script} (path : Bytes)
    (clocked : ScriptClocked lib requested complete script) :
    EndsInTime lib requested complete script (textFile lib path requested complete script) := by
  cases answer : (pmBreakerAllow lib.gCb script.enter).2 with
  | false =>
    rw [textFile_of_denied answer]
    refine ⟨fun _ => ⟨_, rfl⟩, fun o same => ?_, fun o _ admitted => absurd (answer.symm.trans admitted) nofun⟩
    cases same
    exact Nat.zero_le _
  | true =>
    rw [textFile_of_allowed answer]
    have loop : Clocked requested complete
        ({ lib with gCb := (pmBreakerAllow lib.gCb script.enter).1 } : LibPm).gCfg.timeoutMs
        (nowMs script.start.toTimespec) lib.errno _ script.start script.passes := clocked
    obtain ⟨returns, bounded⟩ := retryLoop_ends path (k := 0)
      (backing_init lib.gCfg.backoffInitUs lib.gCfg.backoffMaxUs) loop (by omega) (Nat.zero_le _)
    rw [Nat.zero_add] at returns
    refine ⟨returns, fun o returned => ?_, fun o returned _ => (bounded o returned).2⟩
    have few := (bounded o returned).1
    rwa [Nat.zero_add] at few

/-- Whatever the system calls return, both loops end in time. -/
theorem retry_loops_end (lib : LibPm) (path : Bytes) (script : Script) :
    (∀ buflen, ScriptClocked lib (if buflen = 0 then 0 else buflen - 1) (fun _ => true) script →
      EndsInTime lib (if buflen = 0 then 0 else buflen - 1) (fun _ => true) script
        (readTextFile lib path buflen script)) ∧
    ∀ len : UInt32, ScriptClocked lib len.toNat (fun n => n = len.toNat) script →
      EndsInTime lib len.toNat (fun n => n = len.toNat) script (writeTextFile lib path len script) :=
  ⟨fun _ clocked => textFile_endsInTime path clocked, fun _ clocked => textFile_endsInTime path clocked⟩

/-- The descriptor table stays full for the one millisecond the call has. -/
def fullScript : Script :=
  ⟨atMs 0, atMs 0,
    [{ smooth (atMs 0) with openErr := some .emfile, ends := atMs 1 },
      { smooth (atMs 1) with openErr := some .emfile }]⟩

def impatient : LibPm := pmInit (some { defaultCfg with timeoutMs := 1 })

theorem retry_loops_end_full : ScriptClocked impatient 63 (fun _ => true) fullScript ∧
    ScriptClocked impatient 4 (fun n => n = 4) fullScript ∧
    (∃ o, readTextFile impatient (literal "/proc/pm/cpu/data") 64 fullScript = some o ∧ o.opened.length = 2 ∧
      o.rc = .timeout) ∧
    ∃ o, writeTextFile impatient (literal "/proc/pm/cpu/config") 4 fullScript = some o ∧ o.opened.length = 2 ∧
      o.rc = .timeout := by
  have clocked (requested : ℕ) (complete : ℕ → Bool) : ScriptClocked impatient requested complete fullScript := by
    refine ⟨by decide, fun _ _ => ⟨by decide, by decide, fun _ early => absurd ?_ early⟩⟩
    decide
  have reads := (retry_loops_end impatient (literal "/proc/pm/cpu/data") fullScript).1 64 (clocked _ _)
  have writes := (retry_loops_end impatient (literal "/proc/pm/cpu/config") fullScript).2 4 (clocked _ _)
  refine ⟨clocked _ _, clocked _ _, ?_, ?_⟩
  · obtain ⟨o, returned, opened⟩ : ∃ o, readTextFile impatient (literal "/proc/pm/cpu/data") 64 fullScript = some o ∧
        o.opened.length = 2 := ⟨_, rfl, rfl⟩
    refine ⟨o, returned, opened, reads.timesOut o returned rfl ?_⟩
    rw [opened]
    decide
  · obtain ⟨o, returned, opened⟩ : ∃ o, writeTextFile impatient (literal "/proc/pm/cpu/config") 4 fullScript = some o ∧
        o.opened.length = 2 := ⟨_, rfl, rfl⟩
    refine ⟨o, returned, opened, writes.timesOut o returned rfl ?_⟩
    rw [opened]
    decide

end ProcessMonitor.Soundness.RetryLoop
