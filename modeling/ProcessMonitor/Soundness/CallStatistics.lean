import Mathlib.Data.List.Count
import ProcessMonitor.Soundness.BreakerAccounting

/-! # What the statistics know of the calls

Each return code has one counter. A call should raise the counter of the code it returns, on every way
out of the loop. Two ways out return `PM_IOERR` and raise none: an `open` that fails for good, and a
`poll` that fails with anything but `EINTR`. The scripts here list the passes a call makes and no others, so
that the condition on them is exact.
-/

namespace ProcessMonitor.Soundness.CallStatistics

open Machine Machine.Posix Model.LibPm
open BreakerAccounting (Opens atMs smooth)

/-! ## One call -/

/-- If `poll` is called and fails, it was interrupted. -/
def Polls (pass : Pass) : Prop := pass.openErr = none → ∀ e, pass.poll = .fault e → e = .eintr

/-- The pass goes on, or leaves by a way that counts. -/
def Noticed (pass : Pass) : Prop := Opens pass ∧ Polls pass

/-- A way out of the loop without a counter. -/
def Silent (verdict : Verdict) : Prop := verdict = .openError ∨ verdict = .pollError

theorem silent_verdict_iff (pass : Pass) (requested : ℕ) (complete : ℕ → Bool) (errno : Errno) :
    Silent (pass.verdict requested complete errno).1 ↔ ¬ Noticed pass := by
  unfold Pass.verdict Noticed Polls Opens
  cases pass.openErr with
  | some e =>
    by_cases later : e = .eagain ∨ e = .emfile
    · simp [later, Silent]
    · simp [later, Silent]
  | none =>
    cases pass.poll with
    | timeout => simp [Silent]
    | fault e =>
      by_cases interrupted : e = .eintr
      · simp [interrupted, Silent]
      · simp [interrupted, Silent]
    | ready =>
      cases pass.io with
      | ok n =>
        dsimp only
        split_ifs <;> simp [Silent]
      | error e =>
        dsimp only
        split_ifs <;> simp [Silent]

/-- The counter that belongs to a return code. -/
def counter (stats : PmStats) : PmRc → ℕ
  | .ok => stats.ioOk
  | .again => stats.breakerTrips
  | .timeout => stats.ioTimeout
  | .ioerr => stats.ioErr

/-- The call has raised the counter of its return code by one and no other. -/
def Counted (before : PmStats) (o : Outcome) : Prop :=
  ∀ rc, counter o.lib.gStats rc = counter before rc + if rc = o.rc then 1 else 0

/-- The call has failed and left the counters as they were. -/
def Uncounted (before : PmStats) (o : Outcome) : Prop :=
  o.rc = .ioerr ∧ ∀ rc, counter o.lib.gStats rc = counter before rc

/-- What one call does to the counters, given whether all its passes are noticed. -/
def Accounts (before : PmStats) (noticed : Prop) (o : Outcome) : Prop :=
  noticed ∧ Counted before o ∨ ¬ noticed ∧ Uncounted before o

/-- `io_retry` is no counter of a return code. -/
theorem counter_retry (stats : PmStats) (n : ℕ) (rc : PmRc) :
    counter { stats with ioRetry := n } rc = counter stats rc := by
  cases rc <;> rfl

theorem Accounts.of_retry {stats : PmStats} {n : ℕ} {noticed : Prop} {o : Outcome}
    (accounts : Accounts { stats with ioRetry := n } noticed o) : Accounts stats noticed o := by
  simpa only [Accounts, Counted, Uncounted, counter_retry] using accounts

theorem counted_timeout (lib : LibPm) (path : Bytes) (pass : Pass) :
    Counted lib.gStats ({ lib with gStats.ioTimeout := lib.gStats.ioTimeout + 1 }.leave path pass .timeout false) := by
  intro rc
  cases rc <;> rfl

theorem counted_ioError (lib : LibPm) (path : Bytes) (pass : Pass) :
    Counted lib.gStats ({ lib with gStats.ioErr := lib.gStats.ioErr + 1 }.leave path pass .ioerr false) := by
  intro rc
  cases rc <;> rfl

theorem counted_success (lib : LibPm) (path : Bytes) (pass : Pass) (n : ℕ) :
    Counted lib.gStats
      { { lib with gStats.ioOk := lib.gStats.ioOk + 1 }.leave path pass .ok true with count := some n } := by
  intro rc
  cases rc <;> rfl

/-- A call that makes a first pass and leaves has no other. -/
theorem forall_noticed_single {pass : Pass} {passes : List Pass} (made : 1 = (pass :: passes).length) :
    (∀ other ∈ pass :: passes, Noticed other) ↔ Noticed pass := by
  rw [List.eq_nil_of_length_eq_zero (by rw [List.length_cons] at made; omega : passes.length = 0)]
  exact List.forall_mem_singleton

/-- The loop counts the call exactly if no pass leaves silently. -/
theorem retryLoop_accounts {path : Bytes} {requested t0 : ℕ} {complete : ℕ → Bool} {lib : LibPm} {bo : PmBackoff}
    {passes : List Pass} {o : Outcome} (returned : retryLoop path requested complete t0 lib bo passes = some o)
    (made : o.opened.length = passes.length) : Accounts lib.gStats (∀ pass ∈ passes, Noticed pass) o := by
  induction passes generalizing lib bo o with
  | nil => cases returned
  | cons pass passes ih =>
    have silent := silent_verdict_iff pass requested complete lib.errno
    rw [retryLoop] at returned
    generalize pass.verdict requested complete lib.errno = judged at silent returned
    obtain ⟨verdict, errno⟩ := judged
    have loud (counts : ¬ Silent verdict) : Noticed pass := not_not.mp fun unnoticed => counts (silent.mpr unnoticed)
    cases verdict with
    | openError =>
      cases returned
      rw [forall_noticed_single made]
      exact .inr ⟨silent.mp (.inl rfl), rfl, fun _ => rfl⟩
    | pollError =>
      cases returned
      rw [forall_noticed_single made]
      exact .inr ⟨silent.mp (.inr rfl), rfl, fun _ => rfl⟩
    | pollTimeout =>
      cases returned
      rw [forall_noticed_single made]
      exact .inl ⟨loud (by simp [Silent]), counted_timeout _ path pass⟩
    | ioError =>
      cases returned
      rw [forall_noticed_single made]
      exact .inl ⟨loud (by simp [Silent]), counted_ioError _ path pass⟩
    | success n =>
      cases returned
      rw [forall_noticed_single made]
      exact .inl ⟨loud (by simp [Silent]), counted_success _ path pass n⟩
    | retry =>
      have noticed : Noticed pass := loud (by simp [Silent])
      dsimp only at returned
      split at returned
      next =>
        cases returned
        rw [forall_noticed_single made]
        exact .of_retry (.inl ⟨noticed, counted_timeout _ path pass⟩)
      next =>
        obtain ⟨rest, looped, rfl⟩ := Option.map_eq_some_iff.mp returned
        rw [List.length_cons, List.length_cons, Nat.add_right_cancel_iff] at made
        rw [List.forall_mem_cons, and_iff_right noticed]
        have later := ih looped made
        exact later.of_retry

theorem textFile_accounts {lib : LibPm} {path : Bytes} {requested : ℕ} {complete : ℕ → Bool} {script : Script}
    {o : Outcome} (returned : textFile lib path requested complete script = some o)
    (made : o.opened.length = script.passes.length) :
    Accounts lib.gStats (∀ pass ∈ script.passes, Noticed pass) o := by
  cases answer : (pmBreakerAllow lib.gCb script.enter).2 with
  | false =>
    rw [textFile_of_denied answer] at returned
    cases returned
    refine .inl ⟨?_, fun rc => by cases rc <;> rfl⟩
    rw [List.eq_nil_of_length_eq_zero made.symm]
    exact fun pass member => absurd member List.not_mem_nil
  | true =>
    rw [textFile_of_allowed answer] at returned
    have accounts := retryLoop_accounts returned made
    exact accounts

theorem exec_accounts {call : Call} {lib : LibPm} {script : Script} {o : Outcome}
    (returned : call.exec lib script = some o) (made : o.opened.length = script.passes.length) :
    Accounts lib.gStats (∀ pass ∈ script.passes, Noticed pass) o := by
  cases call <;> exact textFile_accounts returned made

/-! ## Whole runs -/

/-- The library, and what the calls since the statistics were cleared have returned. -/
structure Ledger where
  lib : LibPm
  returned : List PmRc

namespace Ledger

/-- One call after the other, each with the passes it makes. -/
def step (s : Ledger) (event : Call × Script) : Option Ledger :=
  (event.1.exec s.lib event.2).bind fun o =>
    if o.opened.length = event.2.passes.length then some ⟨o.lib, s.returned ++ [o.rc]⟩ else none

def machine : EventMachine Ledger (Call × Script) := ⟨step⟩

end Ledger

/-- The calls that clear the statistics. -/
inductive Cleared : LibPm → Prop
  | init (opt : Option PmCfg) : Cleared (pmInit opt)
  | initAgain (lib : LibPm) (opt : Option PmCfg) : Cleared (pmInitAgain lib opt)
  | resetStats (lib : LibPm) : Cleared (pmResetStats lib)

theorem Cleared.gStats_eq {lib : LibPm} (cleared : Cleared lib) : lib.gStats = zeroStats := by
  cases cleared <;> rfl

/-- Every call is in the sum of the counters, and each counter counts the calls that returned its code. -/
structure Tallied (stats : PmStats) (returned : List PmRc) : Prop where
  total : returned.length = stats.ioOk + stats.ioTimeout + stats.ioErr + stats.breakerTrips
  each : ∀ rc, counter stats rc = returned.count rc

theorem length_eq_counts (returned : List PmRc) : returned.length =
    returned.count .ok + returned.count .timeout + returned.count .ioerr + returned.count .again := by
  induction returned with
  | nil => rfl
  | cons rc returned ih => cases rc <;> simp [ih] <;> omega

theorem tallied_iff (stats : PmStats) (returned : List PmRc) :
    Tallied stats returned ↔ ∀ rc, counter stats rc = returned.count rc := by
  refine ⟨Tallied.each, fun each => ⟨?_, each⟩⟩
  rw [length_eq_counts, ← each .ok, ← each .timeout, ← each .ioerr, ← each .again]
  rfl

/-- In every state the failures are counted at most once, and everything else exactly once. -/
def Lagging (s : Ledger) : Prop :=
  (∀ rc, rc ≠ .ioerr → counter s.lib.gStats rc = s.returned.count rc) ∧
    counter s.lib.gStats .ioerr ≤ s.returned.count .ioerr

theorem Lagging.tallied_iff {s : Ledger} (lagging : Lagging s) :
    Tallied s.lib.gStats s.returned ↔ counter s.lib.gStats .ioerr = s.returned.count .ioerr := by
  rw [CallStatistics.tallied_iff]
  refine ⟨fun each => each .ioerr, fun failures rc => ?_⟩
  by_cases failed : rc = .ioerr
  · rw [failed, failures]
  · exact lagging.1 rc failed

theorem count_concat (returned : List PmRc) (rc last : PmRc) :
    (returned ++ [last]).count rc = returned.count rc + if rc = last then 1 else 0 := by
  rw [List.count_append, List.count_singleton]
  by_cases same : last = rc
  · rw [same, beq_self_eq_true, if_pos rfl, if_pos rfl]
  · rw [beq_eq_false_iff_ne.mpr same, if_neg (Ne.symm same), if_neg Bool.false_ne_true]

theorem step_inv {s next : Ledger} {event : Call × Script} (moved : Ledger.step s event = some next) :
    ∃ o, Accounts s.lib.gStats (∀ pass ∈ event.2.passes, Noticed pass) o ∧
      next = ⟨o.lib, s.returned ++ [o.rc]⟩ := by
  obtain ⟨o, returned, kept⟩ := Option.bind_eq_some_iff.mp moved
  obtain ⟨made, same⟩ := Option.ite_none_right_eq_some.mp kept
  cases same
  exact ⟨o, exec_accounts returned made, rfl⟩

theorem lagging_step (s : Ledger) (event : Call × Script) (next : Ledger) (lagging : Lagging s)
    (moved : Ledger.machine.step s event = some next) : Lagging next := by
  obtain ⟨o, accounts, rfl⟩ := step_inv moved
  refine ⟨fun rc other => ?_, ?_⟩
  · rw [count_concat, ← lagging.1 rc other]
    rcases accounts with ⟨-, counted⟩ | ⟨-, failed, kept⟩
    · exact counted rc
    · rw [failed, if_neg other]
      exact kept rc
  · rw [count_concat]
    rcases accounts with ⟨-, counted⟩ | ⟨-, -, kept⟩
    · rw [counted]
      exact Nat.add_le_add_right lagging.2 _
    · rw [kept]
      exact lagging.2.trans (Nat.le_add_right _ _)

theorem tallied_step (s : Ledger) (event : Call × Script) (next : Ledger) (lagging : Lagging s)
    (moved : Ledger.machine.step s event = some next) :
    Tallied next.lib.gStats next.returned ↔
      Tallied s.lib.gStats s.returned ∧ ∀ pass ∈ event.2.passes, Noticed pass := by
  rw [(lagging_step s event next lagging moved).tallied_iff, lagging.tallied_iff]
  obtain ⟨o, accounts, rfl⟩ := step_inv moved
  dsimp only
  rw [count_concat]
  rcases accounts with ⟨noticed, counted⟩ | ⟨unnoticed, failed, kept⟩
  · rw [counted, Nat.add_right_cancel_iff]
    exact (and_iff_left noticed).symm
  · rw [kept, failed, if_pos rfl]
    have := lagging.2
    exact ⟨fun same => by omega, fun both => absurd both.2 unnoticed⟩

/-- After the statistics are cleared, they account for the calls made exactly as long as every pass of every
call is noticed. -/
theorem calls_tallied_iff {lib : LibPm} (cleared : Cleared lib) {events : List (Call × Script)} {s : Ledger}
    (ran : Ledger.machine.run ⟨lib, []⟩ events = some s) :
    Tallied s.lib.gStats s.returned ↔ ∀ event ∈ events, ∀ pass ∈ event.2.passes, Noticed pass := by
  have zero (rc : PmRc) : counter lib.gStats rc = 0 := by
    rw [cleared.gStats_eq]
    cases rc <;> rfl
  have lagging : Lagging ⟨lib, []⟩ := ⟨fun rc _ => zero rc, (zero .ioerr).le⟩
  rw [EventMachine.holds_iff_along Lagging (fun s => Tallied s.lib.gStats s.returned) lagging_step tallied_step
    lagging ran, and_iff_right ((tallied_iff _ _).mpr zero), EventMachine.along_iff_forall ran]

/-- Calls of `pm_read_status` that make one pass each. -/
def statusCalls (passes : List Pass) : List (Call × Script) :=
  passes.map fun pass => (.readStatus .cpu 128, ⟨atMs 0, atMs 0, [pass]⟩)

/-- A pass on which `poll` times out. -/
def idle : Pass := { smooth (atMs 200) with poll := .timeout }

theorem calls_tallied_iff_idle : ∃ s,
    Ledger.machine.run ⟨pmInit none, []⟩ (statusCalls [smooth (atMs 1), idle]) = some s ∧
      s.returned = [.ok, .timeout] ∧ Tallied s.lib.gStats s.returned := by
  have evaluated : (Ledger.machine.run ⟨pmInit none, []⟩ (statusCalls [smooth (atMs 1), idle])).map Ledger.returned =
      some [.ok, .timeout] := by decide +kernel
  obtain ⟨s, ran, returned⟩ := Option.map_eq_some_iff.mp evaluated
  refine ⟨s, ran, returned, (calls_tallied_iff (.init none) ran).mpr ?_⟩
  simp [statusCalls, Noticed, Opens, Polls, smooth, idle]

/-- A file that does not exist and a `poll` that fails: two failed calls, and all counters at zero. -/
theorem failures_uncounted : ∃ s,
    Ledger.machine.run ⟨pmInit none, []⟩ (statusCalls
      [{ smooth (atMs 1) with openErr := some (.other 2) }, { smooth (atMs 2) with poll := .fault (.other 12) }]) =
        some s ∧
      s.returned = [.ioerr, .ioerr] ∧ s.lib.gStats = zeroStats ∧ ¬ Tallied s.lib.gStats s.returned := by
  have evaluated : (Ledger.machine.run ⟨pmInit none, []⟩ (statusCalls
      [{ smooth (atMs 1) with openErr := some (.other 2) }, { smooth (atMs 2) with poll := .fault (.other 12) }])).map
        (fun s => (s.returned, s.lib.gStats)) = some ([.ioerr, .ioerr], zeroStats) := by decide +kernel
  obtain ⟨s, ran, same⟩ := Option.map_eq_some_iff.mp evaluated
  obtain ⟨returned, stats⟩ := Prod.mk.inj same
  refine ⟨s, ran, returned, stats, fun tallied => ?_⟩
  have counted := tallied.total
  rw [returned, stats] at counted
  exact absurd counted (by decide)

end ProcessMonitor.Soundness.CallStatistics
