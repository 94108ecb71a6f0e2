import ProcessMonitor.Soundness.RetryLoop

/-! # How the attempts of a write are judged

A write that returns a short count has not failed, so it leaves `errno` as it was, and the loop then judges
the attempt by what an earlier call left there. After an attempt that was rightly retried, a short write is
taken for one that may be repeated, and the file receives part of the payload before the whole of it. This
happens exactly when the last call that failed before the short write failed with `EAGAIN` or `EINTR` and
there is time left. The scripts here list the attempts a call makes and no others.
-/

namespace ProcessMonitor.Soundness.WriteAttempts

open Machine Machine.Posix Model.LibPm RetryLoop
open BreakerAccounting (atMs smooth)

/-! ## What an attempt did -/

/-- The error of a `write` that may succeed later. -/
def Passing (e : Errno) : Prop := e = .eagain ∨ e = .eintr

instance : DecidablePred Passing := fun _ => inferInstanceAs (Decidable (_ ∨ _))

/-- A call of the attempt failed in a way that may pass. -/
def OwnFailure (pass : Pass) : Prop :=
  pass.openErr = some .eagain ∨ pass.openErr = some .emfile ∨
    pass.openErr = none ∧
      (pass.poll = .fault .eintr ∨ pass.poll = .ready ∧ (pass.io = .error .eagain ∨ pass.io = .error .eintr))

/-- Part of the payload was written. -/
def Short (len : ℕ) (pass : Pass) : Prop := pass.openErr = none ∧ pass.poll = .ready ∧ ∃ n < len, pass.io = .ok n

def Whole (len : ℕ) (pass : Pass) : Prop := pass.openErr = none ∧ pass.poll = .ready ∧ ∃ n ≥ len, pass.io = .ok n

/-- What the calls of an attempt that failed have set `errno` to, in order. -/
def errors (pass : Pass) : List Errno :=
  match pass.openErr with
  | some e => e :: pass.sleepErr.toList
  | none =>
    (match pass.poll, pass.io with
      | .fault e, _ => [e]
      | .ready, .error e => [e]
      | _, _ => []) ++ pass.closeErr.toList ++ pass.sleepErr.toList

/-- The error of the last call that failed. -/
def lastError (errno : Errno) (passes : List Pass) : Errno := (passes.flatMap errors).getLast?.getD errno

theorem OwnFailure.not_short {pass : Pass} {len : ℕ} (own : OwnFailure pass) : ¬ Short len pass := by
  rintro ⟨opened, ready, n, -, wrote⟩
  rw [OwnFailure, opened, ready, wrote] at own
  simp at own

section Verdict

variable (len : ℕ) (errno : Errno) (pass : Pass)

/-- An attempt is taken for one to repeat if it failed so, or was short and found `errno` so. -/
theorem retries_iff :
    Retries len (fun n => n = len) errno pass ↔ OwnFailure pass ∨ Short len pass ∧ Passing errno := by
  unfold Retries Pass.verdict OwnFailure Short
  cases pass.openErr with
  | some e =>
    by_cases passing : e = .eagain ∨ e = .emfile
    · simp [passing]
    · simp [passing]
  | none =>
    cases pass.poll with
    | timeout => simp
    | fault e =>
      by_cases interrupted : e = .eintr
      · simp [interrupted]
      · simp [interrupted]
    | ready =>
      cases pass.io with
      | error e =>
        by_cases passing : e = .eagain ∨ e = .eintr
        · simp [passing]
        · simp [passing]
      | ok n =>
        by_cases whole : len ≤ n
        · simp [whole, Nat.not_lt.mpr whole]
        · have short : n < len := Nat.lt_of_not_le whole
          by_cases stale : errno = .eagain ∨ errno = .eintr
          · simp [Nat.min_eq_left (Nat.le_of_lt short), Nat.ne_of_lt short, short, stale, Passing]
          · simp [Nat.min_eq_left (Nat.le_of_lt short), Nat.ne_of_lt short, stale, Passing]

theorem whole_of_success {n : ℕ} (succeeds : (pass.verdict len (fun n => n = len) errno).1 = .success n) :
    Whole len pass := by
  unfold Pass.verdict at succeeds
  split at succeeds
  · dsimp only at succeeds
    split at succeeds <;> cases succeeds
  · next opened =>
    split at succeeds
    · cases succeeds
    · dsimp only at succeeds
      split at succeeds <;> cases succeeds
    · next ready =>
      split at succeeds
      · next count wrote =>
        dsimp only at succeeds
        split at succeeds
        · next complete =>
          have all := of_decide_eq_true complete
          exact ⟨opened, ready, count, by omega, wrote⟩
        · split at succeeds <;> cases succeeds
      · dsimp only at succeeds
        split at succeeds <;> cases succeeds

/-- `errno` is set by the calls that fail and by no others. -/
theorem errnoAfter_eq (complete : ℕ → Bool) :
    errnoAfter len complete errno pass = (errors pass).getLast?.getD errno := by
  unfold errnoAfter Pass.verdict errors
  cases pass.openErr with
  | some e => cases pass.sleepErr <;> rfl
  | none =>
    cases pass.poll with
    | timeout => cases pass.closeErr <;> cases pass.sleepErr <;> rfl
    | fault e => cases pass.closeErr <;> cases pass.sleepErr <;> rfl
    | ready => cases pass.io <;> cases pass.closeErr <;> cases pass.sleepErr <;> rfl

end Verdict

theorem run_errnoMachine (len : ℕ) (complete : ℕ → Bool) (errno : Errno) (passes : List Pass) :
    (errnoMachine len complete).run errno passes = some (lastError errno passes) := by
  induction passes generalizing errno with
  | nil => rfl
  | cons pass passes ih =>
    rw [EventMachine.run_cons, errnoMachine, Option.bind_some]
    refine (ih _).trans (congrArg some ?_)
    rw [errnoAfter_eq, lastError, lastError, List.flatMap_cons, List.getLast?_append]
    cases (passes.flatMap errors).getLast? <;> rfl

/-! ## The attempts of a call -/

/-- Every attempt but the last is one that was retried, and is one that may be; in particular the payload has
been written in part by none of them, and if the call succeeds, then by none at all before the whole of it. -/
structure JudgedByOwn (len : ℕ) (passes : List Pass) (o : Outcome) : Prop where
  retried : ∀ pass ∈ passes.dropLast, OwnFailure pass
  short : ∀ pass ∈ passes.dropLast, ¬ Short len pass
  whole : o.rc = .ok →
    ∃ earlier last, passes = earlier ++ [last] ∧ Whole len last ∧ ∀ pass ∈ earlier, ¬ Short len pass

/-- The attempt is not a short write, or has no time left, or the last call that failed before it failed in
a way that does not pass. -/
def Told (len : ℕ) (timeoutMs : UInt32) (t0 : ℕ) (errno : Errno) (pass : Pass) : Prop :=
  Short len pass → ¬ Late timeoutMs t0 pass → ¬ Passing errno

theorem retryLoop_judged {path : Bytes} {len t0 : ℕ} {lib : LibPm} {bo : PmBackoff} {passes : List Pass} {o : Outcome}
    (returned : retryLoop path len (fun n => n = len) t0 lib bo passes = some o)
    (made : o.opened.length = passes.length) :
    ((∀ pass ∈ passes.dropLast, OwnFailure pass) ↔
      (errnoMachine len fun n => n = len).Along (Told len lib.gCfg.timeoutMs t0) lib.errno passes) ∧
    (o.rc = .ok → ∃ earlier last, passes = earlier ++ [last] ∧ Whole len last) := by
  induction passes generalizing lib bo o with
  | nil => cases returned
  | cons pass passes ih =>
    have judged := retries_iff len lib.errno pass
    -- A call that leaves the loop here has made this attempt as its last.
    have alone (opened : o.opened = [path]) : passes = [] := by
      rw [opened] at made
      exact List.eq_nil_of_length_eq_zero (Nat.succ.inj made).symm
    by_cases retries : Retries len (fun n => n = len) lib.errno pass
    · by_cases late : Late lib.gCfg.timeoutMs t0 pass
      · obtain ⟨left, leaves, opened, rc⟩ := retryLoop_late path bo retries late passes
        cases leaves.symm.trans returned
        obtain rfl := alone opened
        refine ⟨⟨fun _ => ⟨fun _ early => absurd late early, fun _ _ => trivial⟩, fun _ _ member => nomatch member⟩, ?_⟩
        rw [rc]
        exact nofun
      · rw [retryLoop_again path bo retries late] at returned
        obtain ⟨rest, looped, rfl⟩ := Option.map_eq_some_iff.mp returned
        obtain ⟨own, whole⟩ := ih looped (Nat.succ.inj made)
        have more : passes ≠ [] := by
          rintro rfl
          cases looped
        obtain ⟨second, others, rfl⟩ := List.exists_cons_of_ne_nil more
        refine ⟨?_, fun ok => ?_⟩
        · rw [List.dropLast_cons_cons, List.forall_mem_cons, own, EventMachine.Along]
          have told : OwnFailure pass ↔ Told len lib.gCfg.timeoutMs t0 lib.errno pass := by
            constructor
            · intro failed wrote
              exact absurd wrote failed.not_short
            · intro told
              rcases judged.mp retries with failed | ⟨wrote, stale⟩
              · exact failed
              · exact absurd stale (told wrote late)
          exact and_congr told ⟨fun along _ same => Option.some.inj same ▸ along, fun along => along _ rfl⟩
        · obtain ⟨earlier, last, split, all⟩ := whole ok
          exact ⟨pass :: earlier, last, by rw [split, List.cons_append], all⟩
    · obtain ⟨left, leaves, opened, success⟩ := retryLoop_leaves path bo t0 retries passes
      cases leaves.symm.trans returned
      obtain rfl := alone opened
      refine ⟨⟨fun _ => ⟨fun wrote _ stale => ?_, fun _ _ => trivial⟩, fun _ _ member => nomatch member⟩, fun ok => ?_⟩
      · exact retries (judged.mpr (.inr ⟨wrote, stale⟩))
      · obtain ⟨n, succeeds⟩ := success ok
        exact ⟨[], pass, rfl, whole_of_success len lib.errno pass succeeds⟩

theorem along_told_iff {len : ℕ} (complete : ℕ → Bool) {timeoutMs : UInt32} {t0 : ℕ} {errno : Errno}
    {passes : List Pass} :
    (errnoMachine len complete).Along (Told len timeoutMs t0) errno passes ↔
      ∀ earlier pass later, passes = earlier ++ pass :: later → Short len pass → ¬ Late timeoutMs t0 pass →
        ¬ Passing (lastError errno earlier) := by
  rw [EventMachine.along_iff_split]
  constructor
  · intro along earlier pass later split
    exact along earlier pass later _ split (run_errnoMachine len complete errno earlier)
  · intro all earlier pass later middle split ran
    cases (run_errnoMachine len complete errno earlier).symm.trans ran
    exact all earlier pass later split

/-- For every sequence of outcomes of the attempts of `pm_set_config`, each attempt is judged by what happened
in it exactly when no short write, with time left, comes after a failed call that may pass. -/
theorem setConfig_judgedByOwn_iff {lib : LibPm} {node : PmNode} {payloadLen : UInt32} {script : Script} {o : Outcome}
    (returned : Call.exec lib script (.setConfig node payloadLen) = some o)
    (made : o.opened.length = script.passes.length) :
    JudgedByOwn payloadLen.toNat script.passes o ↔
      ∀ earlier pass later, script.passes = earlier ++ pass :: later → Short payloadLen.toNat pass →
        ¬ Late lib.gCfg.timeoutMs (nowMs script.start.toTimespec) pass → ¬ Passing (lastError lib.errno earlier) := by
  change textFile lib (buildPath lib node .config) payloadLen.toNat (fun n => n = payloadLen.toNat) script = some o
    at returned
  rw [← along_told_iff fun n => n = payloadLen.toNat]
  cases answer : (pmBreakerAllow lib.gCb script.enter).2 with
  | false =>
    rw [textFile_of_denied answer] at returned
    cases returned
    rw [List.eq_nil_of_length_eq_zero made.symm]
    refine ⟨fun _ => trivial, fun _ => ⟨?_, ?_, nofun⟩⟩
    · exact fun _ member => absurd member List.not_mem_nil
    · exact fun _ member => absurd member List.not_mem_nil
  | true =>
    rw [textFile_of_allowed answer] at returned
    obtain ⟨own, whole⟩ := retryLoop_judged returned made
    rw [← own]
    refine ⟨fun judged => judged.retried, fun retried => ⟨retried, ?_, fun ok => ?_⟩⟩
    · exact fun pass member => (retried pass member).not_short
    · obtain ⟨earlier, last, split, all⟩ := whole ok
      refine ⟨earlier, last, split, all, fun pass member => (retried pass ?_).not_short⟩
      rw [split, List.dropLast_concat]
      exact member

/-- The descriptor table is full once, and then the write goes through. -/
def fullOnce : Script := ⟨atMs 0, atMs 0, [{ smooth (atMs 1) with openErr := some .emfile }, smooth (atMs 2)]⟩

theorem setConfig_judgedByOwn_fullOnce : ∃ o,
    Call.exec (pmInit none) fullOnce (.setConfig .cpu 4) = some o ∧ o.opened.length = fullOnce.passes.length ∧
      (JudgedByOwn 4 fullOnce.passes o ↔
        ∀ earlier pass later, fullOnce.passes = earlier ++ pass :: later → Short 4 pass →
          ¬ Late 200 (nowMs (atMs 0).toTimespec) pass → ¬ Passing (lastError (.other 0) earlier)) := by
  obtain ⟨o, returned, made⟩ : ∃ o, Call.exec (pmInit none) fullOnce (.setConfig .cpu 4) = some o ∧
      o.opened.length = fullOnce.passes.length := ⟨_, rfl, rfl⟩
  exact ⟨o, returned, made, setConfig_judgedByOwn_iff returned made⟩

/-- An `open` that finds the system busy is followed by a short write and that by the whole one. -/
def staleErrno : Script :=
  ⟨atMs 0, atMs 0,
    [{ smooth (atMs 1) with openErr := some .eagain }, { smooth (atMs 2) with io := .ok 1 }, smooth (atMs 3)]⟩

/-- The short write is repeated, and the call returns `PM_OK` with a partial copy in front of the whole. -/
theorem short_write_retried : ∃ o,
    Call.exec (pmInit none) staleErrno (.setConfig .cpu 4) = some o ∧ o.opened.length = staleErrno.passes.length ∧
      o.rc = .ok ∧ ¬ JudgedByOwn 4 staleErrno.passes o := by
  refine ⟨_, rfl, rfl, rfl, fun judged => ?_⟩
  exact judged.short { smooth (atMs 2) with io := .ok 1 } (List.mem_cons_of_mem _ List.mem_cons_self)
    ⟨rfl, rfl, 1, by decide, rfl⟩

end ProcessMonitor.Soundness.WriteAttempts
