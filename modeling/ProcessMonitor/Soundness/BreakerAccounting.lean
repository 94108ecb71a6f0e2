import Mathlib.Data.List.Induction
import ProcessMonitor.Model.LibPm.ProcfsIo
import ProcessMonitor.Soundness.BreakerHistory

/-! # What the breaker learns of the calls

A call that the breaker lets through should tell it exactly one outcome, on every way out of the loop.
One way does not: an `open` that fails for good returns without a word, so the breaker never learns of a
file that cannot be opened. On all other ways a count of failed calls in a row shuts the breaker.
-/

namespace ProcessMonitor.Soundness.BreakerAccounting

open Machine Machine.Posix Model.LibPm BreakerHistory

/-! ## One call -/

/-- If `open` fails, it may succeed later. -/
def Opens (pass : Pass) : Prop := ∀ e ∈ pass.openErr, e = .eagain ∨ e = .emfile

instance : DecidablePred Opens := fun pass => inferInstanceAs (Decidable (∀ e ∈ pass.openErr, _))

/-- The call has recorded one outcome with the breaker, success if and only if it returns `PM_OK`. -/
def Recorded (cb : PmBreaker) (o : Outcome) : Prop :=
  o.rc ≠ .again ∧ o.recorded = [(o.ends, decide (o.rc = .ok))] ∧
    o.lib.gCb = pmBreakerRecord cb o.ends (decide (o.rc = .ok))

theorem verdict_ne_openError {pass : Pass} (opens : Opens pass) (requested : ℕ) (complete : ℕ → Bool) (errno : Errno) :
    (pass.verdict requested complete errno).1 ≠ .openError := by
  unfold Pass.verdict
  split
  next e failed =>
    rw [if_pos (opens e failed)]
    exact nofun
  next =>
    split
    · exact nofun
    · split <;> exact nofun
    · split
      · split
        · exact nofun
        · split <;> exact nofun
      · split <;> exact nofun

theorem leave_recorded (lib : LibPm) (path : Bytes) (pass : Pass) {rc : PmRc} (back : rc ≠ .again) :
    Recorded lib.gCb (lib.leave path pass rc (decide (rc = .ok))) := ⟨back, rfl, rfl⟩

/-- Every way out of the loop but the failed `open` records the outcome once. -/
theorem retryLoop_recorded {path : Bytes} {requested t0 : ℕ} {complete : ℕ → Bool} {lib : LibPm} {bo : PmBackoff}
    {passes : List Pass} {o : Outcome} (opens : ∀ pass ∈ passes, Opens pass)
    (returned : retryLoop path requested complete t0 lib bo passes = some o) : Recorded lib.gCb o := by
  induction passes generalizing lib bo o with
  | nil => cases returned
  | cons pass passes ih =>
    have opened := verdict_ne_openError (opens pass List.mem_cons_self) requested complete lib.errno
    rw [retryLoop] at returned
    generalize pass.verdict requested complete lib.errno = judged at opened returned
    obtain ⟨verdict, errno⟩ := judged
    cases verdict with
    | openError => exact absurd rfl opened
    | pollTimeout | pollError | ioError =>
      cases returned
      exact leave_recorded _ path pass nofun
    | success n =>
      cases returned
      exact ⟨nofun, rfl, rfl⟩
    | retry =>
      dsimp only at returned
      split at returned
      next =>
        cases returned
        exact leave_recorded _ path pass nofun
      next =>
        obtain ⟨rest, looped, rfl⟩ := Option.map_eq_some_iff.mp returned
        have recorded := ih (fun pass member => opens pass (List.mem_cons_of_mem _ member)) looped
        exact ⟨recorded.1, recorded.2.1, recorded.2.2⟩

/-- The call has been turned away: nothing is opened and nothing recorded. -/
structure TurnedAway (o : Outcome) : Prop where
  rc : o.rc = .again
  opened : o.opened = []
  recorded : o.recorded = []

/-- The breaker turns the call away, or lets it through and learns its outcome. -/
def Met (lib : LibPm) (script : Script) (o : Outcome) : Prop :=
  (pmBreakerAllow lib.gCb script.enter).2 = false ∧ TurnedAway o ∧
      o.lib.gCb = (pmBreakerAllow lib.gCb script.enter).1 ∧ o.ends = script.enter ∨
    (pmBreakerAllow lib.gCb script.enter).2 = true ∧ Recorded (pmBreakerAllow lib.gCb script.enter).1 o

theorem textFile_met {lib : LibPm} {path : Bytes} {requested : ℕ} {complete : ℕ → Bool} {script : Script} {o : Outcome}
    (opens : ∀ pass ∈ script.passes, Opens pass) (returned : textFile lib path requested complete script = some o) :
    Met lib script o := by
  cases answer : (pmBreakerAllow lib.gCb script.enter).2 with
  | false =>
    rw [textFile_of_denied answer] at returned
    cases returned
    exact .inl ⟨answer, ⟨rfl, rfl, rfl⟩, rfl, rfl⟩
  | true =>
    rw [textFile_of_allowed answer] at returned
    exact .inr ⟨answer, retryLoop_recorded opens returned⟩

theorem exec_met {call : Call} {lib : LibPm} {script : Script} {o : Outcome}
    (opens : ∀ pass ∈ script.passes, Opens pass) (returned : call.exec lib script = some o) : Met lib script o := by
  cases call <;> exact textFile_met opens returned

/-! ## Whole runs -/

/-- A call in the log of a run: the clock when it looked at the breaker, and its outcome. -/
structure Entry where
  enter : Instant
  outcome : Outcome

/-- `now` is the clock when the last call returned. -/
structure Session where
  lib : LibPm
  now : Instant
  log : List Entry

namespace Session

/-- The clock readings of a call, in the order it makes them. -/
def readings (script : Script) : List Instant :=
  [script.enter, script.start] ++ script.passes.flatMap fun pass => [pass.check, pass.ends]

/-- One call after the other; the clock does not go back. -/
def step (s : Session) (event : Call × Script) : Option Session :=
  if (s.now :: readings event.2).Pairwise (· ≤ ·) then
    (event.1.exec s.lib event.2).map fun o => ⟨o.lib, o.ends, s.log ++ [⟨event.2.enter, o⟩]⟩
  else none

def machine : EventMachine Session (Call × Script) := ⟨step⟩

def start (opt : Option PmCfg) (now : Instant) : Session := ⟨pmInit opt, now, []⟩

end Session

/-- A failed call. -/
def Failed (entry : Entry) : Prop := entry.outcome.rc = .ioerr ∨ entry.outcome.rc = .timeout

/-- Every call that is let through records one outcome, success if and only if it returns `PM_OK`; and after
`N` failed calls in a row, counted from the beginning or a success, a call within the half-open time is
turned away without opening the file. -/
structure Accounted (c : Settings) (log : List Entry) : Prop where
  once : ∀ entry ∈ log, entry.outcome.rc ≠ .again →
    ∃ t, entry.outcome.recorded = [(t, decide (entry.outcome.rc = .ok))]
  shut : ∀ front fails entry back, log = front ++ fails ++ entry :: back → fails.length = c.trip →
    (∀ last ∈ front.getLast?, last.outcome.rc = .ok) → (∀ failed ∈ fails, Failed failed) →
      (∀ last ∈ fails.getLast?, entry.enter.ms < last.outcome.ends.ms + c.half) →
        entry.outcome.rc = .again ∧ entry.outcome.opened = []

/-- The outcomes that the calls have recorded, newest first. -/
def historyOf (log : List Entry) : History := (log.flatMap fun entry => entry.outcome.recorded).reverse

/-- A call is turned away exactly when the rule says so, and otherwise records its outcome. -/
def Answered (c : Settings) (history : History) (entry : Entry) : Prop :=
  Denies c history entry.enter ∧ TurnedAway entry.outcome ∨
    entry.outcome.rc ≠ .again ∧ entry.outcome.recorded = [(entry.outcome.ends, decide (entry.outcome.rc = .ok))] ∧
      ¬ Denies c history entry.enter

structure Sound (c : Settings) (s : Session) : Prop where
  tracks : Tracks c s.lib.gCb (historyOf s.log) s.now
  answered : ∀ front entry back, s.log = front ++ entry :: back → Answered c (historyOf front) entry

theorem historyOf_concat (log : List Entry) (entry : Entry) :
    historyOf (log ++ [entry]) = entry.outcome.recorded.reverse ++ historyOf log := by
  rw [historyOf, List.flatMap_append, List.flatMap_singleton, List.reverse_append, historyOf]

theorem sound_step {c : Settings} (s : Session) (event : Call × Script) (next : Session) (sound : Sound c s)
    (opens : ∀ pass ∈ event.2.passes, Opens pass) (success : s.step event = some next) : Sound c next := by
  obtain ⟨call, script⟩ := event
  obtain ⟨ordered, success⟩ := Option.ite_none_right_eq_some.mp success
  obtain ⟨o, returned, rfl⟩ := Option.map_eq_some_iff.mp success
  have later : s.now ≤ script.enter := List.rel_of_pairwise_cons ordered List.mem_cons_self
  have rule := sound.tracks.allow_eq_false_iff later
  have allowed := sound.tracks.allow later
  have last : Answered c (historyOf s.log) ⟨script.enter, o⟩ ∧
      Tracks c o.lib.gCb (historyOf (s.log ++ [⟨script.enter, o⟩])) o.ends := by
    rw [historyOf_concat]
    rcases exec_met opens returned with ⟨denied, turned, cb, ends⟩ | ⟨through, back, recorded, cb⟩
    · refine ⟨.inl ⟨rule.mp denied, turned⟩, ?_⟩
      rw [turned.recorded, cb, ends]
      exact allowed
    · have admitted : ¬ Denies c (historyOf s.log) script.enter := by rw [← rule, through]; exact nofun
      refine ⟨.inr ⟨back, recorded, admitted⟩, ?_⟩
      rw [recorded, cb]
      exact allowed.record (Tracks.isOpen_of_allowed through) o.ends _
  refine ⟨last.2, ?_⟩
  intro front entry back split
  rcases List.eq_nil_or_concat back with rfl | ⟨rest, final, rfl⟩
  · obtain ⟨rfl, same⟩ := List.append_inj' split rfl
    cases same
    exact last.1
  · rw [List.concat_eq_append, ← List.cons_append, ← List.append_assoc] at split
    exact sound.answered front entry rest (List.append_inj' split rfl).1

section Log

variable {c : Settings} {log : List Entry}
  (answered : ∀ front entry back, log = front ++ entry :: back → Answered c (historyOf front) entry)

theorem Answered.recorded_of_ne_again {history : History} {entry : Entry} (answered : Answered c history entry)
    (back : entry.outcome.rc ≠ .again) :
    entry.outcome.recorded = [(entry.outcome.ends, decide (entry.outcome.rc = .ok))] := by
  rcases answered with ⟨-, turned⟩ | ⟨-, recorded, -⟩
  exacts [absurd turned.rc back, recorded]

theorem Answered.recorded_of_failed {history : History} {entry : Entry} (answered : Answered c history entry)
    (failed : Failed entry) : entry.outcome.recorded = [(entry.outcome.ends, false)] := by
  rcases failed with error | timeout
  · rw [answered.recorded_of_ne_again (error ▸ nofun), error]
    rfl
  · rw [answered.recorded_of_ne_again (timeout ▸ nofun), timeout]
    rfl

include answered

/-- At the beginning and after a success no failure is counted. -/
theorem failures_of_success {front rest : List Entry} (split : log = front ++ rest)
    (success : ∀ last ∈ front.getLast?, last.outcome.rc = .ok) : failures c.trip (historyOf front) = 0 := by
  rcases List.eq_nil_or_concat front with rfl | ⟨earlier, last, rfl⟩
  · rfl
  · rw [List.concat_eq_append] at split success ⊢
    have ok : last.outcome.rc = .ok := success last List.getLast?_concat
    rw [List.append_assoc] at split
    rw [historyOf_concat, (answered earlier last rest split).recorded_of_ne_again (ok ▸ nofun), ok]
    rfl

/-- Failed calls in a row are counted, one by one. -/
theorem failures_of_failed {front fails rest : List Entry} (split : log = front ++ fails ++ rest)
    (none : failures c.trip (historyOf front) = 0) (failed : ∀ entry ∈ fails, Failed entry)
    (few : fails.length < c.trip) : failures c.trip (historyOf (front ++ fails)) = fails.length := by
  induction fails using List.reverseRecOn generalizing rest with
  | nil => rw [List.append_nil, none]; rfl
  | append_singleton earlier last ih =>
    rw [List.length_append, List.length_singleton] at few ⊢
    rw [← List.append_assoc, List.append_assoc] at split
    have before := ih split (fun entry member => failed entry (List.mem_append_left _ member)) (by omega)
    have recorded := (answered (front ++ earlier) last rest split).recorded_of_failed
      (failed last (List.mem_append_right _ (List.mem_singleton_self last)))
    rw [← List.append_assoc, historyOf_concat, recorded]
    change (if failures c.trip (historyOf (front ++ earlier)) + 1 = c.trip then 0
      else failures c.trip (historyOf (front ++ earlier)) + 1) = earlier.length + 1
    rw [before, if_neg (Nat.ne_of_lt few)]

theorem accounted : Accounted c log where
  once entry member back := by
    obtain ⟨front, rest, split⟩ := List.append_of_mem member
    exact ⟨_, (answered front entry rest split).recorded_of_ne_again back⟩
  shut front fails entry back split length success failed early := by
    rcases List.eq_nil_or_concat fails with rfl | ⟨earlier, last, rfl⟩
    · exact absurd length.symm (Nat.ne_of_gt c.trip_pos)
    rw [List.concat_eq_append] at split length failed early
    rw [List.length_append, List.length_singleton] at length
    have none := failures_of_success answered (split.trans (List.append_assoc _ _ _)) success
    rw [← List.append_assoc, List.append_assoc (front ++ earlier)] at split
    have count := failures_of_failed answered split none
      (fun entry member => failed entry (List.mem_append_left _ member)) (by omega)
    have recorded := (answered (front ++ earlier) last _ split).recorded_of_failed
      (failed last (List.mem_append_right _ (List.mem_singleton_self last)))
    -- the last of the failures completes the count, so the rule turns the next call away
    have denies : Denies c (historyOf (front ++ earlier ++ [last])) entry.enter := by
      rw [historyOf_concat, recorded]
      exact ⟨last.outcome.ends, historyOf (front ++ earlier), rfl, by rw [count, length],
        early last List.getLast?_concat⟩
    rw [List.singleton_append, List.append_cons] at split
    rcases answered _ entry back split with ⟨-, turned⟩ | ⟨-, -, admitted⟩
    exacts [⟨turned.rc, turned.opened⟩, absurd denies admitted]

end Log

/-- The settings of the breaker that a configuration asks for. -/
def settingsOf (opt : Option PmCfg) : Settings :=
  .ofConfig (opt.getD defaultCfg).breakerFailN (opt.getD defaultCfg).breakerHalfMs

/-- In a run in which every `open` that fails may succeed later, every call that is let through is accounted
for. -/
theorem calls_accounted (opt : Option PmCfg) (now : Instant) {events : List (Call × Script)} {s : Session}
    (opens : ∀ event ∈ events, ∀ pass ∈ event.2.passes, Opens pass)
    (ran : Session.machine.run (.start opt now) events = some s) : Accounted (settingsOf opt) s.log := by
  have start : Sound (settingsOf opt) (.start opt now) := by
    refine ⟨tracks_init _ _ now, fun front entry back split => ?_⟩
    cases front <;> cases split
  have sound := EventMachine.invariant_along (Sound (settingsOf opt)) sound_step start
    (EventMachine.along_of_forall opens) ran
  exact accounted sound.answered

/-- A breaker that trips at the second failure and stays shut for 200 ms. -/
def twoFailures : PmCfg := { defaultCfg with breakerFailN := 2 }

instance neZero_thousand : NeZero 1000 := ⟨by decide⟩

def atMs (ms : Fin 1000) : Instant :=
  ⟨⟨1, ms * 1000000⟩, (by decide : 1 < 2 ^ 50), by have := ms.isLt; change ms.val * 1000000 < 10 ^ 9; omega⟩

/-- A pass in which everything succeeds. -/
def smooth (t : Instant) : Pass := ⟨none, .ready, .ok 4, none, none, t, t⟩

/-- A read error, then a timeout after a full descriptor table, then a write while the breaker is shut. -/
def accountedRun : List (Call × Script) :=
  [(.readStatus .cpu 64, ⟨atMs 0, atMs 0, [{ smooth (atMs 10) with io := .error (.other 5) }]⟩),
    (.readData .mem 64, ⟨atMs 20, atMs 20,
      [{ smooth (atMs 21) with openErr := some .emfile }, { smooth (atMs 250) with poll := .timeout }]⟩),
    (.setConfig .inf 4, ⟨atMs 449, atMs 449, [smooth (atMs 449)]⟩)]

theorem calls_accounted_shut : ∃ s, Session.machine.run (.start (some twoFailures) (atMs 0)) accountedRun = some s ∧
    s.log.map (fun entry => entry.outcome.rc) = [.ioerr, .timeout, .again] ∧
      Accounted (settingsOf (some twoFailures)) s.log := by
  have evaluated : (Session.machine.run (.start (some twoFailures) (atMs 0)) accountedRun).map
      (fun s => s.log.map fun entry => entry.outcome.rc) = some [.ioerr, .timeout, .again] := by decide +kernel
  obtain ⟨s, ran, returned⟩ := Option.map_eq_some_iff.mp evaluated
  exact ⟨s, ran, returned, calls_accounted _ _ (by decide) ran⟩

/-- Three reads of a status file that does not exist (`ENOENT`). -/
def missingFileRun : List (Call × Script) :=
  List.replicate 3
    (.readStatus .cpu 8, ⟨atMs 0, atMs 0, [{ smooth (atMs 0) with openErr := some (.other 2) }]⟩)

theorem missing_file_unnoticed : ∃ s,
    Session.machine.run (.start (some twoFailures) (atMs 0)) missingFileRun = some s ∧
      s.log.map (fun entry => (entry.outcome.rc, entry.outcome.recorded)) = List.replicate 3 (.ioerr, []) ∧
      ¬ Accounted (settingsOf (some twoFailures)) s.log := by
  have evaluated : (Session.machine.run (.start (some twoFailures) (atMs 0)) missingFileRun).map
      (fun s => s.log.map fun entry => (entry.outcome.rc, entry.outcome.recorded)) =
        some (List.replicate 3 (.ioerr, [])) := by decide +kernel
  obtain ⟨s, ran, returned⟩ := Option.map_eq_some_iff.mp evaluated
  refine ⟨s, ran, returned, fun accounted => ?_⟩
  obtain ⟨entry, rest, log, outcome, -⟩ := List.map_eq_cons_iff.mp returned
  obtain ⟨error, silent⟩ := Prod.mk.inj outcome
  obtain ⟨t, recorded⟩ := accounted.once entry (log ▸ List.mem_cons_self) (error ▸ nofun)
  rw [silent] at recorded
  cases recorded

end ProcessMonitor.Soundness.BreakerAccounting
