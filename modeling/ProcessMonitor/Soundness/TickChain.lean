import ProcessMonitor.Model.Driver.PmCore

/-! # The life of the tick chain

While sampling is on, the work item is queued, running, or about to be queued by the call that switched
it on. A call that switches it off can break this: its cancel comes after the flag has been cleared, and
also removes what a call that switches it on again has queued in between. In the same way the cancel of
`mydrv_exit` does not reach what is queued after it.
-/

namespace ProcessMonitor.Soundness.TickChain

open Machine Machine.Kernel Machine.Posix Model.Driver

variable {s next : Sampler}

/-! ## Steps -/

/-- What a step can do to the flag, the work item, and the phases of the calls. -/
inductive Moves (s : Sampler) : Sampler.Event → Sampler → Prop
  | write (ubuf fault) : Moves s (.write ubuf fault) { s with calls := s.calls ++ [⟨ubuf.length, cfgWrite ubuf fault⟩] }
  | storeInterval (i call interval) (found : s.calls[i]? = some call) (phase : call.phase = .storeInterval interval) :
      Moves s (.advance i) ({ s with pmIntervalMs := interval }.setPhase i call .exchange)
  | exchange (i call) (found : s.calls[i]? = some call) (phase : call.phase = .exchange) :
      Moves s (.advance i)
        ({ s with pmEnabled := true }.setPhase i call (if s.pmEnabled then .done call.len else .schedule))
  | schedule (i call) (found : s.calls[i]? = some call) (phase : call.phase = .schedule) :
      Moves s (.advance i) ({ s with pmWork := s.pmWork.schedule }.setPhase i call (.done call.len))
  | clear (i call) (found : s.calls[i]? = some call) (phase : call.phase = .clear) :
      Moves s (.advance i) ({ s with pmEnabled := false }.setPhase i call .cancel)
  | cancel (i call) (found : s.calls[i]? = some call) (phase : call.phase = .cancel) :
      Moves s (.advance i) ({ s with pmWork := .idle }.setPhase i call (.done call.len))
  | fire (work) (fired : s.pmWork.fire .readEnabled = some work) : Moves s .fire { s with pmWork := work }
  | readEnabled (running : s.pmWork.running = some .readEnabled) :
      Moves s .tick { s with pmWork.running := if s.pmEnabled then some .update else none }
  | update (running : s.pmWork.running = some .update) : Moves s .tick { s with pmWork.running := some .requeue }
  | requeue (running : s.pmWork.running = some .requeue) :
      Moves s .tick { s with pmWork := { s.pmWork.schedule with running := none } }

theorem moves_of_step {event : Sampler.Event} (success : s.step event = some next) : Moves s event next := by
  cases event with
  | write ubuf fault => cases success; constructor
  | advance i =>
    obtain ⟨call, found, success⟩ := Option.bind_eq_some_iff.mp success
    obtain ⟨⟨after, phase⟩, advanced, rfl⟩ := Option.map_eq_some_iff.mp success
    rw [Sampler.cfgStep] at advanced
    split at advanced
    next interval phase => cases advanced; exact .storeInterval i call interval found phase
    next phase => cases advanced; exact .exchange i call found phase
    next phase => cases advanced; exact .schedule i call found phase
    next phase => cases advanced; exact .clear i call found phase
    next phase =>
      obtain ⟨work, cancelled, same⟩ := Option.map_eq_some_iff.mp advanced
      cases same
      rw [DelayedWork.cancelSync_eq_some cancelled]
      exact .cancel i call found phase
    next => cases advanced
  | fire =>
    obtain ⟨work, fired, rfl⟩ := Option.map_eq_some_iff.mp success
    exact .fire work fired
  | tick =>
    change s.pmTick = some next at success
    rw [Sampler.pmTick] at success
    split at success
    next running => cases success; exact .readEnabled running
    next running => cases success; exact .update running
    next running => cases success; exact .requeue running
    next => cases success

/-! ## The chain -/

/-- Some call of `cfg_write` is at this phase. -/
def Somewhere (calls : List CfgCall) (phase : Phase) : Prop := ∃ call ∈ calls, call.phase = phase

instance (calls : List CfgCall) (phase : Phase) : Decidable (Somewhere calls phase) :=
  inferInstanceAs (Decidable (∃ call ∈ calls, call.phase = phase))

section Somewhere

variable {calls : List CfgCall} {i : ℕ} {call new : CfgCall} {phase : Phase}

/-- The calls at a phase that one call does not leave stay there. -/
theorem Somewhere.set (there : Somewhere calls phase) (found : calls[i]? = some call) (stays : call.phase ≠ phase) :
    Somewhere (calls.set i new) phase := by
  obtain ⟨other, member, atPhase⟩ := there
  obtain ⟨j, place⟩ := List.mem_iff_getElem?.mp member
  have distinct : i ≠ j := by
    rintro rfl
    rw [found] at place
    cases place
    exact stays atPhase
  have kept : (calls.set i new)[j]? = some other := by rw [List.getElem?_set_ne distinct, place]
  exact ⟨other, List.mem_of_getElem? kept, atPhase⟩

theorem somewhere_set_self (found : calls[i]? = some call) : Somewhere (calls.set i new) new.phase :=
  ⟨new, List.mem_set (List.getElem?_eq_some_iff.mp found).1 new, rfl⟩

/-- Only the call that moves can come to a phase. -/
theorem somewhere_of_set (there : Somewhere (calls.set i new) phase) (different : new.phase ≠ phase) :
    Somewhere calls phase := by
  obtain ⟨other, member, atPhase⟩ := there
  rcases List.mem_or_eq_of_mem_set member with older | rfl
  exacts [⟨other, older, atPhase⟩, absurd atPhase different]

end Somewhere

/-- With no call in progress, sampling that is on goes on. -/
def TickAlive (s : Sampler) : Prop :=
  (∀ call ∈ s.calls, call.returned = true) → s.pmEnabled = true → s.pmWork.Alive

/-- No call queues the work while another one is between clearing the flag and the return of its cancel. -/
def Exclusive (s : Sampler) : Sampler.Event → Prop
  | .advance i => (∃ call ∈ s.calls[i]?, call.phase = .schedule) → ¬ Somewhere s.calls .cancel
  | _ => True

instance (s : Sampler) : DecidablePred (Exclusive s)
  | .advance _ => inferInstanceAs (Decidable (_ → _))
  | .write .. | .fire | .tick => .isTrue trivial

/-- While sampling is on, the chain is alive or a call is about to revive it, which it must be if another
one is about to cancel. -/
structure Chained (s : Sampler) : Prop where
  alive : s.pmEnabled = true → s.pmWork.Alive ∨ Somewhere s.calls .schedule
  revived : s.pmEnabled = true → Somewhere s.calls .cancel → Somewhere s.calls .schedule

theorem chained_start : Chained .start := ⟨nofun, nofun⟩

/-- A call that moves on without queueing or cancelling the work leaves the chain as it is. -/
theorem Chained.set (chained : Chained s) {i : ℕ} {call : CfgCall} (new : CfgCall)
    (found : s.calls[i]? = some call) (stays : call.phase ≠ .schedule) (goes : new.phase ≠ .cancel)
    (on : s.pmEnabled = true) :
    (s.pmWork.Alive ∨ Somewhere (s.calls.set i new) .schedule) ∧
      (Somewhere (s.calls.set i new) .cancel → Somewhere (s.calls.set i new) .schedule) :=
  ⟨(chained.alive on).imp_right (·.set found stays),
    fun there => (chained.revived on (somewhere_of_set there goes)).set found stays⟩

/-- No call begins with the cancel. -/
theorem cfgWrite_ne_cancel (ubuf : Bytes) (fault : Bool) : cfgWrite ubuf fault ≠ .cancel := by
  unfold cfgWrite
  repeat' split
  all_goals exact nofun

theorem chained_step (s : Sampler) (event : Sampler.Event) (next : Sampler) (chained : Chained s)
    (exclusive : Exclusive s event) (success : s.step event = some next) : Chained next := by
  cases moves_of_step success with
  | write ubuf fault =>
    have grows {phase : Phase} (there : Somewhere s.calls phase) :
        Somewhere (s.calls ++ [⟨ubuf.length, cfgWrite ubuf fault⟩]) phase :=
      there.imp fun _ found => ⟨List.mem_append_left _ found.1, found.2⟩
    refine ⟨fun on => (chained.alive on).imp_right grows, fun on there => grows (chained.revived on ?_)⟩
    obtain ⟨call, member, phase⟩ := there
    rcases List.mem_append.mp member with older | new
    · exact ⟨call, older, phase⟩
    · rw [List.mem_singleton.mp new] at phase
      exact absurd phase (cfgWrite_ne_cancel ubuf fault)
  | storeInterval i call interval found phase =>
    have kept := chained.set { call with phase := .exchange } found (phase ▸ nofun) nofun
    exact ⟨fun on => (kept on).1, fun on => (kept on).2⟩
  | exchange i call found phase =>
    cases enabled : s.pmEnabled with
    | false => exact ⟨fun _ => .inr (somewhere_set_self found), fun _ _ => somewhere_set_self found⟩
    | true =>
      have kept := chained.set { call with phase := .done call.len } found (phase ▸ nofun) nofun enabled
      exact ⟨fun _ => kept.1, fun _ => kept.2⟩
  | schedule i call found phase =>
    exact ⟨fun _ => .inl (DelayedWork.alive_schedule _),
      fun _ there => absurd (somewhere_of_set there nofun) (exclusive ⟨call, found, phase⟩)⟩
  | clear i call found phase => exact ⟨nofun, nofun⟩
  | cancel i call found phase =>
    have stays : call.phase ≠ .schedule := phase ▸ nofun
    have cancelling : Somewhere s.calls .cancel := ⟨call, List.mem_of_getElem? found, phase⟩
    exact ⟨fun on => .inr ((chained.revived on cancelling).set found stays),
      fun on _ => (chained.revived on cancelling).set found stays⟩
  | fire work fired => exact ⟨fun _ => .inl (DelayedWork.alive_fire fired), chained.revived⟩
  | readEnabled running =>
    refine ⟨fun on => .inl (.inr ?_), chained.revived⟩
    rw [if_pos on]
    exact nofun
  | update running => exact ⟨fun _ => .inl (.inr nofun), chained.revived⟩
  | requeue running => exact ⟨fun _ => .inl (.inl rfl), chained.revived⟩

theorem Chained.tickAlive (chained : Chained s) : TickAlive s := by
  intro returned on
  rcases chained.alive on with alive | ⟨call, member, phase⟩
  · exact alive
  · have done := returned call member
    rw [CfgCall.returned, phase] at done
    cases done

/-- In a run in which no call queues the work between the clearing of the flag and the cancel of another,
sampling that is on goes on. -/
theorem tick_alive {events : List Sampler.Event} (exclusive : Sampler.machine.Along Exclusive .start events)
    (ran : Sampler.machine.run .start events = some s) : TickAlive s :=
  (EventMachine.invariant_along Chained chained_step chained_start exclusive ran).tickAlive

/-- Sampling is switched on, off, and on again, with a tick that runs while it is off. -/
def exclusiveRun : List Sampler.Event :=
  [.write (literal "1 100") false, .advance 0, .advance 0, .advance 0, .fire, .tick, .tick, .write (literal "0") false,
    .advance 1, .tick, .advance 1, .write (literal "1") false, .advance 2, .advance 2]

theorem tick_alive_resumed : ∃ s, Sampler.machine.run .start exclusiveRun = some s ∧
    s.calls.map CfgCall.phase = [.done 5, .done 1, .done 1] ∧ s.pmEnabled = true ∧ TickAlive s := by
  obtain ⟨s, ran, calls, on⟩ : ∃ s, Sampler.machine.run .start exclusiveRun = some s ∧
      s.calls.map CfgCall.phase = [.done 5, .done 1, .done 1] ∧ s.pmEnabled = true := ⟨_, rfl, rfl, rfl⟩
  exact ⟨s, ran, calls, on, tick_alive (by decide) ran⟩

/-- A call clears the flag, another one sets it and queues the work, and the first one then cancels it. -/
def lostTickRun : List Sampler.Event :=
  [.write (literal "0") false, .advance 0, .write (literal "1") false, .advance 1, .advance 1, .advance 0]

theorem cancel_loses_tick : ∃ s, Sampler.machine.run .start lostTickRun = some s ∧
    s.calls.map CfgCall.phase = [.done 1, .done 1] ∧ s.pmEnabled = true ∧ s.pmWork = .idle ∧ ¬ TickAlive s := by
  obtain ⟨s, ran, calls, on, dead⟩ : ∃ s, Sampler.machine.run .start lostTickRun = some s ∧
      s.calls = [⟨1, .done 1⟩, ⟨1, .done 1⟩] ∧ s.pmEnabled = true ∧ s.pmWork = .idle := ⟨_, rfl, rfl, rfl, rfl⟩
  refine ⟨s, ran, by rw [calls]; rfl, on, dead, fun alive => ?_⟩
  have lives := alive (by rw [calls]; decide) on
  rw [dead] at lives
  exact DelayedWork.not_alive_idle lives

/-! ## Unloading -/

/-- When `mydrv_exit` has returned, the work is neither queued nor running. -/
def Unloaded (m : Module) : Prop := m.exit = .returned → m.sampler.pmWork = .idle

/-- No call of `cfg_write` queues the work after the cancel of `mydrv_exit`. -/
def BeforeCancel (m : Module) : Module.Event → Prop
  | .sampler (.advance i) => (∃ call ∈ m.sampler.calls[i]?, call.phase = .schedule) → m.exit = .cancel
  | _ => True

instance (m : Module) : DecidablePred (BeforeCancel m)
  | .sampler (.advance _) => inferInstanceAs (Decidable (_ → _))
  | .sampler (.write ..) | .sampler .fire | .sampler .tick | .exit => .isTrue trivial

/-- From the cancel on, the work is off. -/
def Cancelled (m : Module) : Prop := m.exit ≠ .cancel → m.sampler.pmWork = .idle

/-- Only a call that queues the work wakes it. -/
theorem idle_step {event : Sampler.Event} (success : s.step event = some next) (off : s.pmWork = .idle)
    (quiet : ∀ i, event = .advance i → ¬ ∃ call ∈ s.calls[i]?, call.phase = .schedule) : next.pmWork = .idle := by
  cases moves_of_step success with
  | write | storeInterval | exchange | clear => exact off
  | cancel => rfl
  | schedule i call found phase => exact absurd ⟨call, found, phase⟩ (quiet i rfl)
  | fire work fired =>
    rw [off] at fired
    cases fired
  | readEnabled running | update running | requeue running =>
    rw [off] at running
    cases running

theorem cancelled_step (m : Module) (event : Module.Event) (next : Module) (cancelled : Cancelled m)
    (before : BeforeCancel m event) (success : m.step event = some next) : Cancelled next := by
  cases event with
  | sampler event =>
    have moved : ∃ sampler, m.sampler.step event = some sampler ∧ next = { m with sampler } := by
      cases event with
      | write =>
        obtain ⟨-, success⟩ := Option.ite_none_left_eq_some.mp success
        obtain ⟨sampler, stepped, rfl⟩ := Option.map_eq_some_iff.mp success
        exact ⟨sampler, stepped, rfl⟩
      | advance | fire | tick =>
        obtain ⟨sampler, stepped, rfl⟩ := Option.map_eq_some_iff.mp success
        exact ⟨sampler, stepped, rfl⟩
    obtain ⟨sampler, stepped, rfl⟩ := moved
    intro exiting
    refine idle_step stepped (cancelled exiting) ?_
    rintro i rfl scheduling
    exact exiting (before scheduling)
  | exit =>
    change m.mydrvExit = some next at success
    rw [Module.mydrvExit] at success
    split at success
    next =>
      obtain ⟨work, stopped, rfl⟩ := Option.map_eq_some_iff.mp success
      exact fun _ => DelayedWork.cancelSync_eq_some stopped
    next removing =>
      obtain ⟨-, success⟩ := Option.ite_none_right_eq_some.mp success
      cases success
      exact fun _ => cancelled (removing ▸ nofun)
    next => cases success

/-- In a run in which no call queues the work after the cancel of `mydrv_exit`, no work survives it. -/
theorem work_unloaded {events : List Module.Event} {m : Module}
    (before : Module.machine.Along BeforeCancel .start events) (ran : Module.machine.run .start events = some m) :
    Unloaded m := by
  have cancelled : Cancelled m :=
    EventMachine.invariant_along Cancelled cancelled_step (fun exiting => absurd rfl exiting) before ran
  exact fun returned => cancelled (returned ▸ nofun)

/-- Sampling is on when the module is unloaded, and a call that switches it off comes between the cancel
and the removal. -/
def unloadRun : List Module.Event :=
  [.sampler (.write (literal "1") false), .sampler (.advance 0), .sampler (.advance 0), .sampler .fire, .sampler .tick,
    .sampler .tick, .sampler .tick, .exit, .sampler (.write (literal "0") false), .sampler (.advance 1),
    .sampler (.advance 1), .exit]

theorem work_unloaded_while_on : ∃ m, Module.machine.run .start unloadRun = some m ∧ m.exit = .returned ∧
    Unloaded m := by
  obtain ⟨m, ran, returned⟩ : ∃ m, Module.machine.run .start unloadRun = some m ∧ m.exit = .returned := ⟨_, rfl, rfl⟩
  exact ⟨m, ran, returned, work_unloaded (by decide) ran⟩

/-- A call switches sampling on between the cancel and the removal. -/
def lateEnableRun : List Module.Event :=
  [.exit, .sampler (.write (literal "1") false), .sampler (.advance 0), .sampler (.advance 0), .exit]

theorem work_survives : ∃ m, Module.machine.run .start lateEnableRun = some m ∧ m.exit = .returned ∧
    m.sampler.pmWork.pending = true ∧ ¬ Unloaded m := by
  obtain ⟨m, ran, returned, queued⟩ : ∃ m, Module.machine.run .start lateEnableRun = some m ∧ m.exit = .returned ∧
      m.sampler.pmWork.pending = true := ⟨_, rfl, rfl, rfl⟩
  refine ⟨m, ran, returned, queued, fun unloaded => ?_⟩
  rw [unloaded returned] at queued
  cases queued

end ProcessMonitor.Soundness.TickChain
