import ProcessMonitor.Machine.Core.Measure
import ProcessMonitor.Soundness.TickChain

/-! # The sampling switch

Whatever the calls of `cfg_write` do to each other, a tick that goes on after the flag has been cleared is one that the
cancel of the call that cleared it waits for. So once the flag is cleared and every call has returned no sample is
taken, although the work can still be queued: two more ticks can find the flag cleared. Calls that come one
after the other switch sampling on and off as they say, whatever the ticks do meanwhile.
-/

namespace ProcessMonitor.Soundness.SamplingSwitch

open Machine Machine.Kernel Machine.Posix Model.Driver TickChain

variable {s t next : Sampler} {event : Sampler.Event}

/-! ## Switched off -/

/-- `pm_tick` has found the flag set and has not queued itself again. -/
def Committed (s : Sampler) : Prop := s.pmWork.running = some .update ∨ s.pmWork.running = some .requeue

theorem not_committed (early : s.pmWork.running = none ∨ s.pmWork.running = some .readEnabled) : ¬ Committed s := by
  rcases early with rests | reads
  · simp [Committed, rests]
  · simp [Committed, reads]

/-- While the flag is cleared, a tick that has found it set is waited for. -/
def Awaited (s : Sampler) : Prop := Committed s → s.pmEnabled = true ∨ Somewhere s.calls .cancel

/-- A call that is not at its cancel moves on. -/
theorem Awaited.set (awaited : Awaited s) {i : ℕ} {call new : CfgCall} (found : s.calls[i]? = some call)
    (stays : call.phase ≠ .cancel) (committed : Committed s) :
    s.pmEnabled = true ∨ Somewhere (s.calls.set i new) .cancel :=
  (awaited committed).imp_right fun there => there.set found stays

theorem awaited_step (s : Sampler) (event : Sampler.Event) (next : Sampler) (awaited : Awaited s)
    (success : s.step event = some next) : Awaited next := by
  cases moves_of_step success with
  | write ubuf fault =>
    intro committed
    apply (awaited committed).imp_right
    rintro ⟨call, member, phase⟩
    exact ⟨call, List.mem_append_left _ member, phase⟩
  | storeInterval i call interval found phase => exact awaited.set found (by rw [phase]; exact nofun)
  | exchange => exact fun _ => .inl rfl
  | schedule i call found phase => exact awaited.set found (by rw [phase]; exact nofun)
  | clear i call found phase => exact fun _ => .inr (somewhere_set_self found)
  | cancel => exact fun committed => absurd committed (not_committed (.inl rfl))
  | fire work fired =>
    obtain ⟨-, same⟩ := Option.ite_none_right_eq_some.mp fired
    cases same
    exact fun committed => absurd committed (not_committed (.inr rfl))
  | readEnabled running =>
    intro committed
    left
    by_contra off
    exact not_committed (.inl (if_neg off)) committed
  | update running => exact fun _ => awaited (.inl running)
  | requeue running => exact fun committed => absurd committed (not_committed (.inl rfl))

theorem awaited_run {events : List Sampler.Event} (ran : Sampler.machine.run .start events = some s) : Awaited s := by
  apply EventMachine.invariant Awaited awaited_step _ ran
  exact fun committed => absurd committed (not_committed (.inl rfl))

/-- The flag is cleared, no call is in progress, and no tick goes on. -/
structure Off (s : Sampler) : Prop where
  flag : s.pmEnabled = false
  returned : ∀ call ∈ s.calls, call.returned = true
  uncommitted : ¬ Committed s

theorem off_of_awaited (awaited : Awaited s) (flag : s.pmEnabled = false)
    (returned : ∀ call ∈ s.calls, call.returned = true) : Off s := by
  refine ⟨flag, returned, fun committed => ?_⟩
  rcases awaited committed with on | ⟨call, member, phase⟩
  · rw [flag] at on
    cases on
  · have done := returned call member
    rw [CfgCall.returned, phase] at done
    cases done

/-- The call is the beginning of a new `cfg_write`. -/
def IsWrite : Sampler.Event → Bool
  | .write .. => true
  | _ => false

/-- `pm_tick` calls `pm_update_fake`. -/
def Samples (s : Sampler) (event : Sampler.Event) : Prop := event = .tick ∧ s.pmWork.running = some .update

/-- The steps that the work has left once the flag is cleared. -/
def strays (s : Sampler) : ℕ := (if s.pmWork.pending then 2 else 0) + if s.pmWork.running = none then 0 else 1

theorem strays_le (s : Sampler) : strays s ≤ 3 := by
  unfold strays
  split_ifs <;> omega

/-- A call that has returned does nothing. -/
theorem Off.not_found (off : Off s) {i : ℕ} {call : CfgCall} (found : s.calls[i]? = some call)
    (busy : call.returned = false) : False := by
  have done := off.returned call (List.mem_of_getElem? found)
  rw [busy] at done
  cases done

theorem off_step (off : Off s) (silent : IsWrite event = false) (success : s.step event = some next) :
    Off next ∧ strays next < strays s := by
  cases moves_of_step success with
  | write => cases silent
  | storeInterval i call interval found phase =>
    exact (off.not_found found (by rw [CfgCall.returned, phase])).elim
  | exchange i call found phase | schedule i call found phase | clear i call found phase | cancel i call found phase =>
    exact (off.not_found found (by rw [CfgCall.returned, phase])).elim
  | fire work fired =>
    obtain ⟨⟨queued, resting⟩, same⟩ := Option.ite_none_right_eq_some.mp fired
    cases same
    refine ⟨⟨off.flag, off.returned, not_committed (.inr rfl)⟩, ?_⟩
    simp [strays, queued, resting]
  | readEnabled running =>
    have ends : (if s.pmEnabled = true then some Tick.update else none) = none := by simp [off.flag]
    refine ⟨⟨off.flag, off.returned, not_committed (.inl ends)⟩, ?_⟩
    simp [strays, ends, running]
  | update running => exact (off.uncommitted (.inl running)).elim
  | requeue running => exact (off.uncommitted (.inr running)).elim

/-- When the timer does not run and no tick goes on, the work is off. -/
theorem idle_of_rests (work : DelayedWork Tick) (fires : work.fire .readEnabled = none) (ends : work.running = none) :
    work = .idle := by
  obtain ⟨pending, running⟩ := work
  cases ends
  cases pending with
  | false => rfl
  | true => cases fires

theorem running_of_rests (ticks : s.step .tick = none) : s.pmWork.running = none := by
  cases running : s.pmWork.running with
  | none => rfl
  | some tick =>
    change s.pmTick = none at ticks
    rw [Sampler.pmTick, running] at ticks
    cases tick <;> cases ticks

/-- In every interleaving: once the flag is cleared and all calls of `cfg_write` have returned, no sample is taken
until the next one, at most three steps of the work are left, and it comes to rest off the queue. -/
theorem sampling_stops {events later : List Sampler.Event} (ran : Sampler.machine.run .start events = some s)
    (flag : s.pmEnabled = false) (returned : ∀ call ∈ s.calls, call.returned = true)
    (silent : ∀ event ∈ later, IsWrite event = false) (went : Sampler.machine.run s later = some t) :
    Sampler.machine.Along (fun s event => ¬ Samples s event) s later ∧ later.length ≤ 3 ∧ t.pmEnabled = false ∧
      (t.step .fire = none → t.step .tick = none → t.pmWork = .idle) := by
  have off : Off s := off_of_awaited (awaited_run ran) flag returned
  have keeps {later : List Sampler.Event} {t : Sampler} (silent : ∀ event ∈ later, IsWrite event = false)
      (went : Sampler.machine.run s later = some t) : Off t :=
    EventMachine.invariant_along Off (fun _ _ _ off quiet stepped => (off_step off quiet stepped).1) off
      (EventMachine.along_of_forall silent) went
  refine ⟨?_, ?_, (keeps silent went).flag, fun fires ticks => ?_⟩
  · rw [EventMachine.along_iff_split]
    rintro earlier event rest middle rfl reached ⟨-, updating⟩
    have quiet : ∀ event ∈ earlier, IsWrite event = false :=
      fun event member => silent event (List.mem_append_left _ member)
    exact (keeps quiet reached).uncommitted (.inl updating)
  · have paid := EventMachine.length_add_le strays (fun _ _ _ off quiet stepped => (off_step off quiet stepped).1)
      (fun _ _ _ off quiet stepped => (off_step off quiet stepped).2) off silent went
    have := strays_le s
    omega
  · apply idle_of_rests
    · exact Option.map_eq_none_iff.mp fires
    · exact running_of_rests ticks

/-- Two calls switch sampling on and two switch it off again before the first two queue the work, twice. -/
def strayRun : List Sampler.Event :=
  [.write (literal "1") false, .advance 0, .write (literal "0") false, .advance 1, .write (literal "1") false,
    .advance 2, .write (literal "0") false, .advance 3, .advance 1, .advance 3, .advance 0, .fire, .advance 2]

theorem sampling_stops_stray : ∃ s t, Sampler.machine.run .start strayRun = some s ∧
    Sampler.machine.run s [.tick, .fire, .tick] = some t ∧
    Sampler.machine.Along (fun s event => ¬ Samples s event) s [.tick, .fire, .tick] ∧ t.pmWork = .idle := by
  obtain ⟨s, t, ran, flag, calls, went, fires, ticks⟩ : ∃ s t, Sampler.machine.run .start strayRun = some s ∧
      s.pmEnabled = false ∧ s.calls.all CfgCall.returned = true ∧
      Sampler.machine.run s [.tick, .fire, .tick] = some t ∧ t.step .fire = none ∧ t.step .tick = none :=
    ⟨_, _, rfl, rfl, rfl, rfl, rfl, rfl⟩
  obtain ⟨along, -, -, rests⟩ := sampling_stops ran flag (List.all_eq_true.mp calls) (by decide) went
  exact ⟨s, t, ran, went, along, rests fires ticks⟩

/-! ## One call after the other -/

/-- What a reader of the commands expects: whether samples are taken, and how often. -/
structure Switch where
  on : Bool
  interval : ℕ
deriving DecidableEq, Repr

/-- A command of less than 64 bytes that begins with `1` switches on, with the interval it gives if there is one
above 0, and one that begins with `0` switches off. -/
def Switch.command (w : Switch) (ubuf : Bytes) (fault : Bool) : Switch :=
  if 64 ≤ ubuf.length ∨ fault = true then w
  else if ubuf.head? = some 49 then ⟨true, ((scanInterval (cstr ubuf)).filter (0 < ·)).getD w.interval⟩
  else if ubuf.head? = some 48 then { w with on := false }
  else w

def Switch.follow (w : Switch) : Sampler.Event → Switch
  | .write ubuf fault => w.command ubuf fault
  | _ => w

/-- No call begins before the others have returned. -/
def Serial (s : Sampler) (event : Sampler.Event) : Prop :=
  IsWrite event = true → ∀ call ∈ s.calls, call.returned = true

instance (s : Sampler) : DecidablePred (Serial s) := fun event =>
  inferInstanceAs (Decidable (IsWrite event = true → _))

/-- The flag and the work agree. -/
def Settled (s : Sampler) : Prop :=
  (s.pmEnabled = true → s.pmWork.Alive) ∧ (s.pmEnabled = false → s.pmWork = .idle)

theorem Settled.of_on (on : s.pmEnabled = true) (alive : s.pmWork.Alive) : Settled s :=
  ⟨fun _ => alive, fun off => absurd (on.symm.trans off) (by decide)⟩

theorem Settled.of_off (off : s.pmEnabled = false) (idle : s.pmWork = .idle) : Settled s :=
  ⟨fun on => absurd (on.symm.trans off) (by decide), fun _ => idle⟩

/-- What the switch is once the call at this phase has returned. -/
def Doing (s : Sampler) (w : Switch) : Phase → Prop
  | .storeInterval interval => Settled s ∧ w = ⟨true, interval⟩
  | .exchange => Settled s ∧ w = ⟨true, s.pmIntervalMs⟩
  | .schedule => s.pmEnabled = true ∧ w = ⟨true, s.pmIntervalMs⟩
  | .clear => Settled s ∧ w = ⟨false, s.pmIntervalMs⟩
  | .cancel => s.pmEnabled = false ∧ w = ⟨false, s.pmIntervalMs⟩
  | .done _ => Settled s ∧ w = ⟨s.pmEnabled, s.pmIntervalMs⟩

/-- Only the last call is in progress, if one is. -/
inductive Follows (s : Sampler) (w : Switch) : Prop
  | unused (calls : s.calls = []) (settled : Settled s) (switched : w = ⟨s.pmEnabled, s.pmIntervalMs⟩)
  | last (older : List CfgCall) (call : CfgCall) (calls : s.calls = older ++ [call])
      (returned : ∀ call ∈ older, call.returned = true) (doing : Doing s w call.phase)

theorem follows_start : Follows .start ⟨false, 500⟩ := .unused rfl (.of_off rfl rfl) rfl

theorem Follows.settled {w : Switch} (follows : Follows s w) (returned : ∀ call ∈ s.calls, call.returned = true) :
    Settled s ∧ w = ⟨s.pmEnabled, s.pmIntervalMs⟩ := by
  cases follows with
  | unused calls settled switched => exact ⟨settled, switched⟩
  | last older call calls _ doing =>
    have done : call.returned = true := returned call (by rw [calls]; exact List.mem_concat_self)
    unfold CfgCall.returned at done
    split at done
    next phase =>
      rw [phase] at doing
      exact doing
    next => cases done

/-- What a command asks for is what its call is going to do. -/
theorem doing_cfgWrite (settled : Settled s) (ubuf : Bytes) (fault : Bool) :
    Doing s (Switch.command ⟨s.pmEnabled, s.pmIntervalMs⟩ ubuf fault) (cfgWrite ubuf fault) := by
  unfold cfgWrite Switch.command
  by_cases long : 64 ≤ ubuf.length
  · rw [if_pos long, if_pos (.inl long)]
    exact ⟨settled, rfl⟩
  cases fault with
  | true =>
    rw [if_neg long, if_pos rfl, if_pos (.inr rfl)]
    exact ⟨settled, rfl⟩
  | false =>
    rw [if_neg long, if_neg Bool.false_ne_true, if_neg (by simp [long])]
    split_ifs with one zero
    · obtain ⟨rest, rfl⟩ := List.head?_eq_some_iff.mp one
      dsimp only
      cases scanInterval (cstr (49 :: rest)) with
      | none => exact ⟨settled, rfl⟩
      | some interval =>
        by_cases positive : 0 < interval
        · simp [Doing, settled, positive, Option.filter_some]
        · simp [Doing, settled, positive, Option.filter_some]
    · obtain ⟨rest, rfl⟩ := List.head?_eq_some_iff.mp zero
      exact ⟨settled, rfl⟩
    · split
      · exact absurd rfl one
      · exact absurd rfl zero
      · exact ⟨settled, rfl⟩

/-- A step of the work keeps the flag and the work in agreement. -/
theorem Settled.work (settled : Settled s) (work : event = .fire ∨ event = .tick) (success : s.step event = some next) :
    Settled next := by
  have on : s.pmEnabled = true := by
    by_contra off
    have idle := settled.2 (Bool.eq_false_iff.mpr off)
    rcases work with rfl | rfl
    · change (s.pmWork.fire .readEnabled).map _ = some next at success
      rw [idle] at success
      cases success
    · change s.pmTick = some next at success
      rw [Sampler.pmTick, idle] at success
      cases success
  rcases work with rfl | rfl
  · have moves : Moves s .fire next := moves_of_step success
    cases moves with
    | fire work fired => exact .of_on on (DelayedWork.alive_fire fired)
  · have moves : Moves s .tick next := moves_of_step success
    cases moves with
    | readEnabled running => exact .of_on on (.inr (by simp [on]))
    | update running => exact .of_on on (.inr (by simp))
    | requeue running => exact .of_on on (.inl rfl)

/-- A step of the work changes nothing else. -/
theorem frame_work (work : event = .fire ∨ event = .tick) (success : s.step event = some next) :
    next.pmEnabled = s.pmEnabled ∧ next.pmIntervalMs = s.pmIntervalMs ∧ next.calls = s.calls := by
  rcases work with rfl | rfl
  · have moves : Moves s .fire next := moves_of_step success
    cases moves
    exact ⟨rfl, rfl, rfl⟩
  · have moves : Moves s .tick next := moves_of_step success
    cases moves <;> exact ⟨rfl, rfl, rfl⟩

theorem Doing.work {w : Switch} {phase : Phase} (doing : Doing s w phase) (work : event = .fire ∨ event = .tick)
    (success : s.step event = some next) : Doing next w phase := by
  obtain ⟨flag, interval, -⟩ := frame_work work success
  cases phase with
  | storeInterval n => exact ⟨doing.1.work work success, doing.2⟩
  | exchange | clear => exact ⟨doing.1.work work success, interval ▸ doing.2⟩
  | schedule | cancel => exact ⟨flag ▸ doing.1, interval ▸ doing.2⟩
  | done ret => exact ⟨doing.1.work work success, by rw [flag, interval]; exact doing.2⟩

theorem Follows.work {w : Switch} (follows : Follows s w) (work : event = .fire ∨ event = .tick)
    (success : s.step event = some next) : Follows next w := by
  obtain ⟨flag, interval, same⟩ := frame_work work success
  cases follows with
  | unused calls settled switched =>
    exact .unused (same.trans calls) (settled.work work success) (by rw [flag, interval]; exact switched)
  | last older call calls returned doing => exact .last older call (same.trans calls) returned (doing.work work success)

/-- The call that goes on is the last one. -/
theorem Follows.busy {w : Switch} (follows : Follows s w) {i : ℕ} {call : CfgCall} (found : s.calls[i]? = some call)
    (busy : call.returned = false) :
    Doing s w call.phase ∧ ∃ older, (∀ call ∈ older, call.returned = true) ∧
      ∀ new, s.calls.set i new = older ++ [new] := by
  cases follows with
  | unused calls => rw [calls] at found; cases found
  | last older last calls returned doing =>
    rw [calls] at found
    have place : i = older.length := by
      obtain ⟨bound, -⟩ := List.getElem?_eq_some_iff.mp found
      rw [List.length_append, List.length_singleton] at bound
      by_contra other
      rw [List.getElem?_append_left (by omega)] at found
      have done := returned call (List.mem_of_getElem? found)
      rw [busy] at done
      cases done
    subst place
    rw [List.getElem?_concat_length] at found
    cases found
    exact ⟨doing, older, returned, fun new => by rw [calls]; simp⟩

/-- The last call makes its next step. -/
theorem Follows.advance {w : Switch} (follows : Follows s w) {i : ℕ} {call : CfgCall} {after : Sampler} {phase : Phase}
    (found : s.calls[i]? = some call) (busy : call.returned = false) (same : after.calls = s.calls)
    (goes : Doing s w call.phase → Doing (after.setPhase i call phase) w phase) :
    Follows (after.setPhase i call phase) w := by
  obtain ⟨doing, older, returned, set⟩ := follows.busy found busy
  refine .last older { call with phase } ?_ returned (goes doing)
  rw [Sampler.setPhase, same]
  exact set _

theorem follows_step (s : Sampler) (w : Switch) (event : Sampler.Event) (next : Sampler) (follows : Follows s w)
    (serial : Serial s event) (success : s.step event = some next) : Follows next (w.follow event) := by
  cases moves_of_step success with
  | write ubuf fault =>
    obtain ⟨settled, rfl⟩ := follows.settled (serial rfl)
    refine .last s.calls _ rfl (serial rfl) ?_
    obtain doing := doing_cfgWrite settled ubuf fault
    cases phase : cfgWrite ubuf fault with
    | _ => rw [phase] at doing; exact doing
  | storeInterval i call interval found phase =>
    apply follows.advance found (by rw [CfgCall.returned, phase]) (by rfl)
    rw [phase]
    exact fun doing => doing
  | exchange i call found phase =>
    apply follows.advance found (by rw [CfgCall.returned, phase]) (by rfl)
    rw [phase]
    rintro ⟨settled, rfl⟩
    cases enabled : s.pmEnabled with
    | false => exact ⟨rfl, rfl⟩
    | true => exact ⟨.of_on rfl (settled.1 enabled), rfl⟩
  | schedule i call found phase =>
    apply follows.advance found (by rw [CfgCall.returned, phase]) (by rfl)
    rw [phase]
    rintro ⟨on, rfl⟩
    exact ⟨.of_on on (DelayedWork.alive_schedule _), by simp [Sampler.setPhase, on]⟩
  | clear i call found phase =>
    apply follows.advance found (by rw [CfgCall.returned, phase]) (by rfl)
    rw [phase]
    exact fun doing => ⟨rfl, doing.2⟩
  | cancel i call found phase =>
    apply follows.advance found (by rw [CfgCall.returned, phase]) (by rfl)
    rw [phase]
    rintro ⟨off, rfl⟩
    exact ⟨.of_off off rfl, by simp [Sampler.setPhase, off]⟩
  | fire => exact follows.work (.inl rfl) success
  | readEnabled | update | requeue => exact follows.work (.inr rfl) success

/-- If the calls of `cfg_write` come one after the other, then when they have returned the driver is as the commands,
one after the other, switch it: the flag and the interval are theirs, the work goes on if they leave sampling on, and
is off the queue and at rest if they leave it off. -/
theorem commands_followed {events : List Sampler.Event} (serial : Sampler.machine.Along Serial .start events)
    (ran : Sampler.machine.run .start events = some s) (returned : ∀ call ∈ s.calls, call.returned = true) :
    (⟨s.pmEnabled, s.pmIntervalMs⟩ : Switch) = events.foldl Switch.follow ⟨false, 500⟩ ∧
      (s.pmEnabled = true → s.pmWork.Alive) ∧ (s.pmEnabled = false → s.pmWork = .idle) := by
  have follows := EventMachine.run_follows Follows Switch.follow follows_step follows_start serial ran
  obtain ⟨settled, switched⟩ := follows.settled returned
  exact ⟨switched.symm, settled.1, settled.2⟩

theorem commands_followed_resumed : ∃ s, Sampler.machine.run .start exclusiveRun = some s ∧
    s.pmEnabled = true ∧ s.pmIntervalMs = 100 ∧ s.pmWork.Alive := by
  obtain ⟨s, ran, calls, on⟩ : ∃ s, Sampler.machine.run .start exclusiveRun = some s ∧
      s.calls.all CfgCall.returned = true ∧ s.pmEnabled = true := ⟨_, rfl, rfl, rfl⟩
  obtain ⟨switched, alive, -⟩ := commands_followed (by decide) ran (List.all_eq_true.mp calls)
  exact ⟨s, ran, on, congrArg Switch.interval switched, alive on⟩

end ProcessMonitor.Soundness.SamplingSwitch
