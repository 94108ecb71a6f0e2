import ProcessMonitor.Machine.Core.Run
import ProcessMonitor.Model.LibPm.CircuitBreaker

/-! # The breaker follows its history

What the breaker should do is a matter of the recorded outcomes alone: it trips at a failure that
completes a full count of failures in a row, and turns calls away until the half-open time has passed.
The counter, the flag, and the deadline of the code keep just enough of the history to decide this, in
arithmetic that never wraps.
-/

namespace ProcessMonitor.Soundness.BreakerHistory

open Machine Machine.Posix Model.LibPm

/-! ## The rule -/

/-- The count `N` and the time `H` that a configuration stands for. -/
structure Settings where
  trip : ℕ
  half : ℕ
  trip_pos : 0 < trip
  trip_lt : trip < 2 ^ 32
  half_lt : half < 2 ^ 32

def Settings.ofConfig (trip half : UInt32) : Settings where
  trip := if trip = 0 then 8 else trip.toNat
  half := if half = 0 then 200 else half.toNat
  trip_pos := by
    split
    · decide
    · next nonzero => exact Nat.pos_of_ne_zero fun zero => nonzero (UInt32.toNat_inj.mp zero)
  trip_lt := by
    split
    · decide
    · exact trip.toNat_lt
  half_lt := by
    split
    · decide
    · exact half.toNat_lt

/-- The recorded outcomes with their times, newest first. -/
abbrev History := List (Instant × Bool)

/-- The failures in a row since the beginning, the last success, and the last trip. -/
def failures (N : ℕ) : History → ℕ
  | [] => 0
  | (_, true) :: _ => 0
  | (_, false) :: earlier => if failures N earlier + 1 = N then 0 else failures N earlier + 1

/-- The newest outcome completes `N` failures in a row. -/
def Trips (N : ℕ) : History → Prop
  | (_, false) :: earlier => failures N earlier + 1 = N
  | _ => False

/-- A call at `t` is turned away: the newest outcome is a trip, and its half-open time has not passed. -/
def Denies (c : Settings) (history : History) (t : Instant) : Prop :=
  ∃ u earlier, history = (u, false) :: earlier ∧ failures c.trip earlier + 1 = c.trip ∧ t.ms < u.ms + c.half

theorem failures_lt {N : ℕ} (positive : 0 < N) (history : History) : failures N history < N := by
  induction history with
  | nil => exact positive
  | cons outcome earlier ih =>
    obtain ⟨u, ok⟩ := outcome
    cases ok with
    | true => exact positive
    | false =>
      rw [failures]
      split <;> omega

theorem failures_of_trips {N : ℕ} {history : History} (trips : Trips N history) : failures N history = 0 := by
  match history, trips with
  | (_, false) :: earlier, trips => exact if_pos trips

/-! ## One call -/

/-- No intermediate value of a call at `t` exceeds its type. -/
structure Exact (cb : PmBreaker) (t : Instant) : Prop where
  count : cb.failN + 1 < 2 ^ 32
  now : t.tvSec * 1000 + t.tvNsec / 1000000 < 2 ^ 64
  deadline : cb.openUntil.tvSec * 1000 + cb.openUntil.tvNsec / 1000000 < 2 ^ 64
  carry : t.tvNsec + cb.halfOpenMs * 1000000 < 2 ^ 64
  seconds : t.tvSec + (t.tvNsec + cb.halfOpenMs * 1000000) / 1000000000 < 2 ^ 63

/-- What the breaker knows of the history: the count, and whether the newest outcome is a trip that still
turns calls away. -/
structure Tracks (c : Settings) (cb : PmBreaker) (history : History) (now : Instant) : Prop where
  threshold : cb.tripThreshold = c.trip
  half : cb.halfOpenMs = c.half
  counted : cb.failN = failures c.trip history
  shut : cb.isOpen = true → ∃ u earlier, history = (u, false) :: earlier ∧ failures c.trip earlier + 1 = c.trip ∧
    cb.openUntil = u.addMs c.half
  admits : cb.isOpen = false → ∀ u earlier, history = (u, false) :: earlier → failures c.trip earlier + 1 = c.trip →
    u.ms + c.half ≤ now.ms
  sec_lt : cb.openUntil.tvSec < 2 ^ 51
  nsec_lt : cb.openUntil.tvNsec < 10 ^ 9

theorem tracks_init (trip half : UInt32) (now : Instant) :
    Tracks (.ofConfig trip half) (pmBreakerInit trip half) [] now where
  threshold := rfl
  half := rfl
  counted := rfl
  shut closed := nomatch closed
  admits _ _ _ empty := nomatch empty
  sec_lt := Nat.two_pow_pos 51
  nsec_lt := (by decide : 0 < 10 ^ 9)

namespace Tracks

variable {c : Settings} {cb : PmBreaker} {history : History} {now t : Instant}

theorem exact (tracks : Tracks c cb history now) (t : Instant) : Exact cb t := by
  have sec := t.sec_lt
  have nsec := t.nsec_lt
  have few := failures_lt c.trip_pos history
  have bound := c.trip_lt
  have half := c.half_lt
  have untilSec := tracks.sec_lt
  have untilNsec := tracks.nsec_lt
  rw [← tracks.counted] at few
  rw [← tracks.half] at half
  constructor <;> omega

/-- The clock in milliseconds is read without wrapping. -/
theorem nowMs_eq {ts : Timespec} (bound : ts.tvSec * 1000 + ts.tvNsec / 1000000 < 2 ^ 64) : nowMs ts = ts.ms := by
  rw [nowMs, u64, u64, Nat.mod_eq_of_lt (Nat.lt_of_le_of_lt (Nat.le_add_right _ _) bound), Nat.mod_eq_of_lt bound,
    Timespec.ms]

/-- The answer is the one the rule gives. -/
theorem allow_eq_false_iff (tracks : Tracks c cb history now) (ordered : now ≤ t) :
    (pmBreakerAllow cb t).2 = false ↔ Denies c history t := by
  have exact := tracks.exact t
  cases state : cb.isOpen with
  | false =>
    rw [pmBreakerAllow, if_pos state]
    refine ⟨nofun, ?_⟩
    rintro ⟨u, earlier, newest, trips, early⟩
    have passed := tracks.admits state u earlier newest trips
    have later := Instant.ms_mono ordered
    omega
  | true =>
    obtain ⟨u, earlier, newest, trips, deadline⟩ := tracks.shut state
    have due : cb.openUntil.ms = u.ms + c.half := by rw [deadline, Timespec.ms_addMs]
    rw [pmBreakerAllow, if_neg (by simp [state]), nowMs_eq exact.deadline, nowMs_eq exact.now, due]
    constructor
    · intro denied
      split_ifs at denied with reached
      exact ⟨u, earlier, newest, trips, Nat.lt_of_not_le reached⟩
    · rintro ⟨u', earlier', newest', -, early⟩
      obtain ⟨rfl, rfl⟩ : u = u' ∧ earlier = earlier' := by
        rw [newest] at newest'
        cases newest'
        exact ⟨rfl, rfl⟩
      rw [if_neg (Nat.not_le_of_lt early)]

theorem allow (tracks : Tracks c cb history now) (ordered : now ≤ t) :
    Tracks c (pmBreakerAllow cb t).1 history t := by
  have later := Instant.ms_mono ordered
  have exact := tracks.exact t
  cases state : cb.isOpen with
  | false =>
    rw [pmBreakerAllow, if_pos state]
    exact { tracks with
      admits := fun closed u earlier newest trips => Nat.le_trans (tracks.admits closed u earlier newest trips) later }
  | true =>
    obtain ⟨u, earlier, newest, trips, deadline⟩ := tracks.shut state
    have due : cb.openUntil.ms = u.ms + c.half := by rw [deadline, Timespec.ms_addMs]
    rw [pmBreakerAllow, if_neg (by simp [state]), nowMs_eq exact.deadline, nowMs_eq exact.now, due]
    split
    next reached =>
      refine { tracks with counted := ?_, shut := nofun, admits := ?_ }
      · rw [newest, failures, if_pos trips]
      · rintro - u' earlier' newest' -
        rw [newest] at newest'
        cases newest'
        exact reached
    next => exact { tracks with admits := fun closed => absurd (closed.symm.trans state) nofun }

/-- A breaker that lets a call through is closed. -/
theorem isOpen_of_allowed (allowed : (pmBreakerAllow cb t).2 = true) : (pmBreakerAllow cb t).1.isOpen = false := by
  rw [pmBreakerAllow] at allowed ⊢
  split_ifs at allowed ⊢ with closed reached
  exacts [closed, rfl]

theorem record (tracks : Tracks c cb history now) (closed : cb.isOpen = false) (t : Instant) (ok : Bool) :
    Tracks c (pmBreakerRecord cb t ok) ((t, ok) :: history) t := by
  have exact := tracks.exact t
  have few := failures_lt c.trip_pos history
  have sec := t.sec_lt
  have half := c.half_lt
  have nsec := t.nsec_lt
  cases ok with
  | true =>
    rw [pmBreakerRecord, if_pos rfl]
    exact { tracks with
      counted := rfl
      shut := fun opened => absurd (closed.symm.trans opened) Bool.false_ne_true
      admits := fun _ _ _ newest => by cases newest }
  | false =>
    have count : u32 (cb.failN + 1) = failures c.trip history + 1 := by
      rw [u32, Nat.mod_eq_of_lt exact.count, tracks.counted]
    rw [pmBreakerRecord, if_neg Bool.false_ne_true, count]
    by_cases complete : failures c.trip history + 1 = c.trip
    · have deadline : (⟨u64 (t.tvSec + u64 (t.tvNsec + u64 (cb.halfOpenMs * 1000000)) / 1000000000),
          u64 (t.tvNsec + u64 (cb.halfOpenMs * 1000000)) % 1000000000⟩ : Timespec) = t.addMs c.half := by
        have product : u64 (cb.halfOpenMs * 1000000) = c.half * 1000000 := by
          rw [u64, tracks.half]
          exact Nat.mod_eq_of_lt (by omega)
        have carry : u64 (t.tvNsec + c.half * 1000000) = t.tvNsec + c.half * 1000000 := Nat.mod_eq_of_lt (by omega)
        have seconds : u64 (t.tvSec + (t.tvNsec + c.half * 1000000) / 1000000000) =
            t.tvSec + (t.tvNsec + c.half * 1000000) / 1000000000 := Nat.mod_eq_of_lt (by omega)
        rw [product, carry, seconds, Timespec.addMs]
      rw [if_pos (by rw [tracks.threshold, complete])]
      dsimp only
      rw [deadline]
      refine ⟨tracks.threshold, tracks.half, ?_, ?_, (fun shut => by cases shut), ?_, ?_⟩
      · exact (if_pos complete).symm
      · exact fun _ => ⟨t, history, rfl, complete, rfl⟩
      · change t.tvSec + (t.tvNsec + c.half * 1000000) / 1000000000 < 2 ^ 51
        omega
      · exact Nat.mod_lt _ (by decide)
    · rw [if_neg (by rw [tracks.threshold]; omega)]
      refine ⟨tracks.threshold, tracks.half, ?_, ?_, ?_, tracks.sec_lt, tracks.nsec_lt⟩
      · exact (if_neg complete).symm
      · exact fun opened => absurd (closed.symm.trans opened) Bool.false_ne_true
      · rintro - u earlier newest trips
        cases newest
        exact absurd trips complete

end Tracks

/-! ## Whole runs -/

/-- A breaker in use: `permit` is set while the last call was let through and has recorded nothing yet. -/
structure Use where
  cb : PmBreaker
  history : History
  now : Instant
  permit : Bool

namespace Use

def start (trip half : UInt32) (now : Instant) : Use := ⟨pmBreakerInit trip half, [], now, false⟩

inductive Event
  | allow (t : Instant)
  | record (t : Instant) (ok : Bool)

/-- The clock does not go back, and an outcome is recorded at most once for a call that was let through. -/
def step (s : Use) : Event → Option Use
  | .allow t =>
    if s.now ≤ t then some ⟨(pmBreakerAllow s.cb t).1, s.history, t, (pmBreakerAllow s.cb t).2⟩ else none
  | .record t ok =>
    if s.now ≤ t ∧ s.permit = true then some ⟨pmBreakerRecord s.cb t ok, (t, ok) :: s.history, t, false⟩ else none

def machine : EventMachine Use Event := ⟨step⟩

end Use

/-- Outcomes come in the order of time, and after a trip not before the half-open time has passed. -/
def Spaced (c : Settings) : History → Prop
  | [] => True
  | (v, _) :: earlier =>
    (∀ u ok older, earlier = (u, ok) :: older → u ≤ v ∧ (Trips c.trip earlier → u.ms + c.half ≤ v.ms)) ∧
      Spaced c earlier

section Trips

variable {c : Settings} {front older : History} {u : Instant} {ok : Bool}

theorem Spaced.after_trip (spaced : Spaced c (front ++ (u, ok) :: older)) (trips : Trips c.trip ((u, ok) :: older))
    {v : Instant} {result : Bool} (member : (v, result) ∈ front) : u.ms + c.half ≤ v.ms := by
  induction front generalizing v result with
  | nil => cases member
  | cons newest rest ih =>
    rcases List.mem_cons.mp member with rfl | inside
    · cases rest with
      | nil => exact (spaced.1 u ok older rfl).2 trips
      | cons next _ =>
        have later := (spaced.1 next.1 next.2 _ rfl).1
        exact Nat.le_trans (ih spaced.2 List.mem_cons_self) (Instant.ms_mono later)
    · exact ih spaced.2 inside

/-- Since a trip, the count is at most that of the failures since then. -/
theorem failures_after_trip {N : ℕ} (trips : Trips N ((u, ok) :: older)) :
    failures N (front ++ (u, ok) :: older) ≤ (front.filter fun outcome => outcome.2 = false).length := by
  induction front with
  | nil => exact Nat.le_of_eq (failures_of_trips trips)
  | cons newest rest ih =>
    obtain ⟨v, result⟩ := newest
    cases result with
    | true => exact Nat.zero_le _
    | false =>
      rw [List.cons_append, failures, List.filter_cons_of_pos rfl, List.length_cons]
      split <;> omega

end Trips

/-- The breaker behaves by the rule: it turns away the calls that the rule turns away; between one trip and
the next lie `N` failures and `H` milliseconds; and its numbers stay in range. -/
structure Lawful (c : Settings) (s : Use) : Prop where
  denies : ∀ t, s.now ≤ t → ((pmBreakerAllow s.cb t).2 = false ↔ Denies c s.history t)
  apart : ∀ later v between u earlier, s.history = later ++ (v, false) :: (between ++ (u, false) :: earlier) →
    Trips c.trip ((v, false) :: (between ++ (u, false) :: earlier)) → Trips c.trip ((u, false) :: earlier) →
      c.trip ≤ (((v, false) :: between).filter fun outcome => outcome.2 = false).length ∧ u.ms + c.half ≤ v.ms
  failN_lt : s.cb.failN < c.trip
  nsec_lt : s.cb.openUntil.tvNsec < 10 ^ 9
  exact : ∀ t, Exact s.cb t

structure Sound (c : Settings) (s : Use) : Prop where
  tracks : Tracks c s.cb s.history s.now
  spaced : Spaced c s.history
  newest : ∀ u ok older, s.history = (u, ok) :: older → u ≤ s.now
  permitted : s.permit = true → s.cb.isOpen = false

theorem sound_start (trip half : UInt32) (now : Instant) : Sound (.ofConfig trip half) (.start trip half now) :=
  ⟨tracks_init trip half now, trivial, nofun, nofun⟩

theorem sound_step {c : Settings} (s : Use) (event : Use.Event) (next : Use) (sound : Sound c s)
    (success : s.step event = some next) : Sound c next := by
  cases event with
  | allow t =>
    obtain ⟨ordered, success⟩ := Option.ite_none_right_eq_some.mp success
    cases success
    exact ⟨sound.tracks.allow ordered, sound.spaced,
      fun u ok older newest => Instant.le_trans (sound.newest u ok older newest) ordered, Tracks.isOpen_of_allowed⟩
  | record t ok =>
    obtain ⟨⟨ordered, permit⟩, success⟩ := Option.ite_none_right_eq_some.mp success
    cases success
    have closed := sound.permitted permit
    refine ⟨sound.tracks.record closed t ok, ⟨?_, sound.spaced⟩, ?_, nofun⟩
    · intro u result older newest
      refine ⟨Instant.le_trans (sound.newest u result older newest) ordered, fun trips => ?_⟩
      rw [newest] at trips
      cases result with
      | true => cases trips
      | false => exact Nat.le_trans (sound.tracks.admits closed u older newest trips) (Instant.ms_mono ordered)
    · intro u result older newest
      cases newest
      exact Instant.le_refl t

theorem spaced_of_append {c : Settings} {later history : History} (spaced : Spaced c (later ++ history)) :
    Spaced c history := by
  induction later with
  | nil => exact spaced
  | cons _ _ ih => exact ih spaced.2

theorem Sound.lawful {c : Settings} {s : Use} (sound : Sound c s) : Lawful c s where
  denies t ordered := sound.tracks.allow_eq_false_iff ordered
  apart later v between u earlier history tripsLater tripsEarlier := by
    have spaced := sound.spaced
    rw [history] at spaced
    constructor
    · have few : failures c.trip (between ++ (u, false) :: earlier) ≤ _ := failures_after_trip tripsEarlier
      change failures c.trip (between ++ (u, false) :: earlier) + 1 = c.trip at tripsLater
      rw [List.filter_cons_of_pos rfl, List.length_cons]
      omega
    · have both : Spaced c (((v, false) :: between) ++ (u, false) :: earlier) := spaced_of_append spaced
      exact both.after_trip tripsEarlier List.mem_cons_self
  failN_lt := sound.tracks.counted ▸ failures_lt c.trip_pos s.history
  nsec_lt := sound.tracks.nsec_lt
  exact := sound.tracks.exact

/-- In every run of the breaker from its initialization, whatever its configuration, it behaves by the
rule. -/
theorem breaker_lawful (trip half : UInt32) (now : Instant) {events : List Use.Event} {s : Use}
    (ran : Use.machine.run (.start trip half now) events = some s) : Lawful (.ofConfig trip half) s :=
  (EventMachine.invariant (Sound (.ofConfig trip half)) sound_step (sound_start trip half now) ran).lawful

/-- Two failures trip the breaker at 1.9995 s, and the default half-open time carries into the seconds. -/
def trippingRun : List Use.Event :=
  [.allow ⟨⟨1, 0⟩, by decide, by decide⟩, .record ⟨⟨1, 0⟩, by decide, by decide⟩ false,
    .allow ⟨⟨1, 5⟩, by decide, by decide⟩, .record ⟨⟨1, 999500000⟩, by decide, by decide⟩ false,
    .allow ⟨⟨2, 198999999⟩, by decide, by decide⟩, .allow ⟨⟨2, 199000000⟩, by decide, by decide⟩]

theorem breaker_lawful_tripping : ∃ s,
    Use.machine.run (.start 2 0 ⟨⟨0, 0⟩, by decide, by decide⟩) trippingRun = some s ∧
      s.cb.openUntil = ⟨2, 199500000⟩ ∧ s.permit = true ∧ Lawful (.ofConfig 2 0) s := by
  have evaluated : (Use.machine.run (.start 2 0 ⟨⟨0, 0⟩, by decide, by decide⟩) trippingRun).map
      (fun s => (s.cb.openUntil, s.permit)) = some (⟨2, 199500000⟩, true) := by decide +kernel
  obtain ⟨s, ran, facts⟩ := Option.map_eq_some_iff.mp evaluated
  obtain ⟨deadline, permit⟩ := Prod.mk.inj facts
  exact ⟨s, ran, deadline, permit, breaker_lawful 2 0 _ ran⟩

end ProcessMonitor.Soundness.BreakerHistory
