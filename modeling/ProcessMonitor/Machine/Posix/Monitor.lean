import ProcessMonitor.Machine.Core.Measure

/-! # One producer, many consumers, a mutex, and a condition variable

Items are kept in a list that a mutex guards. A consumer that finds the list empty goes to sleep in
`pthread_cond_wait`, which gives the mutex up; the producer wakes one sleeper after each item. A woken
consumer is one of many that want the mutex, so it tests again, and it may also wake up for no reason. The
producer may make room before it adds an item; what it then removes is a parameter.

A sleeper is not forgotten: as long as somebody sleeps, there are at least as many consumers on their way to
the list as items in it, up to the signal that is still to come. So the threads, left to themselves, stop only
when the list is empty, and they do stop.
-/

namespace ProcessMonitor.Machine.Posix

namespace Monitor

/-- `entering` waits for the mutex. `inside` holds it and is about to test the list, and `leaving` holds it
with an item that has been taken. -/
inductive Consumer (α : Type*)
  | entering
  | inside
  | leaving (item : α)
  | asleep
  | busy (item : α)
deriving DecidableEq, Repr

/-- `entering` waits for the mutex. `inside` holds it and is about to make room, `roomy` to add the item,
`added` to signal, and `signalled` to unlock. -/
inductive Producer (α : Type*)
  | idle
  | entering (item : α)
  | inside (item : α)
  | roomy (item : α)
  | added
  | signalled
deriving DecidableEq, Repr

/-- Who holds the mutex. -/
inductive Owner
  | producer
  | consumer (i : ℕ)
deriving DecidableEq, Repr

end Monitor

open Monitor in
structure Monitor (α : Type*) where
  items : List α
  lock : Option Owner
  producer : Producer α
  consumers : List (Consumer α)

namespace Monitor

variable {α : Type*}

def start (count : ℕ) : Monitor α := ⟨[], none, .idle, List.replicate count .entering⟩

/-- What the threads do by themselves; `room` is what the producer leaves of the items before it adds one. -/
inductive Moves (room : List α → List α) (s : Monitor α) : Monitor α → Prop
  | lock (item) (phase : s.producer = .entering item) (free : s.lock = none) :
      Moves room s { s with lock := some .producer, producer := .inside item }
  | makeRoom (item) (phase : s.producer = .inside item) :
      Moves room s { s with items := room s.items, producer := .roomy item }
  | add (item) (phase : s.producer = .roomy item) :
      Moves room s { s with items := s.items ++ [item], producer := .added }
  | signal (i) (phase : s.producer = .added) (sleeper : s.consumers[i]? = some .asleep) :
      Moves room s { s with producer := .signalled, consumers := s.consumers.set i .entering }
  | signalNobody (phase : s.producer = .added) (nobody : ∀ c ∈ s.consumers, c ≠ .asleep) :
      Moves room s { s with producer := .signalled }
  | unlock (phase : s.producer = .signalled) : Moves room s { s with lock := none, producer := .idle }
  | enter (i) (phase : s.consumers[i]? = some .entering) (free : s.lock = none) :
      Moves room s { s with lock := some (.consumer i), consumers := s.consumers.set i .inside }
  | sleep (i) (phase : s.consumers[i]? = some .inside) (empty : s.items = []) :
      Moves room s { s with lock := none, consumers := s.consumers.set i .asleep }
  | take (i item items) (phase : s.consumers[i]? = some .inside) (first : s.items = item :: items) :
      Moves room s { s with items, consumers := s.consumers.set i (.leaving item) }
  | leave (i item) (phase : s.consumers[i]? = some (.leaving item)) :
      Moves room s { s with lock := none, consumers := s.consumers.set i (.busy item) }
  | finish (i item) (phase : s.consumers[i]? = some (.busy item)) :
      Moves room s { s with consumers := s.consumers.set i .entering }

/-- What comes from outside: a call of the producer, and a sleeper that wakes up without a signal. -/
inductive Disturbed (s : Monitor α) : Monitor α → Prop
  | put (item) (idle : s.producer = .idle) : Disturbed s { s with producer := .entering item }
  | wake (i) (phase : s.consumers[i]? = some .asleep) :
      Disturbed s { s with consumers := s.consumers.set i .entering }

/-! ## The mutex -/

def Consumer.holds : Consumer α → Bool
  | .inside | .leaving _ => true
  | _ => false

def Producer.holds : Producer α → Bool
  | .inside _ | .roomy _ | .added | .signalled => true
  | _ => false

/-- The mutex is held by the one thread that is between lock and unlock. -/
structure Held (lock : Option Owner) (producer : Producer α) (consumers : List (Consumer α)) : Prop where
  producerHolds : producer.holds = true ↔ lock = some .producer
  consumerHolds : ∀ {i c}, consumers[i]? = some c → (c.holds = true ↔ lock = some (.consumer i))
  owner : ∀ {i}, lock = some (.consumer i) → i < consumers.length

namespace Held

variable {lock now : Option Owner} {producer after : Producer α} {consumers : List (Consumer α)}

/-- A consumer moves, and what the others have of the mutex stays as it is. -/
theorem set (held : Held lock producer consumers) {i : ℕ} {old new : Consumer α} (found : consumers[i]? = some old)
    (mine : new.holds = true ↔ now = some (.consumer i))
    (others : ∀ j ≠ i, now = some (.consumer j) ↔ lock = some (.consumer j))
    (theirs : after.holds = true ↔ now = some .producer) : Held now after (consumers.set i new) where
  producerHolds := theirs
  consumerHolds := by
    intro j c here
    rcases thread_of_set here with ⟨rfl, rfl⟩ | ⟨other, same⟩
    · exact mine
    · exact (held.consumerHolds same).trans (others j (Ne.symm other)).symm
  owner := by
    intro j locked
    rw [List.length_set]
    by_cases same : j = i
    · rw [same]
      exact (List.getElem?_eq_some_iff.mp found).1
    · exact held.owner ((others j same).mp locked)

/-- The producer moves. -/
theorem produce (held : Held lock producer consumers) (theirs : after.holds = true ↔ now = some .producer)
    (others : ∀ j, now = some (.consumer j) ↔ lock = some (.consumer j)) : Held now after consumers where
  producerHolds := theirs
  consumerHolds found := (held.consumerHolds found).trans (others _).symm
  owner locked := held.owner ((others _).mp locked)

/-- A consumer moves and keeps what it has of the mutex. -/
theorem keep (held : Held lock producer consumers) {i : ℕ} {old new : Consumer α} (found : consumers[i]? = some old)
    (same : new.holds = old.holds) (still : after.holds = producer.holds) :
    Held lock after (consumers.set i new) :=
  held.set found (same ▸ held.consumerHolds found) (fun _ _ => Iff.rfl) (still ▸ held.producerHolds)

/-- A consumer takes the free mutex. -/
theorem lock_consumer (held : Held none producer consumers) {i : ℕ} {old new : Consumer α}
    (found : consumers[i]? = some old) (holds : new.holds = true) :
    Held (some (.consumer i)) producer (consumers.set i new) := by
  refine held.set found ⟨fun _ => rfl, fun _ => holds⟩ (fun j other => ?_) ⟨fun inside => ?_, nofun⟩
  · exact ⟨fun same => absurd (Owner.consumer.inj (Option.some.inj same)).symm other, nofun⟩
  · cases held.producerHolds.mp inside

/-- A consumer gives the mutex up. -/
theorem unlock_consumer (held : Held lock producer consumers) {i : ℕ} {old new : Consumer α}
    (found : consumers[i]? = some old) (inside : old.holds = true) (away : new.holds = false) :
    Held none producer (consumers.set i new) := by
  have locked := (held.consumerHolds found).mp inside
  refine held.set found ⟨fun holds => ?_, nofun⟩ (fun j other => ?_) ⟨fun holds => ?_, nofun⟩
  · rw [away] at holds
    cases holds
  · rw [locked]
    exact ⟨nofun, fun same => absurd (Owner.consumer.inj (Option.some.inj same)).symm other⟩
  · have both := held.producerHolds.mp holds
    rw [locked] at both
    cases both

end Held

/-! ## The sleepers -/

/-- A consumer that will test the list before it can go to sleep. -/
def Consumer.ready : Consumer α → ℕ
  | .entering | .inside => 1
  | _ => 0

def Consumer.sleeps : Consumer α → ℕ
  | .asleep => 1
  | _ => 0

/-- A signal that is still to come. -/
def Producer.owes : Producer α → ℕ
  | .added => 1
  | _ => 0

/-- If somebody sleeps, every item has a consumer on its way or a signal to come. -/
structure Sound (s : Monitor α) : Prop where
  held : Held s.lock s.producer s.consumers
  woken : tally Consumer.sleeps s.consumers ≠ 0 →
    s.items.length ≤ tally Consumer.ready s.consumers + s.producer.owes

theorem sound_start (count : ℕ) : (start count : Monitor α).Sound where
  held := {
    producerHolds := ⟨nofun, nofun⟩
    consumerHolds := by
      intro i c found
      rw [List.eq_of_mem_replicate (List.mem_of_getElem? found)]
      exact ⟨nofun, nofun⟩
    owner := nofun }
  woken _ := Nat.zero_le _

variable {room : List α → List α} {s next : Monitor α}

theorem Sound.moves (sound : s.Sound) (shorter : ∀ items, (room items).length ≤ items.length)
    (moves : Moves room s next) : next.Sound := by
  obtain ⟨held, woken⟩ := sound
  cases moves with
  | lock item phase free =>
    rw [free] at held
    rw [phase] at woken
    exact ⟨held.produce ⟨fun _ => rfl, fun _ => rfl⟩ fun _ => ⟨nofun, nofun⟩, woken⟩
  | makeRoom item phase =>
    rw [phase] at held woken
    exact ⟨held.produce held.producerHolds fun _ => Iff.rfl, fun sleeping => Nat.le_trans (shorter _) (woken sleeping)⟩
  | add item phase =>
    rw [phase] at held woken
    refine ⟨held.produce held.producerHolds fun _ => Iff.rfl, fun sleeping => ?_⟩
    have before := woken sleeping
    simp only [Producer.owes, List.length_append, List.length_singleton] at before ⊢
    omega
  | signal i phase sleeper =>
    rw [phase] at held woken
    refine ⟨held.keep sleeper rfl rfl, fun _ => ?_⟩
    -- the item that was added last is left to the consumer that has been woken
    have asleep : tally Consumer.sleeps s.consumers ≠ 0 :=
      Nat.pos_iff_ne_zero.mp (le_tally Consumer.sleeps (List.mem_of_getElem? sleeper))
    have before := woken asleep
    have ready := tally_set Consumer.ready sleeper .entering
    simp only [Producer.owes, Consumer.ready] at before ready ⊢
    omega
  | signalNobody phase nobody =>
    rw [phase] at held
    refine ⟨held.produce held.producerHolds fun _ => Iff.rfl, fun sleeping => absurd ?_ sleeping⟩
    apply tally_eq_zero_iff.mpr
    intro c member
    cases c with
    | asleep => exact absurd rfl (nobody _ member)
    | _ => rfl
  | unlock phase =>
    rw [phase] at held woken
    have locked := held.producerHolds.mp rfl
    refine ⟨held.produce ⟨nofun, nofun⟩ fun _ => ⟨nofun, fun same => ?_⟩, woken⟩
    rw [locked] at same
    cases same
  | enter i phase free =>
    rw [free] at held
    have ready := tally_set Consumer.ready phase .inside
    have sleeps := tally_set Consumer.sleeps phase .inside
    refine ⟨held.lock_consumer phase rfl, fun sleeping => ?_⟩
    simp only [Consumer.ready, Consumer.sleeps] at ready sleeps
    dsimp only at sleeping ⊢
    have before := woken (by omega)
    omega
  | sleep i phase empty =>
    refine ⟨held.unlock_consumer phase rfl rfl, fun _ => ?_⟩
    dsimp only
    rw [empty]
    exact Nat.zero_le _
  | take i item items phase first =>
    have ready := tally_set Consumer.ready phase (.leaving item)
    have sleeps := tally_set Consumer.sleeps phase (.leaving item)
    refine ⟨held.keep phase rfl rfl, fun sleeping => ?_⟩
    simp only [Consumer.ready, Consumer.sleeps] at ready sleeps
    dsimp only at sleeping ⊢
    have before := woken (by omega)
    rw [first, List.length_cons] at before
    omega
  | leave i item phase =>
    have ready := tally_set Consumer.ready phase (.busy item)
    have sleeps := tally_set Consumer.sleeps phase (.busy item)
    refine ⟨held.unlock_consumer phase rfl rfl, fun sleeping => ?_⟩
    simp only [Consumer.ready, Consumer.sleeps] at ready sleeps
    dsimp only at sleeping ⊢
    have before := woken (by omega)
    omega
  | finish i item phase =>
    have ready := tally_set Consumer.ready phase .entering
    have sleeps := tally_set Consumer.sleeps phase .entering
    refine ⟨held.keep phase rfl rfl, fun sleeping => ?_⟩
    simp only [Consumer.ready, Consumer.sleeps] at ready sleeps
    dsimp only at sleeping ⊢
    have before := woken (by omega)
    omega

theorem Sound.disturbed (sound : s.Sound) (disturbed : Disturbed s next) : next.Sound := by
  obtain ⟨held, woken⟩ := sound
  cases disturbed with
  | put item idle =>
    rw [idle] at held woken
    exact ⟨held.produce held.producerHolds fun _ => Iff.rfl, woken⟩
  | wake i phase =>
    have ready := tally_set Consumer.ready phase .entering
    have asleep : tally Consumer.sleeps s.consumers ≠ 0 :=
      Nat.pos_iff_ne_zero.mp (le_tally Consumer.sleeps (List.mem_of_getElem? phase))
    refine ⟨held.keep phase rfl rfl, fun _ => ?_⟩
    simp only [Consumer.ready] at ready
    have before := woken asleep
    dsimp only
    omega

/-! ## The end of the work -/

/-- The steps a consumer still has before it sleeps, if it finds no item. -/
def Consumer.left : Consumer α → ℕ
  | .asleep => 0
  | .inside => 1
  | .entering => 2
  | .busy _ => 3
  | .leaving _ => 4

/-- The steps of the producer, with those of the consumer it wakes and of the one that gets its item. -/
def Producer.left : Producer α → ℕ
  | .idle => 0
  | .signalled => 1
  | .added => 4
  | .roomy _ => 9
  | .inside _ => 10
  | .entering _ => 11

def left (s : Monitor α) : ℕ := 4 * s.items.length + tally Consumer.left s.consumers + s.producer.left

/-- The threads do not go on for ever. -/
theorem left_lt (shorter : ∀ items, (room items).length ≤ items.length) (moves : Moves room s next) :
    next.left < s.left := by
  cases moves with
  | lock item phase free => simp only [left, phase, Producer.left]; omega
  | makeRoom item phase =>
    have := shorter s.items
    simp only [left, phase, Producer.left]
    omega
  | add item phase =>
    simp only [left, phase, Producer.left, List.length_append, List.length_singleton]
    omega
  | signal i phase sleeper =>
    have := tally_set Consumer.left sleeper .entering
    simp only [left, phase, Producer.left, Consumer.left] at this ⊢
    omega
  | signalNobody phase nobody => simp only [left, phase, Producer.left]; omega
  | unlock phase => simp only [left, phase, Producer.left]; omega
  | enter i phase free =>
    have := tally_set Consumer.left phase .inside
    simp only [left, Consumer.left] at this ⊢
    omega
  | sleep i phase empty =>
    have := tally_set Consumer.left phase .asleep
    simp only [left, Consumer.left] at this ⊢
    omega
  | take i item items phase first =>
    have := tally_set Consumer.left phase (.leaving item)
    simp only [left, Consumer.left, first, List.length_cons] at this ⊢
    omega
  | leave i item phase =>
    have := tally_set Consumer.left phase (.busy item)
    simp only [left, Consumer.left] at this ⊢
    omega
  | finish i item phase =>
    have := tally_set Consumer.left phase .entering
    simp only [left, Consumer.left] at this ⊢
    omega

/-- Nothing is left to do: no item, no call of the producer, and all consumers asleep. -/
structure AtRest (s : Monitor α) : Prop where
  items : s.items = []
  producer : s.producer = .idle
  consumers : ∀ c ∈ s.consumers, c = .asleep

/-- A thread that holds the mutex can go on. -/
theorem Sound.free_of_stuck (sound : s.Sound) (stuck : ∀ next, ¬ Moves room s next) : s.lock = none := by
  cases locked : s.lock with
  | none => rfl
  | some owner =>
    cases owner with
    | producer =>
      have holds := sound.held.producerHolds.mpr locked
      cases phase : s.producer with
      | idle => rw [phase] at holds; cases holds
      | entering => rw [phase] at holds; cases holds
      | inside item => exact absurd (.makeRoom item phase) (stuck _)
      | roomy item => exact absurd (.add item phase) (stuck _)
      | added =>
        by_cases sleeper : Consumer.asleep ∈ s.consumers
        · obtain ⟨i, found⟩ := List.mem_iff_getElem?.mp sleeper
          exact absurd (.signal i phase found) (stuck _)
        · exact absurd (.signalNobody phase fun c member same => sleeper (same ▸ member)) (stuck _)
      | signalled => exact absurd (.unlock phase) (stuck _)
    | consumer i =>
      obtain ⟨c, found⟩ : ∃ c, s.consumers[i]? = some c := ⟨_, List.getElem?_eq_getElem (sound.held.owner locked)⟩
      have holds := (sound.held.consumerHolds found).mpr locked
      cases c with
      | inside =>
        cases items : s.items with
        | nil => exact absurd (.sleep i found items) (stuck _)
        | cons item rest => exact absurd (.take i item rest found items) (stuck _)
      | leaving item => exact absurd (.leave i item found) (stuck _)
      | entering => cases holds
      | asleep => cases holds
      | busy => cases holds

/-- If there is a consumer at all, the threads can stop nowhere else. -/
theorem Sound.atRest (sound : s.Sound) (nonempty : s.consumers ≠ []) (stuck : ∀ next, ¬ Moves room s next) :
    s.AtRest := by
  have free := sound.free_of_stuck stuck
  have idle : s.producer = .idle := by
    have away : s.producer.holds ≠ true := fun holds => by
      rw [sound.held.producerHolds, free] at holds
      cases holds
    cases phase : s.producer with
    | idle => rfl
    | entering item => exact absurd (.lock item phase free) (stuck _)
    | inside | roomy | added | signalled => exact absurd (by rw [phase]; rfl) away
  have asleep : ∀ c ∈ s.consumers, c = .asleep := by
    intro c member
    obtain ⟨i, found⟩ := List.mem_iff_getElem?.mp member
    have away : c.holds ≠ true := fun holds => by
      rw [sound.held.consumerHolds found, free] at holds
      cases holds
    cases c with
    | asleep => rfl
    | entering => exact absurd (.enter i found free) (stuck _)
    | busy item => exact absurd (.finish i item found) (stuck _)
    | inside | leaving => exact absurd rfl away
  refine ⟨?_, idle, asleep⟩
  -- the sleepers are all there is, so no item can be left to one of the others
  have ready : tally Consumer.ready s.consumers = 0 := tally_eq_zero_iff.mpr fun c member => by
    rw [asleep c member]
    rfl
  obtain ⟨c, member⟩ := List.exists_mem_of_ne_nil _ nonempty
  have sleeps : tally Consumer.sleeps s.consumers ≠ 0 := by
    have counted := le_tally Consumer.sleeps member
    rw [asleep c member] at counted
    exact Nat.pos_iff_ne_zero.mp counted
  have covered := sound.woken sleeps
  rw [ready, idle] at covered
  exact List.eq_nil_of_length_eq_zero (Nat.le_zero.mp covered)

end Monitor

end ProcessMonitor.Machine.Posix
