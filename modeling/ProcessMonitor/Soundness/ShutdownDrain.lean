import ProcessMonitor.Model.Vts.ThreadsCoords
import ProcessMonitor.Soundness.FifoQueue
import ProcessMonitor.Soundness.FifoRace
import ProcessMonitor.Soundness.LogRotation

/-! # Draining the FIFO at the end

Nothing counts the rounds of the second loop, so it ends only when a pop finds no message. Every message that it
logs has stood in a slot of its own: the messages that are logged, taken or still in a slot are never more than
those that were in the slots when the flag was seen and those stored since. As long as these are at most 1000 the
loop stays under its bound, and no other bound holds in a ring that can hold a message at all.
-/

namespace ProcessMonitor.Soundness.ShutdownDrain

open Machine Machine.Posix Model.Vts

/-- The messages in the slots. -/
def occupied (slots : List (Option Message)) : ℕ := slots.countP Option.isSome

/-- The messages that have been stored in a slot so far. -/
def written (s : SharedFifo) : ℕ :=
  s.pushed + match s.producer with
    | .storeTail .. => 1
    | _ => 0

def slots (s : SharedFifo) : List (Option Message) := s.fifo.buf.getD []

/-- In every run, if the messages in the slots when the flag is seen and those stored since are at most `total`, the
thread logs at most 1000 messages after it has seen the flag. -/
def Bounded (cap total : ℕ) : Prop :=
  ∀ (log : VtsLog) (before after : List CoordsThread.Event) (s t : CoordsThread),
    CoordsThread.machine.run (.start cap log) before = some s → s.phase = .testCount 0 → s.drained = [] →
    CoordsThread.machine.run s after = some t →
    occupied (slots s.shared) + written t.shared ≤ total + written s.shared → t.drained.length ≤ 1000

/-! ## What there is to log -/

theorem occupied_set_le (l : List (Option Message)) (i : ℕ) (v : Option Message) :
    occupied (l.set i v) ≤ occupied l + v.toList.length := by
  rcases Nat.lt_or_ge i l.length with inside | outside
  · rw [occupied, List.countP_set inside, occupied]
    cases v <;> simp
  · rw [List.set_eq_of_length_le outside]
    exact Nat.le_add_right _ _

/-- A message that is read from its slot is one of them. -/
theorem occupied_read {l : List (Option Message)} {i : ℕ} {v : Option Message} (found : l[i]? = some v) :
    occupied (l.set i none) + v.toList.length = occupied l := by
  obtain ⟨inside, same⟩ := List.getElem?_eq_some_iff.mp found
  have back : (l.set i none).set i v = l := by rw [List.set_set, ← same, List.set_getElem_self]
  have bound : i < (l.set i none).length := by rwa [List.length_set]
  have counted : occupied ((l.set i none).set i v) = occupied (l.set i none) + v.toList.length := by
    rw [occupied, List.countP_set bound, occupied, List.getElem_set_self]
    cases v <;> simp
  rw [← counted, back]

/-- The slots without the one that a pop has read and not yet cleared. -/
def unread (l : List (Option Message)) : Consumer → List (Option Message)
  | .clearSlot head _ => l.set head none
  | _ => l

theorem occupied_unread_set_le (l : List (Option Message)) (consumer : Consumer) (i : ℕ) (v : Option Message) :
    occupied (unread (l.set i v) consumer) ≤ occupied (unread l consumer) + v.toList.length := by
  cases consumer with
  | clearSlot head out =>
    by_cases same : i = head
    · rw [same]
      dsimp only [unread]
      rw [List.set_set]
      exact Nat.le_add_right _ _
    · dsimp only [unread]
      rw [List.set_comm _ _ same]
      exact occupied_set_le _ i v
  | _ => exact occupied_set_le l i v

/-- The messages in the FIFO and in the hands of a pop. -/
def stock (s : SharedFifo) : ℕ := occupied (unread (slots s) s.consumer) + (FifoRace.held s.consumer).length

theorem stock_setSlot {s : SharedFifo} {fifo : Fifo} {i : ℕ} {v : Option Message}
    (wrote : s.fifo.setSlot i v = some fifo) (producer : Producer) :
    stock { s with fifo, producer } ≤ stock s + v.toList.length := by
  obtain ⟨l, buf, -, rfl⟩ := Fifo.setSlot_inv wrote
  have before : slots s = l := by rw [slots, buf, Option.getD_some]
  have bound := occupied_unread_set_le l s.consumer i v
  simp only [stock, before]
  change occupied (unread (l.set i v) s.consumer) + _ ≤ _
  omega

/-- Every access of a push: the stock grows only by what is written into a slot. -/
theorem stock_producer {s next : SharedFifo} (moved : s.stepProducer = some next) :
    next.consumer = s.consumer ∧ stock next + written s ≤ stock s + written next := by
  obtain ⟨fifo, producer, consumer, pushed, freed, returned, rets⟩ := s
  cases producer with
  | idle => cases moved
  | loadHead | freeOld | storeHead | storeTail | storeMetrics | reloadMetrics | depthHead | storeDepth =>
    cases moved
    exact ⟨rfl, Nat.le_refl _⟩
  | loadMetrics msg tail head =>
    cases moved
    refine ⟨rfl, Nat.le_of_eq ?_⟩
    simp only [written]
    split <;> rfl
  | readOld =>
    obtain ⟨old, -, rfl⟩ := Option.map_eq_some_iff.mp moved
    exact ⟨rfl, Nat.le_refl _⟩
  | clearOld msg tail head m =>
    obtain ⟨cleared, wrote, rfl⟩ := Option.map_eq_some_iff.mp moved
    exact ⟨rfl, Nat.add_le_add_right (stock_setSlot wrote _) _⟩
  | writeSlot msg tail m dropped =>
    obtain ⟨stored, wrote, rfl⟩ := Option.map_eq_some_iff.mp moved
    refine ⟨rfl, ?_⟩
    have grown := stock_setSlot (s := ⟨fifo, .writeSlot msg tail m dropped, consumer, pushed, freed, returned, rets⟩)
      wrote (.storeTail tail m dropped ⟨pushed, msg.getD []⟩)
    dsimp only [written] at grown ⊢
    simp only [Option.toList_some, List.length_singleton] at grown
    omega
  | depthTail m dropped head =>
    simp only [SharedFifo.stepProducer] at moved
    split at moved
    · cases moved
      exact ⟨rfl, Nat.le_refl _⟩
    · cases moved
      exact ⟨rfl, Nat.le_refl _⟩

/-- Every access of a pop: what it returns was in stock. -/
theorem stock_stepPop {s next : SharedFifo} {result : Option (Option Message)}
    (popped : s.stepPop = some (next, result)) :
    stock next + (result.getD none).toList.length ≤ stock s ∧ written next = written s ∧
      (result ≠ none → next.consumer = .idle) := by
  obtain ⟨fifo, producer, consumer, pushed, freed, returned, rets⟩ := s
  cases consumer with
  | idle =>
    cases popped
    exact ⟨Nat.le_refl _, rfl, fun impossible => absurd rfl impossible⟩
  | loadTail head =>
    simp only [SharedFifo.stepPop, SharedFifo.step, SharedFifo.stepConsumer, SharedFifo.popResult, reduceCtorEq,
      if_false] at popped
    split at popped
    · cases popped
      exact ⟨Nat.le_refl _, rfl, fun _ => rfl⟩
    · cases popped
      exact ⟨Nat.le_refl _, rfl, fun impossible => absurd rfl impossible⟩
  | readSlot head =>
    obtain ⟨read, stepped, same⟩ := Option.map_eq_some_iff.mp popped
    obtain ⟨out, found, rfl⟩ := Option.map_eq_some_iff.mp stepped
    cases same
    obtain ⟨l, buf, cell⟩ := Option.bind_eq_some_iff.mp found
    refine ⟨?_, rfl, fun impossible => absurd rfl impossible⟩
    change fifo.buf = some l at buf
    change occupied ((fifo.buf.getD []).set head none) + out.toList.length ≤ occupied (fifo.buf.getD [])
    rw [buf, Option.getD_some]
    exact Nat.le_of_eq (occupied_read cell)
  | clearSlot head out =>
    obtain ⟨cleared, stepped, same⟩ := Option.map_eq_some_iff.mp popped
    obtain ⟨stored, wrote, rfl⟩ := Option.map_eq_some_iff.mp stepped
    cases same
    obtain ⟨l, buf, -, rfl⟩ := Fifo.setSlot_inv wrote
    refine ⟨?_, rfl, fun impossible => absurd rfl impossible⟩
    change fifo.buf = some l at buf
    change occupied (l.set head none) + out.toList.length ≤
      occupied ((fifo.buf.getD []).set head none) + out.toList.length
    rw [buf, Option.getD_some]
  | storeHead head out =>
    cases popped
    exact ⟨Nat.le_refl _, rfl, fun impossible => absurd rfl impossible⟩
  | loadMetrics out =>
    cases popped
    exact ⟨Nat.le_refl _, rfl, fun impossible => absurd rfl impossible⟩
  | storeMetrics out m =>
    cases popped
    exact ⟨Nat.le_refl _, rfl, fun _ => rfl⟩

/-- A step of the FIFO, and the number of messages that it hands out. -/
inductive Draws (s : SharedFifo) : SharedFifo → ℕ → Prop
  | rest : Draws s s 0
  | push {msg : Option Bytes} {next : SharedFifo} (moved : s.step (.push msg) = some next) : Draws s next 0
  | producer {next : SharedFifo} (moved : s.stepProducer = some next) : Draws s next 0
  | pop {next : SharedFifo} {result : Option (Option Message)} (popped : s.stepPop = some (next, result)) :
      Draws s next (result.getD none).toList.length

theorem stock_draws {s next : SharedFifo} {taken : ℕ} (draws : Draws s next taken) :
    stock next + taken + written s ≤ stock s + written next := by
  cases draws with
  | rest => exact Nat.le_refl _
  | push moved =>
    obtain ⟨idle, same⟩ := Option.ite_none_right_eq_some.mp moved
    cases same
    simp only [written, idle]
    exact Nat.le_refl _
  | producer moved => exact (stock_producer moved).2
  | pop popped =>
    obtain ⟨less, same, -⟩ := stock_stepPop popped
    omega

/-! ## What the thread logs -/

/-- The messages logged in the second loop, and the one it is about to log. -/
def logged (s : CoordsThread) : ℕ :=
  s.drained.length + match s.phase with
    | .drainLogging .. => 1
    | _ => 0

/-- The thread logs what a pop has handed out. -/
theorem logged_step {s next : CoordsThread} (moves : CoordsThread.Moves s next) :
    ∃ taken, Draws s.shared next.shared taken ∧ logged next ≤ logged s + taken := by
  cases moves with
  | push msg shared moved => exact ⟨0, .push moved, Nat.le_refl _⟩
  | producer shared moved => exact ⟨0, .producer moved, Nat.le_refl _⟩
  | stop => exact ⟨0, .rest, Nat.le_refl _⟩
  | testStop phase =>
    refine ⟨0, .rest, ?_⟩
    simp only [logged, phase]
    cases s.gStop <;> exact Nat.le_refl _
  | pop shared result phase popped =>
    refine ⟨_, .pop popped, ?_⟩
    simp only [logged, phase]
    rcases result with _ | _ | msg <;> exact Nat.le_add_right _ _
  | sleep phase => exact ⟨0, .rest, by simp only [logged, phase, Nat.le_refl]⟩
  | log msg phase => exact ⟨0, .rest, by simp only [logged, phase, Nat.le_refl]⟩
  | testCount i phase =>
    refine ⟨0, .rest, ?_⟩
    simp only [logged, phase]
    split_ifs <;> exact Nat.le_refl _
  | drainPop i shared result phase popped =>
    refine ⟨_, .pop popped, ?_⟩
    simp only [logged, phase]
    rcases result with _ | _ | m <;> exact Nat.le_refl _
  | drainLog i m phase =>
    refine ⟨0, .rest, ?_⟩
    simp only [logged, phase, List.length_append, List.length_singleton, Nat.le_refl]

theorem logged_run {s t : CoordsThread} {events : List CoordsThread.Event}
    (ran : CoordsThread.machine.run s events = some t) :
    logged t + stock t.shared + written s.shared ≤ logged s + stock s.shared + written t.shared := by
  apply EventMachine.invariant (fun t => logged t + stock t.shared + written s.shared ≤
    logged s + stock s.shared + written t.shared) _ (Nat.le_refl _) ran
  intro t event next bound moved
  obtain ⟨taken, draws, more⟩ := logged_step (CoordsThread.moves_of_step moved)
  have fewer := stock_draws draws
  omega

/-- Outside its pops the thread is not in one. -/
def Quiet (s : CoordsThread) : Prop :=
  match s.phase with
  | .popping | .drainPopping _ => True
  | _ => s.shared.consumer = .idle

theorem quiet_step {s next : CoordsThread} (quiet : Quiet s) (moves : CoordsThread.Moves s next) : Quiet next := by
  have kept {shared : SharedFifo} (same : shared.consumer = s.shared.consumer) : Quiet { s with shared } := by
    unfold Quiet at quiet ⊢
    dsimp only
    rw [same]
    exact quiet
  unfold Quiet at quiet
  cases moves with
  | push msg shared moved =>
    cases (Option.ite_none_right_eq_some.mp moved).2
    exact kept rfl
  | producer shared moved => exact kept (stock_producer moved).1
  | stop => exact kept rfl
  | testStop phase =>
    rw [phase] at quiet
    unfold Quiet
    cases s.gStop with
    | true => exact quiet
    | false => trivial
  | pop shared result phase popped =>
    rcases result with _ | _ | msg
    · trivial
    · exact (stock_stepPop popped).2.2 (by simp)
    · exact (stock_stepPop popped).2.2 (by simp)
  | sleep phase =>
    rw [phase] at quiet
    exact quiet
  | log msg phase =>
    rw [phase] at quiet
    exact quiet
  | testCount i phase =>
    rw [phase] at quiet
    unfold Quiet
    dsimp only
    split_ifs
    · trivial
    · exact quiet
  | drainPop i shared result phase popped =>
    rcases result with _ | _ | msg
    · trivial
    · exact (stock_stepPop popped).2.2 (by simp)
    · exact (stock_stepPop popped).2.2 (by simp)
  | drainLog i m phase =>
    rw [phase] at quiet
    exact quiet

theorem quiet_of_run {cap : ℕ} {log : VtsLog} {events : List CoordsThread.Event} {s : CoordsThread}
    (ran : CoordsThread.machine.run (.start cap log) events = some s) : Quiet s := by
  have initial : Quiet (.start cap log) := by
    unfold Quiet
    rfl
  apply EventMachine.invariant Quiet _ initial ran
  exact fun _ _ _ quiet moved => quiet_step quiet (CoordsThread.moves_of_step moved)

theorem bounded_of_le (cap : ℕ) {total : ℕ} (few : total ≤ 1000) : Bounded cap total := by
  intro log before after s t reached phase undrained ran within
  have quiet := quiet_of_run reached
  have spent := logged_run ran
  have most : t.drained.length ≤ logged t := Nat.le_add_right _ _
  unfold Quiet at quiet
  rw [phase] at quiet
  have stocked : stock s.shared = occupied (slots s.shared) := by
    rw [stock, quiet]
    rfl
  have nothing : logged s = 0 := by
    rw [logged, phase, undrained]
    rfl
  omega

/-! ## Rings without room for a message -/

/-- The indices a push has loaded; it goes on to a store only if there is a slot. -/
def TinyPush (cap : ℕ) : Producer → Prop
  | .loadHead _ tail | .writeSlot _ tail _ _ => tail = 0
  | .loadMetrics _ tail head => tail = 0 ∧ head = 0
  | .readOld _ tail head _ | .freeOld _ tail head _ _ | .clearOld _ tail head _ | .storeHead _ tail head _ =>
    tail = 0 ∧ head = 0 ∧ cap = 1
  | .storeTail tail _ _ _ => tail = 0 ∧ cap = 1
  | _ => True

/-- With at most one slot both indices stay at zero, so that the FIFO is always empty. -/
structure Tiny (s : SharedFifo) : Prop where
  cap : s.fifo.cap ≤ 1
  sized : (slots s).length = s.fifo.cap
  head : s.fifo.head = 0
  tail : s.fifo.tail = 0
  push : TinyPush s.fifo.cap s.producer
  pop : s.consumer = .idle ∨ s.consumer = .loadTail 0

namespace Tiny

theorem start {cap : ℕ} (small : cap ≤ 1) : Tiny (.start cap) where
  cap := small
  sized := List.length_replicate
  head := rfl
  tail := rfl
  push := trivial
  pop := .inl rfl

theorem setSlot {s : SharedFifo} (tiny : Tiny s) {fifo : Fifo} {i : ℕ} {v : Option Message}
    (wrote : s.fifo.setSlot i v = some fifo) (producer : Producer)
    (push : s.fifo.cap = 1 → TinyPush s.fifo.cap producer) : Tiny { s with fifo, producer } := by
  obtain ⟨l, buf, inside, rfl⟩ := Fifo.setSlot_inv wrote
  have sized : l.length = s.fifo.cap := by
    rw [← tiny.sized, slots, buf, Option.getD_some]
  have cap := tiny.cap
  exact ⟨cap, List.length_set.trans sized, tiny.head, tiny.tail, push (by omega), tiny.pop⟩

theorem nextIdx_zero {cap : ℕ} (one : cap = 1) : nextIdx 0 cap = 0 := if_pos one.symm

theorem stepProducer {s next : SharedFifo} (tiny : Tiny s) (moved : s.stepProducer = some next) : Tiny next := by
  obtain ⟨fifo, producer, consumer, pushed, freed, returned, rets⟩ := s
  obtain ⟨cap, sized, head, tail, push, pop⟩ := tiny
  cases producer with
  | idle => cases moved
  | loadHead =>
    cases moved
    exact ⟨cap, sized, head, tail, ⟨push, head⟩, pop⟩
  | loadMetrics msg t h =>
    cases moved
    refine ⟨cap, sized, head, tail, ?_, pop⟩
    dsimp only
    split
    next full =>
      refine ⟨push.1, push.2, ?_⟩
      rw [push.1, push.2, nextIdx] at full
      split at full
      next one => exact one.symm
      next => cases full
    next => exact push.1
  | readOld =>
    obtain ⟨old, -, rfl⟩ := Option.map_eq_some_iff.mp moved
    exact ⟨cap, sized, head, tail, push, pop⟩
  | freeOld =>
    cases moved
    exact ⟨cap, sized, head, tail, push, pop⟩
  | clearOld =>
    obtain ⟨cleared, wrote, rfl⟩ := Option.map_eq_some_iff.mp moved
    exact setSlot ⟨cap, sized, head, tail, push, pop⟩ wrote _ fun _ => push
  | storeHead msg t h m =>
    cases moved
    obtain ⟨zero, rfl, one⟩ := push
    exact ⟨cap, sized, nextIdx_zero one, tail, zero, pop⟩
  | writeSlot msg t m dropped =>
    obtain ⟨stored, wrote, rfl⟩ := Option.map_eq_some_iff.mp moved
    exact setSlot ⟨cap, sized, head, tail, push, pop⟩ wrote (.storeTail t m dropped ⟨pushed, msg.getD []⟩)
      fun one => ⟨push, one⟩
  | storeTail t m dropped dup =>
    cases moved
    obtain ⟨rfl, one⟩ := push
    exact ⟨cap, sized, head, nextIdx_zero one, trivial, pop⟩
  | storeMetrics | reloadMetrics | depthHead | storeDepth =>
    cases moved
    exact ⟨cap, sized, head, tail, trivial, pop⟩
  | depthTail m dropped h =>
    simp only [SharedFifo.stepProducer] at moved
    split at moved
    · cases moved
      exact ⟨cap, sized, head, tail, trivial, pop⟩
    · cases moved
      exact ⟨cap, sized, head, tail, trivial, pop⟩

theorem stepPop {s next : SharedFifo} {result : Option (Option Message)} (tiny : Tiny s)
    (popped : s.stepPop = some (next, result)) : Tiny next ∧ (result.getD none).toList.length = 0 := by
  obtain ⟨fifo, producer, consumer, pushed, freed, returned, rets⟩ := s
  obtain ⟨cap, sized, head, tail, push, pop⟩ := tiny
  rcases pop with idle | loaded
  · cases idle
    cases popped
    exact ⟨⟨cap, sized, head, tail, push, .inr (congrArg _ head)⟩, rfl⟩
  · cases loaded
    have empty : 0 = fifo.tail := tail.symm
    simp only [SharedFifo.stepPop, SharedFifo.step, SharedFifo.stepConsumer, SharedFifo.popResult, reduceCtorEq,
      if_false, if_pos empty] at popped
    cases popped
    exact ⟨⟨cap, sized, head, tail, push, .inl rfl⟩, rfl⟩

theorem draws {s next : SharedFifo} {taken : ℕ} (tiny : Tiny s) (draws : Draws s next taken) :
    Tiny next ∧ taken = 0 := by
  cases draws with
  | rest => exact ⟨tiny, rfl⟩
  | push moved =>
    cases (Option.ite_none_right_eq_some.mp moved).2
    exact ⟨⟨tiny.cap, tiny.sized, tiny.head, tiny.tail, tiny.tail, tiny.pop⟩, rfl⟩
  | producer moved => exact ⟨tiny.stepProducer moved, rfl⟩
  | pop popped => exact tiny.stepPop popped

end Tiny

theorem bounded_of_tiny {cap : ℕ} (small : cap ≤ 1) (total : ℕ) : Bounded cap total := by
  intro log before after s t reached _ _ ran _
  have whole : CoordsThread.machine.run (.start cap log) (before ++ after) = some t := by
    rw [EventMachine.run_append, reached, Option.bind_some, ran]
  have kept : Tiny t.shared ∧ logged t = 0 := by
    apply EventMachine.invariant (fun t => Tiny t.shared ∧ logged t = 0) _ ⟨Tiny.start small, rfl⟩ whole
    intro t event next kept moved
    obtain ⟨taken, draws, more⟩ := logged_step (CoordsThread.moves_of_step moved)
    obtain ⟨tiny, rfl⟩ := kept.1.draws draws
    exact ⟨tiny, by omega⟩
  have most : t.drained.length ≤ logged t := Nat.le_add_right _ _
  omega

/-! ## Runs over the bound -/

/-- Both sides are between two calls, and the ring holds `items`. -/
structure Resting (cap : ℕ) (s : SharedFifo) (items : List Message) : Prop where
  producer : s.producer = .idle
  consumer : s.consumer = .idle
  represents : ∃ l, FifoQueue.Represents s.fifo l items
  cap : s.fifo.cap = cap

theorem Resting.start {cap : ℕ} (large : 2 ≤ cap) : Resting cap (.start cap) [] where
  producer := rfl
  consumer := rfl
  represents := (FifoQueue.refines_start large).represents
  cap := rfl

theorem Resting.written_eq {cap : ℕ} {s : SharedFifo} {items : List Message} (resting : Resting cap s items) :
    written s = s.pushed := by
  rw [written, resting.producer]
  rfl

theorem run_producer {s : CoordsThread} {shared : SharedFifo} (steps : ℕ)
    (ran : SharedFifo.machine.run s.shared (List.replicate steps .producer) = some shared) :
    CoordsThread.machine.run s (List.replicate steps .producer) = some { s with shared } := by
  induction steps generalizing s with
  | zero =>
    cases ran
    rfl
  | succ steps ih =>
    obtain ⟨next, moved, rest⟩ := Option.bind_eq_some_iff.mp ran
    have step : CoordsThread.machine.step s .producer = some { s with shared := next } :=
      Option.map_eq_some_iff.mpr ⟨next, moved, rfl⟩
    rw [List.replicate_succ, EventMachine.run_cons, step, Option.bind_some]
    exact ih rest

/-- The receiver pushes a message. -/
theorem receive {cap : ℕ} {s : CoordsThread} {items : List Message} (resting : Resting cap s.shared items)
    (room : items.length + 1 < cap) : ∃ events shared m,
    CoordsThread.machine.run s events = some { s with shared } ∧ Resting cap shared (items ++ [m]) ∧
      shared.pushed = s.shared.pushed + 1 := by
  obtain ⟨producer, consumer, ⟨l, represents⟩, size⟩ := resting
  obtain ⟨fifo, filled, pushed, kept, same⟩ := represents.push_free (by omega) none s.shared.pushed
  obtain ⟨steps, ran⟩ := FifoRace.push_alone producer pushed
  obtain ⟨next, moved, rest⟩ := Option.bind_eq_some_iff.mp ran
  have step : CoordsThread.machine.step s (.push none) = some { s with shared := next } :=
    Option.map_eq_some_iff.mpr ⟨next, moved, rfl⟩
  refine ⟨.push none :: List.replicate steps .producer,
    { s.shared with fifo, pushed := s.shared.pushed + 1, freed := s.shared.freed ++ [], rets := s.shared.rets ++ [1] },
    ⟨s.shared.pushed, []⟩, ?_, ⟨producer, consumer, ⟨filled, kept⟩, same.trans size⟩, rfl⟩
  rw [EventMachine.run_cons, step, Option.bind_some]
  exact run_producer steps rest

/-- A pop goes on, or it returns. -/
theorem stepConsumer_cases {s next : SharedFifo} (moved : s.stepConsumer = some next) :
    s.consumer ≠ .idle ∧
      (s.popResult = none ∧ next.consumer ≠ .idle ∧ next.returned = s.returned ∨
        ∃ out, s.popResult = some out ∧ next.consumer = .idle ∧ next.returned = s.returned ++ out.toList) := by
  obtain ⟨fifo, producer, consumer, pushed, freed, returned, rets⟩ := s
  cases consumer with
  | idle => cases moved
  | loadTail head =>
    refine ⟨by simp, ?_⟩
    simp only [SharedFifo.stepConsumer] at moved
    split at moved
    next empty =>
      cases moved
      exact .inr ⟨none, if_pos empty, rfl, rfl⟩
    next nonempty =>
      cases moved
      exact .inl ⟨if_neg nonempty, by simp, rfl⟩
  | readSlot head =>
    obtain ⟨out, -, rfl⟩ := Option.map_eq_some_iff.mp moved
    exact ⟨by simp, .inl ⟨rfl, by simp, rfl⟩⟩
  | clearSlot head out =>
    obtain ⟨cleared, -, rfl⟩ := Option.map_eq_some_iff.mp moved
    exact ⟨by simp, .inl ⟨rfl, by simp, rfl⟩⟩
  | storeHead | loadMetrics =>
    cases moved
    exact ⟨by simp, .inl ⟨rfl, by simp, rfl⟩⟩
  | storeMetrics out m =>
    cases moved
    exact ⟨by simp, .inr ⟨out, rfl, rfl, rfl⟩⟩

/-- The thread takes the accesses of its pop one by one, up to the last. -/
theorem run_consumer {i : ℕ} {s : CoordsThread} {shared : SharedFifo} {steps : ℕ} (phase : s.phase = .drainPopping i)
    (busy : s.shared.consumer ≠ .idle)
    (ran : SharedFifo.machine.run s.shared (List.replicate steps .consumer) = some shared)
    (idle : shared.consumer = .idle) :
    ∃ out, CoordsThread.machine.run s (List.replicate steps .coords) =
        some { s with shared, phase := CoordsThread.afterDrainPop i (some out) } ∧
      shared.returned = s.shared.returned ++ out.toList := by
  induction steps generalizing s with
  | zero =>
    cases ran
    exact absurd idle busy
  | succ steps ih =>
    obtain ⟨next, moved, rest⟩ := Option.bind_eq_some_iff.mp ran
    have popped : s.shared.stepPop = some (next, s.shared.popResult) := by
      rw [SharedFifo.stepPop, if_neg busy]
      exact Option.map_eq_some_iff.mpr ⟨next, moved, rfl⟩
    have step : CoordsThread.machine.step s .coords =
        some { s with shared := next, phase := CoordsThread.afterDrainPop i s.shared.popResult } := by
      change s.stepCoords = _
      rw [CoordsThread.stepCoords, phase, popped]
      rfl
    rw [List.replicate_succ, EventMachine.run_cons, step, Option.bind_some]
    obtain ⟨-, ⟨unfinished, still, same⟩ | ⟨out, finished, ended, returned⟩⟩ := stepConsumer_cases moved
    · rw [unfinished, ← same]
      exact ih rfl still rest
    · -- an idle consumer does not go on
      cases steps with
      | zero =>
        cases rest
        rw [finished]
        exact ⟨out, rfl, returned⟩
      | succ steps =>
        obtain ⟨beyond, again, -⟩ := Option.bind_eq_some_iff.mp rest
        exact absurd ended (stepConsumer_cases again).1

/-- One pop of the second loop, without an access of the receiver in between. -/
theorem drain_pop {cap : ℕ} {s : CoordsThread} {items : List Message} (resting : Resting cap s.shared items)
    (phase : s.phase = .testCount 0) : ∃ steps shared,
    CoordsThread.machine.run s (List.replicate steps .coords) =
        some { s with shared, phase := CoordsThread.afterDrainPop 0 (some items.head?) } ∧
      Resting cap shared items.tail ∧ shared.pushed = s.shared.pushed := by
  obtain ⟨producer, consumer, ⟨l, represents⟩, size⟩ := resting
  obtain ⟨fifo, left, popped, kept, same⟩ := represents.pop
  obtain ⟨steps, ran⟩ := FifoRace.pop_alone consumer popped
  obtain ⟨next, moved, rest⟩ := Option.bind_eq_some_iff.mp ran
  have busy : next.consumer ≠ .idle := by
    cases (Option.ite_none_right_eq_some.mp moved).2
    simp
  have kept_ : next.returned = s.shared.returned := by
    cases (Option.ite_none_right_eq_some.mp moved).2
    rfl
  obtain ⟨out, drained, returned⟩ := run_consumer (i := 0) (s := { s with shared := next, phase := .drainPopping 0 })
    rfl busy rest consumer
  have result : out = items.head? := by
    dsimp only at returned
    rw [kept_] at returned
    have same := congrArg List.head? (List.append_cancel_left returned)
    rw [Option.head?_toList, Option.head?_toList] at same
    exact same.symm
  have test : CoordsThread.machine.step s .coords = some { s with phase := .drainPopping 0 } := by
    change s.stepCoords = _
    rw [CoordsThread.stepCoords, phase]
    rfl
  have call : CoordsThread.machine.step { s with phase := .drainPopping 0 } .coords =
      some { s with shared := next, phase := .drainPopping 0 } := by
    have popping : s.shared.stepPop = some (next, none) := by
      rw [SharedFifo.stepPop, if_pos consumer]
      exact Option.map_eq_some_iff.mpr ⟨next, moved, rfl⟩
    change Option.map _ s.shared.stepPop = _
    rw [popping]
    rfl
  refine ⟨steps + 2, { s.shared with fifo, returned := s.shared.returned ++ items.head?.toList }, ?_,
    ⟨producer, consumer, ⟨left, kept⟩, same.trans size⟩, rfl⟩
  rw [List.replicate_succ, List.replicate_succ, EventMachine.run_cons, test, Option.bind_some, EventMachine.run_cons,
    call, Option.bind_some, drained, result]

/-- The thread logs the oldest message. -/
theorem drain_one {cap : ℕ} {s : CoordsThread} {x : Message} {items : List Message}
    (resting : Resting cap s.shared (x :: items)) (phase : s.phase = .testCount 0) : ∃ steps shared log,
    CoordsThread.machine.run s (List.replicate steps .coords) =
        some { s with shared, log, drained := s.drained ++ [x] } ∧
      Resting cap shared items ∧ shared.pushed = s.shared.pushed := by
  obtain ⟨steps, shared, ran, kept, pushed⟩ := drain_pop resting phase
  refine ⟨steps + 1, shared, CoordsThread.logMessage s.log x, ?_, kept, pushed⟩
  rw [List.replicate_succ', EventMachine.run_append, ran, Option.bind_some, EventMachine.run_cons, phase]
  rfl

/-- Left alone, the thread logs all there is, and returns. -/
theorem drain_all {cap : ℕ} {s : CoordsThread} {items : List Message} (resting : Resting cap s.shared items)
    (phase : s.phase = .testCount 0) : ∃ steps shared log,
    CoordsThread.machine.run s (List.replicate steps .coords) =
      some { s with shared, log, drained := s.drained ++ items, phase := .returned } := by
  induction items generalizing s with
  | nil =>
    obtain ⟨steps, shared, ran, -⟩ := drain_pop resting phase
    refine ⟨steps, shared, s.log, ?_⟩
    rw [ran, List.append_nil]
    rfl
  | cons x items ih =>
    obtain ⟨first, shared, log, ran, kept, -⟩ := drain_one resting phase
    obtain ⟨more, last, final, rest⟩ := ih (s := { s with shared, log, drained := s.drained ++ [x] }) kept phase
    refine ⟨first + more, last, final, ?_⟩
    rw [List.replicate_add, EventMachine.run_append, ran, Option.bind_some, rest, List.append_assoc,
      List.singleton_append]

/-- The receiver can keep the thread busy with one message after the other. -/
theorem keep_busy {cap : ℕ} (large : 2 ≤ cap) (n : ℕ) {s : CoordsThread} (resting : Resting cap s.shared [])
    (phase : s.phase = .testCount 0) : ∃ events t,
    CoordsThread.machine.run s events = some t ∧ Resting cap t.shared [] ∧ t.phase = .testCount 0 ∧
      t.drained.length = s.drained.length + n ∧ t.shared.pushed = s.shared.pushed + n := by
  induction n with
  | zero => exact ⟨[], s, rfl, resting, phase, rfl, rfl⟩
  | succ n ih =>
    obtain ⟨events, t, ran, empty, still, drained, pushed⟩ := ih
    obtain ⟨push, filled, m, received, one, stored⟩ := receive empty (by rw [List.length_nil]; omega)
    obtain ⟨steps, shared, log, popped, cleared, same⟩ := drain_one (s := { t with shared := filled }) one still
    refine ⟨events ++ (push ++ List.replicate steps .coords), { t with shared, log, drained := t.drained ++ [m] }, ?_,
      cleared, still, ?_, ?_⟩
    · rw [EventMachine.run_append, ran, Option.bind_some, EventMachine.run_append, received, Option.bind_some, popped]
    · rw [List.length_append, drained]
      rfl
    · rw [same, stored, pushed]
      rfl

theorem not_bounded {cap total : ℕ} (large : 2 ≤ cap) (many : 1000 < total) : ¬ Bounded cap total := by
  intro bounded
  let log : VtsLog := .start 0 LogRotation.noFiles
  let s : CoordsThread := ⟨.start cap, true, .testCount 0, log, []⟩
  have resting : Resting cap s.shared [] := .start large
  obtain ⟨events, t, ran, final, -, drained, pushed⟩ := keep_busy large 1001 resting rfl
  have nothing : occupied (slots s.shared) = 0 := by
    change occupied (List.replicate cap none) = 0
    simp [occupied]
  have most := bounded log [.stop, .coords] events s t rfl rfl rfl ran (by
    rw [final.written_eq, resting.written_eq, nothing, pushed]
    omega)
  have undrained : s.drained.length = 0 := rfl
  omega

/-- The drain is bounded by the messages there are to log: it stays within 1000 in all runs with at most `total`
messages exactly if `total` does, or if the ring has no room for a message. -/
theorem drain_bounded_iff (cap total : ℕ) : Bounded cap total ↔ cap ≤ 1 ∨ total ≤ 1000 := by
  constructor
  · intro bounded
    by_contra neither
    rw [not_or] at neither
    exact not_bounded (by omega) (by omega) bounded
  · rintro (small | few)
    · exact bounded_of_tiny small total
    · exact bounded_of_le cap few

theorem fill {cap n : ℕ} (room : n < cap) {s : CoordsThread} (resting : Resting cap s.shared []) :
    ∃ events shared items, CoordsThread.machine.run s events = some { s with shared } ∧
      Resting cap shared items ∧ items.length = n := by
  induction n with
  | zero => exact ⟨[], s.shared, [], rfl, resting, rfl⟩
  | succ n ih =>
    obtain ⟨events, shared, items, ran, held, length⟩ := ih (by omega)
    obtain ⟨push, more, m, received, kept, -⟩ := receive (s := { s with shared }) held (by omega)
    refine ⟨events ++ push, more, items ++ [m], ?_, kept, ?_⟩
    · rw [EventMachine.run_append, ran, Option.bind_some, received]
    · rw [List.length_append, length, List.length_singleton]

/-- With the default capacity and 1001 messages in the FIFO when the flag is seen, the thread logs all of them before
it returns, although nothing is pushed any more. -/
theorem backlog_drained : ∃ before steps s t,
    CoordsThread.machine.run (.start 65536 (.start (10 * 1024 * 1024) LogRotation.noFiles)) before = some s ∧
      s.phase = .testCount 0 ∧ s.drained = [] ∧ s.shared.fifo.vtsFifoDepth = 1001 ∧
      CoordsThread.machine.run s (List.replicate steps .coords) = some t ∧ t.phase = .returned ∧
      t.drained.length = 1001 := by
  let start : CoordsThread := .start 65536 (.start (10 * 1024 * 1024) LogRotation.noFiles)
  have resting : Resting 65536 start.shared [] := .start (by decide)
  obtain ⟨events, shared, items, ran, held, length⟩ := fill (n := 1001) (by decide) resting
  obtain ⟨steps, last, log, drained⟩ := drain_all (s := { start with shared, gStop := true, phase := .testCount 0 })
    held rfl
  refine ⟨events ++ [.stop, .coords], steps, _, _, ?_, rfl, rfl, ?_, drained, rfl, length⟩
  · rw [EventMachine.run_append, ran]
    rfl
  · obtain ⟨l, represents⟩ := held.represents
    exact represents.depth_eq.trans length

end ProcessMonitor.Soundness.ShutdownDrain
