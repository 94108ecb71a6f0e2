import ProcessMonitor.Machine.Core.Measure
import ProcessMonitor.Soundness.FifoIndices
import ProcessMonitor.Soundness.LogFlow

/-! # The end of the daemon

Every index that a thread has loaded is a slot of the ring, in every interleaving, so that a thread never gets stuck
in a push or in a pop. Once `g_stop` is set, each step of the receiver, of the logging thread, or of `main` uses up
something that is left to do: a `read()` may still bring lines, each of them has to be pushed, and each message in
the ring to be logged. When nothing is left, both threads have returned. `main` has joined them then and freed the
ring, unless it was between its test of the flag and the return from `pause()` already when the flag was set: it goes
to sleep after the signal that it waits for.
-/

namespace ProcessMonitor.Soundness.ShutdownCompletes

open Machine Machine.Posix Model.Vts LogFlow ShutdownDrain

/-! ## Every access is inside the ring -/

section Ring

variable {cap : ℕ} {s next : SharedFifo}

def PushInside (cap : ℕ) : Producer → Prop
  | .loadHead _ tail | .writeSlot _ tail _ _ | .storeTail tail _ _ _ => tail < cap
  | .loadMetrics _ tail head | .readOld _ tail head _ | .freeOld _ tail head _ _ | .clearOld _ tail head _
  | .storeHead _ tail head _ => tail < cap ∧ head < cap
  | _ => True

def PopInside (cap : ℕ) : Consumer → Prop
  | .loadTail head | .readSlot head | .clearSlot head _ | .storeHead head _ => head < cap
  | _ => True

/-- The buffer is there, and the two ends and the registers of both sides are slots of it. -/
structure InRing (cap : ℕ) (s : SharedFifo) : Prop where
  slots : ∃ slots, s.fifo.buf = some slots ∧ slots.length = cap
  size : s.fifo.cap = cap
  head : s.fifo.head < cap
  tail : s.fifo.tail < cap
  push : PushInside cap s.producer
  pop : PopInside cap s.consumer

namespace InRing

theorem start (slots : 0 < cap) : InRing cap (.start cap) :=
  ⟨⟨_, rfl, List.length_replicate⟩, rfl, slots, slots, trivial, trivial⟩

theorem setSlot (ring : InRing cap s) {i : ℕ} {v : Option Message} {fifo : Fifo}
    (wrote : s.fifo.setSlot i v = some fifo) : InRing cap { s with fifo } := by
  obtain ⟨slots, buf, size⟩ := ring.slots
  obtain ⟨slots', buf', -, rfl⟩ := Fifo.setSlot_inv wrote
  rw [buf] at buf'
  cases buf'
  exact { ring with slots := ⟨_, rfl, List.length_set.trans size⟩ }

theorem next_lt (ring : InRing cap s) {i : ℕ} (inside : i < cap) : nextIdx i s.fifo.cap < cap := by
  rw [ring.size]
  exact FifoIndices.nextIdx_lt inside

theorem exists_slot (ring : InRing cap s) {i : ℕ} (inside : i < cap) : ∃ v, s.fifo.slot i = some v := by
  obtain ⟨slots, buf, rfl⟩ := ring.slots
  exact ⟨_, (Fifo.slot_eq buf i).trans (List.getElem?_eq_getElem inside)⟩

theorem exists_setSlot (ring : InRing cap s) {i : ℕ} (inside : i < cap) (v : Option Message) :
    ∃ fifo, s.fifo.setSlot i v = some fifo := by
  obtain ⟨slots, buf, rfl⟩ := ring.slots
  exact ⟨_, Fifo.setSlot_eq buf inside v⟩

theorem stepProducer (ring : InRing cap s) (moved : s.stepProducer = some next) : InRing cap next := by
  obtain ⟨fifo, producer, consumer, pushed, freed, returned, rets⟩ := s
  cases producer with
  | idle => cases moved
  | loadHead msg tail =>
    cases moved
    exact { ring with push := ⟨ring.push, ring.head⟩ }
  | loadMetrics msg tail head =>
    cases moved
    refine { ring with push := ?_ }
    dsimp only
    split
    · exact ring.push
    · exact ring.push.1
  | readOld msg tail head m =>
    obtain ⟨old, -, rfl⟩ := Option.map_eq_some_iff.mp moved
    exact { ring with push := ring.push }
  | freeOld msg tail head m old =>
    cases moved
    exact { ring with push := ring.push }
  | clearOld msg tail head m =>
    obtain ⟨written, wrote, rfl⟩ := Option.map_eq_some_iff.mp moved
    exact { ring.setSlot wrote with push := ring.push }
  | storeHead msg tail head m =>
    cases moved
    exact { ring with head := ring.next_lt ring.push.2, push := ring.push.1 }
  | writeSlot msg tail m dropped =>
    obtain ⟨written, wrote, rfl⟩ := Option.map_eq_some_iff.mp moved
    exact { ring.setSlot wrote with push := ring.push }
  | storeTail tail m dropped dup =>
    cases moved
    exact { ring with tail := ring.next_lt ring.push, push := trivial }
  | depthTail m dropped head =>
    simp only [SharedFifo.stepProducer] at moved
    split at moved
    · cases moved
      exact { ring with push := trivial }
    · cases moved
      exact { ring with push := trivial }
  | _ =>
    cases moved
    exact { ring with push := trivial }

theorem stepPop (ring : InRing cap s) {result : Option (Option Message)} (popped : s.stepPop = some (next, result)) :
    InRing cap next := by
  obtain ⟨fifo, producer, consumer, pushed, freed, returned, rets⟩ := s
  cases consumer with
  | idle =>
    cases popped
    exact { ring with pop := ring.head }
  | loadTail head =>
    simp only [SharedFifo.stepPop, SharedFifo.step, SharedFifo.stepConsumer, SharedFifo.popResult, reduceCtorEq,
      if_false] at popped
    split at popped
    · cases popped
      exact { ring with pop := trivial }
    · cases popped
      exact { ring with pop := ring.pop }
  | readSlot head =>
    obtain ⟨read, stepped, same⟩ := Option.map_eq_some_iff.mp popped
    obtain ⟨out, -, rfl⟩ := Option.map_eq_some_iff.mp stepped
    cases same
    exact { ring with pop := ring.pop }
  | clearSlot head out =>
    obtain ⟨cleared, stepped, same⟩ := Option.map_eq_some_iff.mp popped
    obtain ⟨stored, wrote, rfl⟩ := Option.map_eq_some_iff.mp stepped
    cases same
    exact { ring.setSlot wrote with pop := ring.pop }
  | storeHead head out =>
    cases popped
    exact { ring with head := ring.next_lt ring.pop, pop := trivial }
  | _ =>
    cases popped
    exact { ring with pop := trivial }

/-- A push that is under way can go on. -/
theorem exists_stepProducer (ring : InRing cap s) (busy : s.producer ≠ .idle) : ∃ next, s.stepProducer = some next := by
  obtain ⟨fifo, producer, consumer, pushed, freed, returned, rets⟩ := s
  cases producer with
  | idle => exact absurd rfl busy
  | readOld msg tail head m =>
    obtain ⟨old, read⟩ := ring.exists_slot ring.push.2
    exact ⟨_, Option.map_eq_some_iff.mpr ⟨old, read, rfl⟩⟩
  | clearOld msg tail head m =>
    obtain ⟨cleared, wrote⟩ := ring.exists_setSlot ring.push.2 none
    exact ⟨_, Option.map_eq_some_iff.mpr ⟨cleared, wrote, rfl⟩⟩
  | writeSlot msg tail m dropped =>
    obtain ⟨stored, wrote⟩ := ring.exists_setSlot ring.push (some ⟨pushed, msg.getD []⟩)
    exact ⟨_, Option.map_eq_some_iff.mpr ⟨stored, wrote, rfl⟩⟩
  | depthTail m dropped head =>
    simp only [SharedFifo.stepProducer]
    split <;> exact ⟨_, rfl⟩
  | _ => exact ⟨_, rfl⟩

/-- A pop can start, and go on. -/
theorem exists_stepPop (ring : InRing cap s) : ∃ next result, s.stepPop = some (next, result) := by
  obtain ⟨fifo, producer, consumer, pushed, freed, returned, rets⟩ := s
  cases consumer with
  | loadTail head =>
    simp only [SharedFifo.stepPop, SharedFifo.step, SharedFifo.stepConsumer, reduceCtorEq, if_false]
    split <;> exact ⟨_, _, rfl⟩
  | readSlot head =>
    obtain ⟨out, read⟩ := ring.exists_slot ring.pop
    exact ⟨_, _, Option.map_eq_some_iff.mpr ⟨_, Option.map_eq_some_iff.mpr ⟨out, read, rfl⟩, rfl⟩⟩
  | clearSlot head out =>
    obtain ⟨cleared, wrote⟩ := ring.exists_setSlot ring.pop none
    exact ⟨_, _, Option.map_eq_some_iff.mpr ⟨_, Option.map_eq_some_iff.mpr ⟨cleared, wrote, rfl⟩, rfl⟩⟩
  | _ => exact ⟨_, _, rfl⟩

/-- How far it is from one end to the other. -/
def ahead (cap h t : ℕ) : ℕ := if h ≤ t then t - h else t + cap - h

theorem ahead_next {h t : ℕ} (apart : h ≠ t) (low : h < cap) (inside : t < cap) :
    ahead cap (nextIdx h cap) t + 1 = ahead cap h t := by
  simp only [ahead, nextIdx]
  split_ifs <;> omega

theorem exists_freeSlots {t fuel h : ℕ} {slots : List (Option Message)} (size : slots.length = cap) (low : h < cap)
    (inside : t < cap) (enough : ahead cap h t ≤ fuel) : ∃ freed, Fifo.freeSlots cap t fuel h slots = some freed := by
  induction fuel generalizing h slots with
  | zero =>
    have same : h = t := by
      by_contra apart
      have := ahead_next apart low inside
      omega
    exact ⟨_, if_pos same⟩
  | succ fuel ih =>
    rw [Fifo.freeSlots]
    by_cases same : h = t
    · exact ⟨_, if_pos same⟩
    · have nearer := ahead_next same low inside
      have cleared : (slots.set h none).length = cap := List.length_set.trans size
      obtain ⟨freed, free⟩ := ih cleared (FifoIndices.nextIdx_lt low) (by omega)
      rw [if_neg same, List.getElem?_eq_getElem (size ▸ low), free]
      exact ⟨_, rfl⟩

theorem exists_free (ring : InRing cap s) : ∃ fifo freed, s.fifo.vtsFifoFree = some (fifo, freed) := by
  obtain ⟨slots, buf, size⟩ := ring.slots
  have enough : ahead cap s.fifo.head s.fifo.tail ≤ cap := by
    have := ring.tail
    rw [ahead]
    split <;> omega
  obtain ⟨freed, free⟩ := exists_freeSlots size ring.head ring.tail enough
  rw [Fifo.vtsFifoFree, buf]
  dsimp only
  rw [ring.size, free]
  exact ⟨_, _, rfl⟩

end InRing

end Ring

section Daemon

variable {cap : ℕ} {log : VtsLog} {s next : VtsMain} {e : VtsMain.Event}

/-- Until `main` has freed the ring. -/
def Running (cap : ℕ) (s : VtsMain) : Prop := s.main ≠ .joined → InRing cap s.shared

theorem Running.step (running : Running cap s) (stepped : VtsMain.machine.step s e = some next) :
    Running cap next := by
  intro going
  cases VtsMain.moves_of_step stepped with
  | signal =>
    apply running
    intro ended
    simp [VtsMain.onSig, ended] at going
  | handleLine first moved =>
    have ring := running going
    obtain ⟨-, same⟩ := Option.ite_none_right_eq_some.mp moved
    cases same
    exact { ring with push := ring.tail }
  | push moved => exact (running going).stepProducer moved
  | coords moves =>
    have ring := running going
    cases moves with
    | pop _ popped | drainPop _ popped => exact ring.stepPop popped
    | _ => exact ring
  | mainStops here | mainGoesOn here | mainPauses here | joinedCoords here | joinedRecv here =>
    exact running (by simp [here])
  | freed => exact absurd rfl going
  | _ => exact running going

theorem running_run {events : List VtsMain.Event} (slots : 0 < cap)
    (ran : VtsMain.machine.run (.start cap log) events = some s) : Running cap s := by
  have initial : Running cap (.start cap log) := fun _ => .start slots
  exact EventMachine.invariant (Running cap) (fun _ _ _ running stepped => running.step stepped) initial ran

theorem exists_coords (ring : InRing cap s.shared) (unreturned : s.coords.phase ≠ .returned) :
    ∃ next, s.step .coords = some next := by
  obtain ⟨shared, result, popped⟩ := ring.exists_stepPop
  rw [VtsMain.shared] at popped
  rw [VtsMain.step, CoordsThread.step, CoordsThread.stepCoords]
  cases at_ : s.coords.phase with
  | popping | drainPopping i =>
    dsimp only
    rw [popped]
    exact ⟨_, rfl⟩
  | returned => exact absurd at_ unreturned
  | _ => exact ⟨_, rfl⟩

theorem exists_push (ring : InRing cap s.shared) (busy : s.shared.producer ≠ .idle) :
    ∃ next, s.step .push = some next := by
  obtain ⟨shared, moved⟩ := ring.exists_stepProducer busy
  rw [VtsMain.shared] at moved
  rw [VtsMain.step, CoordsThread.step, SharedFifo.step, moved]
  exact ⟨_, rfl⟩

/-- No thread ever misses the buffer, however pushes and pops interleave: a push or a pop that is under way can make
its next access, and the ring can be freed when it is time, which is after both threads have returned. -/
theorem accesses_defined {events : List VtsMain.Event} (slots : 0 < cap)
    (ran : VtsMain.machine.run (.start cap log) events = some s) :
    (s.shared.producer ≠ .idle → ∃ next, s.step .push = some next) ∧
      (s.coords.phase ≠ .returned → ∃ next, s.step .coords = some next) ∧
      (s.main = .freeFifo → s.coords.phase = .returned ∧ s.recv.pc = .ended ∧ ∃ next, s.step .main = some next) := by
  have flow := flow_run ran
  have running := running_run slots ran
  refine ⟨?_, ?_, ?_⟩
  · intro busy
    apply exists_push (running _) busy
    exact fun ended => busy (flow.pushed (flow.joinedRecv (.inr ended))).2
  · intro unreturned
    apply exists_coords (running _) unreturned
    exact fun ended => unreturned (flow.joinedCoords (.inr (.inr ended)))
  · intro here
    obtain ⟨fifo, freed, free⟩ := (running (by simp [here])).exists_free
    refine ⟨flow.joinedCoords (.inr (.inl here)), flow.joinedRecv (.inl here), ?_⟩
    rw [VtsMain.step, VtsMain.stepMain, here]
    dsimp only
    rw [free]
    exact ⟨_, rfl⟩

theorem accesses_defined_line : ∃ s,
    VtsMain.machine.run (.start 1 (.start 100 LogRotation.noFiles))
      [.recv (.openFifo (some 3)), .recv (.epollCreate (some 4)), .recv .epollCtl, .recvTest,
        .recv (.report false false), .recv (.read (.data [97, 10])), .handleLine] = some s ∧
    s.shared.producer ≠ .idle ∧ ∃ next, s.step .push = some next := by
  have ran : ∃ s, VtsMain.machine.run (.start 1 (.start 100 LogRotation.noFiles))
      [.recv (.openFifo (some 3)), .recv (.epollCreate (some 4)), .recv .epollCtl, .recvTest,
        .recv (.report false false), .recv (.read (.data [97, 10])), .handleLine] = some s ∧
      s.shared.producer = .loadHead (some [97]) 0 := ⟨_, rfl, rfl⟩
  obtain ⟨s, ran, pushing⟩ := ran
  have busy : s.shared.producer ≠ .idle := by
    rw [pushing]
    decide
  exact ⟨s, ran, busy, (accesses_defined (by decide) ran).1 busy⟩

end Daemon

/-! ## What is left to do -/

section Left

/-- The calls that are left to the receiver when the flag is set. A `read()` brings at most 65536 lines, and a line
counts for 24 steps. -/
def recvLeft : RecvPc → Bool → ℕ
  | .wait, false => 1
  | .add, _ | .modify, _ => 2
  | .create, _ | .reopen _, _ => 3
  | .start, _ | .close _, _ => 4
  | .read, _ => 65536 * 24 + 2
  | .wait, true => 65536 * 24 + 3
  | .ended, _ => 0

/-- The accesses that are left to a push. The message that it stores counts for ten steps of the logging thread. -/
def pushLeft : Producer → ℕ
  | .idle => 0
  | .storeDepth .. => 1
  | .depthTail .. => 2
  | .depthHead .. => 3
  | .reloadMetrics .. => 4
  | .storeMetrics .. => 5
  | .storeTail .. => 6
  | .writeSlot .. => 17
  | .storeHead .. => 18
  | .clearOld .. => 19
  | .freeOld .. => 20
  | .readOld .. => 21
  | .loadMetrics .. => 22
  | .loadHead .. => 23

def popLeft : Consumer → ℕ
  | .storeMetrics .. => 1
  | .loadMetrics .. => 2
  | .storeHead .. => 3
  | .clearSlot .. => 4
  | .readSlot .. => 5
  | .loadTail .. => 6
  | .idle => 7

/-- The steps that are left to the logging thread, if it finds no message any more. -/
def coordsLeft (consumer : Consumer) : CoordsPhase → ℕ
  | .returned => 0
  | .drainPopping _ => popLeft consumer
  | .testCount _ => 8
  | .testStop | .drainLogging _ _ => 9
  | .sleeping | .logging _ => 10
  | .popping => popLeft consumer + 10

def mainLeft : MainPhase → ℕ
  | .testStop => 4
  | .joinCoords => 3
  | .joinRecv => 2
  | .freeFifo | .callPause => 1
  | .joined | .pausing => 0

def left (s : VtsMain) : ℕ :=
  recvLeft s.recv.pc s.tested + 24 * s.outbox.length + pushLeft s.shared.producer + 10 * stock s.shared +
    coordsLeft s.shared.consumer s.coords.phase + mainLeft s.main

theorem putByte_lines_le (l : LineBuffer UInt8) (b : UInt8) : (l.putByte id b).2.length ≤ 1 := by
  rw [LineBuffer.putByte]
  split
  · dsimp only
    split
    · exact Nat.zero_le _
    · exact Nat.le_refl _
  · exact Nat.zero_le _

/-- Every line is paid for by a byte of its own. -/
theorem feed_lines_le (l : LineBuffer UInt8) (bytes : List UInt8) : (l.feed id bytes).2.length ≤ bytes.length := by
  induction bytes generalizing l with
  | nil => exact Nat.le_refl _
  | cons b bytes ih =>
    have first := putByte_lines_le l b
    have others := ih (l.putByte id b).1
    simp only [LineBuffer.feed, List.length_append, List.length_cons]
    omega

theorem recvLeft_lt {r next : ThrRecv UInt8} {e : ThrRecv.Event UInt8} {tested : Bool}
    (passed : r.pc = .wait → tested = true) (fits : e.bytes.length ≤ 65536) (moves : ThrRecv.Moves id r e next) :
    recvLeft next.pc false + 24 * e.bytes.length < recvLeft r.pc tested := by
  cases moves with
  | fed here nonempty =>
    rw [here]
    simp only [recvLeft]
    omega
  | again here passing => rcases passing with rfl | rfl <;> simp [recvLeft, ThrRecv.Event.bytes, here]
  | finished here lasting =>
    rcases lasting with rfl | rfl <;> simp [recvLeft, ThrRecv.Event.bytes, ThrRecv.reopen, here]
  | @reopened hup fd kernel here free => cases hup <;> simp [recvLeft, ThrRecv.Event.bytes, here]
  | idle here | readable here | hungUp here =>
    simp [recvLeft, ThrRecv.Event.bytes, ThrRecv.reopen, here, passed here]
  | opened here | unopened here | created here | uncreated here | added here | closed here | unreopened here
  | modified here => simp [recvLeft, ThrRecv.Event.bytes, here]

theorem pushLeft_lt {s next : SharedFifo} (moved : s.stepProducer = some next) :
    pushLeft next.producer + 10 * written next < pushLeft s.producer + 10 * written s := by
  obtain ⟨fifo, producer, consumer, pushed, freed, returned, rets⟩ := s
  cases producer with
  | idle => cases moved
  | loadMetrics msg tail head =>
    cases moved
    dsimp only
    split <;> simp [pushLeft, written]
  | readOld msg tail head m =>
    obtain ⟨old, -, rfl⟩ := Option.map_eq_some_iff.mp moved
    simp [pushLeft, written]
  | clearOld msg tail head m =>
    obtain ⟨fifo', -, rfl⟩ := Option.map_eq_some_iff.mp moved
    simp [pushLeft, written]
  | writeSlot msg tail m dropped =>
    obtain ⟨fifo', -, rfl⟩ := Option.map_eq_some_iff.mp moved
    simp only [pushLeft, written]
    omega
  | storeTail tail m dropped dup =>
    cases moved
    simp only [pushLeft, written]
    omega
  | depthTail m dropped head =>
    simp only [SharedFifo.stepProducer] at moved
    split at moved <;> cases moved <;> simp [pushLeft, written, SharedFifo.finishPush]
  | _ =>
    cases moved
    simp [pushLeft, written, SharedFifo.finishPush]

/-- An access of a pop that is not the last one; the last one leaves nothing of the pop. -/
theorem popLeft_lt {s next : SharedFifo} {result : Option (Option Message)}
    (popped : s.stepPop = some (next, result)) :
    0 < popLeft s.consumer ∧ (result = none → popLeft next.consumer < popLeft s.consumer) := by
  obtain ⟨fifo, producer, consumer, pushed, freed, returned, rets⟩ := s
  cases consumer with
  | loadTail head =>
    simp only [SharedFifo.stepPop, SharedFifo.step, SharedFifo.stepConsumer, SharedFifo.popResult, reduceCtorEq,
      if_false] at popped
    split at popped <;> cases popped <;> simp [popLeft]
  | readSlot head =>
    obtain ⟨read, stepped, same⟩ := Option.map_eq_some_iff.mp popped
    obtain ⟨out, -, rfl⟩ := Option.map_eq_some_iff.mp stepped
    cases same
    simp [popLeft]
  | clearSlot head out =>
    obtain ⟨cleared, stepped, same⟩ := Option.map_eq_some_iff.mp popped
    obtain ⟨stored, wrote, rfl⟩ := Option.map_eq_some_iff.mp stepped
    cases same
    simp [popLeft]
  | _ =>
    cases popped
    simp [popLeft, SharedFifo.popResult]

/-- An access of a pop in a loop with `base` more steps to go: it is one access less, the end of the pop, or a message
that has paid for its logging. -/
theorem popping_lt {s next : SharedFifo} {result : Option (Option Message)} (base : ℕ) {weight : ℕ}
    (popped : s.stepPop = some (next, result))
    (bounded : weight ≤ base + match result with
      | none => popLeft next.consumer
      | some none => 0
      | some (some _) => 10) :
    10 * stock next + weight < 10 * stock s + (popLeft s.consumer + base) := by
  have paid := (stock_stepPop popped).1
  obtain ⟨more, fewer⟩ := popLeft_lt popped
  rcases result with _ | _ | msg
  · have := fewer rfl
    dsimp only at bounded
    omega
  · dsimp only at bounded
    omega
  · rw [Option.getD_some, Option.toList_some, List.length_singleton] at paid
    dsimp only at bounded
    omega

/-- A step of the logging thread, once the flag is set; a message that it takes has paid for its logging. -/
theorem coordsLeft_lt {c next : CoordsThread} (stop : c.gStop = true) (quiet : ShutdownDrain.Quiet c)
    (moves : c.OwnMoves next) :
    10 * stock next.shared + coordsLeft next.shared.consumer next.phase <
      10 * stock c.shared + coordsLeft c.shared.consumer c.phase := by
  cases moves with
  | testStop phase =>
    rw [phase, stop]
    exact Nat.lt_succ_self _
  | @pop shared result phase popped =>
    rw [phase]
    apply popping_lt 10 popped
    rcases result with _ | _ | msg <;> simp [CoordsThread.afterPop, coordsLeft, Nat.add_comm]
  | sleep phase | log phase =>
    rw [phase]
    exact Nat.lt_succ_self _
  | testCount phase =>
    rw [ShutdownDrain.Quiet, phase] at quiet
    rw [phase, quiet]
    split <;> simp [coordsLeft, popLeft]
  | @drainPop i shared result phase popped =>
    rw [phase]
    apply popping_lt 0 popped
    rcases result with _ | _ | msg <;> simp [CoordsThread.afterDrainPop, coordsLeft]
  | drainLog phase =>
    rw [phase]
    exact Nat.lt_succ_self _

theorem stock_free {s : SharedFifo} {fifo : Fifo} {freed : List Message}
    (free : s.fifo.vtsFifoFree = some (fifo, freed)) : stock { s with fifo } ≤ stock s := by
  obtain ⟨rfl, -⟩ := free_eq_some free
  have none : unread [] s.consumer = [] := by
    cases s.consumer <;> rfl
  simp only [stock, slots, Option.getD_none, none, occupied, List.countP_nil]
  omega

variable {log : VtsLog} {s next : VtsMain} {e : VtsMain.Event}

/-- Once the flag is set, every step but a signal uses up something. -/
theorem left_lt (stop : s.coords.gStop = true) (quiet : ShutdownDrain.Quiet s.coords) (own : e ≠ .signal)
    (stepped : VtsMain.machine.step s e = some next) : left next < left s := by
  cases VtsMain.moves_of_step stepped with
  | signal => exact absurd rfl own
  | sawStop here =>
    have going : 0 < recvLeft s.recv.pc s.tested := by
      rw [here]
      cases s.tested <;> decide
    have none : recvLeft .ended s.tested = 0 := by
      cases s.tested <;> rfl
    simp only [left, VtsMain.recvEnd, VtsMain.shared, none]
    omega
  | goesOn _ _ going =>
    rw [stop] at going
    cases going
  | @recv e recv pushed tested moves fits =>
    have lines : (recv.messages.drop s.recv.messages.length).length ≤ e.bytes.length := by
      rw [moves.feeds.2, List.drop_left, List.length_map]
      exact feed_lines_le _ _
    have fewer := recvLeft_lt tested fits moves
    simp only [left, VtsMain.shared]
    omega
  | handleLine first moved =>
    have grown := stock_draws (.push moved)
    obtain ⟨idle, same⟩ := Option.ite_none_right_eq_some.mp moved
    cases same
    simp only [left, VtsMain.shared, first, List.length_cons] at grown idle ⊢
    simp only [idle, pushLeft, stock, written, slots] at grown ⊢
    omega
  | push moved =>
    obtain ⟨same, grown⟩ := stock_producer moved
    have fewer := pushLeft_lt moved
    simp only [left, VtsMain.shared] at same grown fewer ⊢
    rw [same]
    omega
  | @coords coords moves =>
    have fewer := coordsLeft_lt stop quiet moves
    have same : coords.shared.producer = s.coords.shared.producer := by
      cases moves with
      | pop _ popped | drainPop _ popped => exact (popStep_stepPop popped).producer
      | _ => rfl
    simp only [left, VtsMain.shared, same]
    omega
  | mainStops here | mainPauses here | joinedCoords here | joinedRecv here =>
    simp only [left, VtsMain.shared, here, mainLeft]
    omega
  | mainGoesOn _ going =>
    rw [stop] at going
    cases going
  | freed here free =>
    have fewer := stock_free free
    simp only [left, VtsMain.shared, here, mainLeft] at fewer ⊢
    omega

end Left

/-! ## Where it ends -/

section Rest

variable {cap : ℕ} {log : VtsLog} {s next : VtsMain} {e : VtsMain.Event}

/-- Only a signal can still come. -/
def Rests (s : VtsMain) : Prop := ∀ e, e ≠ .signal → s.step e = none

/-- `main` has found the flag unset, and has not come back from `pause()`. -/
def Pauses (s : VtsMain) : Prop := s.main = .callPause ∨ s.main = .pausing

theorem Rests.not_step (rests : Rests s) (own : e ≠ .signal) : ¬ ∃ next, s.step e = some next := by
  rintro ⟨next, stepped⟩
  rw [rests e own] at stepped
  cases stepped

/-- Whatever the receiver waits for can be answered. -/
theorem exists_recv (r : ThrRecv UInt8) (unended : r.pc ≠ .ended) : ∃ e next, r.step id e = some next := by
  obtain ⟨pc, fd, ep, kernel, line, messages, reopens⟩ := r
  cases pc with
  | start | reopen hup => exact ⟨.openFifo none, _, rfl⟩
  | create => exact ⟨.epollCreate none, _, rfl⟩
  | add | modify => exact ⟨.epollCtl, _, rfl⟩
  | wait => exact ⟨.idle, _, rfl⟩
  | read => exact ⟨.read .again, _, rfl⟩
  | close hup => exact ⟨.close, _, rfl⟩
  | ended => exact absurd rfl unended

theorem recv_ended (ring : InRing cap s.shared) (rests : Rests s) : s.recv.pc = .ended := by
  by_contra unended
  have idle : s.shared.producer = .idle := by
    by_contra busy
    exact rests.not_step (by simp) (exists_push ring busy)
  have empty : s.outbox = [] := by
    cases lines : s.outbox with
    | nil => rfl
    | cons line rest =>
      apply (rests.not_step (e := .handleLine) (by simp)).elim
      rw [VtsMain.shared] at idle
      simp only [VtsMain.step, lines, CoordsThread.step, SharedFifo.step]
      rw [if_pos idle]
      exact ⟨_, rfl⟩
  by_cases waiting : s.recv.pc = .wait ∧ s.tested = false
  · apply rests.not_step (e := .recvTest) (by simp)
    rw [VtsMain.step, if_pos ⟨waiting.1, waiting.2, empty, idle⟩]
    exact ⟨_, rfl⟩
  · obtain ⟨e, recv, moved⟩ := exists_recv s.recv unended
    apply rests.not_step (e := .recv e) (by simp)
    have tested : s.recv.pc = .wait → s.tested = true := by
      intro here
      rw [← Bool.not_eq_false]
      exact fun fresh => waiting ⟨here, fresh⟩
    rw [VtsMain.step, if_pos ⟨⟨empty, idle⟩, tested⟩, moved]
    exact ⟨_, rfl⟩

/-- At rest both threads have returned, and `main` has nothing more to join. -/
theorem rest_cases (flow : Flow log s) (running : Running cap s) (rests : Rests s) :
    s.coords.phase = .returned ∧ s.recv.pc = .ended ∧ (s.main = .joined ∨ s.main = .pausing) := by
  by_cases done : s.main = .joined
  · exact ⟨flow.joinedCoords (.inr (.inr done)), flow.joinedRecv (.inr done), .inl done⟩
  · have ring := running done
    have returned : s.coords.phase = .returned := by
      by_contra unreturned
      exact rests.not_step (by simp) (exists_coords ring unreturned)
    have ended := recv_ended ring rests
    have stuck := rests .main (by simp)
    rw [VtsMain.step, VtsMain.stepMain] at stuck
    refine ⟨returned, ended, ?_⟩
    cases here : s.main with
    | joined => exact .inl rfl
    | pausing => exact .inr rfl
    | freeFifo =>
      obtain ⟨fifo, freed, free⟩ := ring.exists_free
      simp [here, free] at stuck
    | joinCoords => simp [here, returned] at stuck
    | joinRecv => simp [here, ended] at stuck
    | _ => simp [here] at stuck

/-- With the flag set `main` neither goes to sleep nor wakes up by itself. -/
theorem pauses_step (stop : s.coords.gStop = true) (own : e ≠ .signal)
    (stepped : VtsMain.machine.step s e = some next) :
    next.coords.gStop = true ∧ (Pauses next ↔ Pauses s) := by
  cases VtsMain.moves_of_step stepped with
  | signal => exact absurd rfl own
  | mainGoesOn _ going =>
    rw [stop] at going
    cases going
  | coords moves => cases moves <;> exact ⟨stop, .rfl⟩
  | mainStops here | mainPauses here | joinedCoords here | joinedRecv here | freed here =>
    exact ⟨stop, by simp [Pauses, here]⟩
  | _ => exact ⟨stop, .rfl⟩

theorem gStop_step (stop : s.coords.gStop = true) (stepped : VtsMain.machine.step s e = some next) :
    next.coords.gStop = true := by
  by_cases own : e = .signal
  · subst own
    cases stepped
    rfl
  · exact (pauses_step stop own stepped).1

end Rest

end ProcessMonitor.Soundness.ShutdownCompletes
