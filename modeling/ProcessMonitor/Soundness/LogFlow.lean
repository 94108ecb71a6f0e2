import ProcessMonitor.Model.Vts.Main
import ProcessMonitor.Soundness.LogRotation
import ProcessMonitor.Soundness.ShutdownDrain

/-! # What flows from the pipe to the log

The receiver, the FIFO, the logging thread, and `main` together, in every interleaving. A message carries the
number of its line, and whoever holds a message holds the text of that line. What the pops have returned has been
logged, or is about to be. When a thread has been joined, it has nothing left to do.
-/

namespace ProcessMonitor.Soundness.LogFlow

open Machine Machine.Posix Model.Vts FifoRace

section Texts

variable {s next : SharedFifo}

/-- The message a push has in hand. -/
def register : Producer → Option Message
  | .freeOld _ _ _ _ old => old
  | .storeTail _ _ _ dup => some dup
  | _ => none

/-- The text that a push has to store. -/
def pushing : Producer → List Bytes
  | .idle => []
  | .loadHead msg _ | .loadMetrics msg _ _ | .readOld msg _ _ _ | .freeOld msg _ _ _ _ | .clearOld msg _ _ _
  | .storeHead msg _ _ _ | .writeSlot msg _ _ _ => [msg.getD []]
  | .storeTail _ _ _ dup => [dup.text]
  | _ => []

/-- Every message that is anywhere in the FIFO or has gone through it. -/
structure All (p : Message → Prop) (s : SharedFifo) : Prop where
  slots : ∀ i m, s.fifo.slot i = some (some m) → p m
  returned : ∀ m ∈ s.returned, p m
  held : ∀ m ∈ held s.consumer, p m
  freed : ∀ m ∈ s.freed, p m
  register : ∀ m, register s.producer = some m → p m

theorem slot_setSlot {q written : Fifo} {i j : ℕ} {v : Option Message} {m : Message}
    (wrote : q.setSlot i v = some written) (found : written.slot j = some (some m)) :
    v = some m ∨ q.slot j = some (some m) := by
  obtain ⟨slots, buf, bound, rfl⟩ := Fifo.setSlot_inv wrote
  have cell : (slots.set i v)[j]? = some (some m) := found
  by_cases same : i = j
  · subst same
    rw [List.getElem?_set_self bound] at cell
    exact .inl (Option.some.inj cell)
  · rw [List.getElem?_set_ne same] at cell
    exact .inr ((Fifo.slot_eq buf j).trans cell)

namespace All

variable {p : Message → Prop}

theorem of_register {producer : Producer} (empty : LogFlow.register producer = none) (m : Message)
    (found : LogFlow.register producer = some m) : p m := by
  rw [empty] at found
  cases found

theorem of_held {consumer : Consumer} (empty : FifoRace.held consumer = []) (m : Message)
    (member : m ∈ FifoRace.held consumer) : p m := by
  rw [empty] at member
  cases member

theorem start (cap : ℕ) : All p (.start cap) where
  slots i m found := by
    have cell : (List.replicate cap none : List (Option Message))[i]? = some (some m) := found
    rw [List.getElem?_replicate] at cell
    split at cell <;> cases cell
  returned _ member := by cases member
  held := of_held rfl
  freed _ member := by cases member
  register := of_register rfl

theorem mono {q : Message → Prop} (all : All p s) (weaker : ∀ m, p m → q m) : All q s :=
  ⟨fun i m found => weaker m (all.slots i m found), fun m member => weaker m (all.returned m member),
    fun m member => weaker m (all.held m member), fun m member => weaker m (all.freed m member),
    fun m found => weaker m (all.register m found)⟩

/-- A push brings in the message that it writes, and no other. -/
theorem stepProducer (all : All p s) (fresh : ∀ text, pushing s.producer = [text] → p ⟨s.pushed, text⟩)
    (moved : s.stepProducer = some next) : All p next := by
  obtain ⟨fifo, producer, consumer, pushed, freed, returned, rets⟩ := s
  cases producer with
  | idle => cases moved
  | loadMetrics msg tail head =>
    cases moved
    refine { all with register := ?_ }
    dsimp only
    split <;> exact of_register rfl
  | readOld msg tail head m =>
    obtain ⟨old, read, rfl⟩ := Option.map_eq_some_iff.mp moved
    refine { all with register := ?_ }
    rintro found rfl
    exact all.slots head found read
  | freeOld msg tail head m old =>
    cases moved
    refine { all with freed := ?_, register := of_register rfl }
    intro m member
    rcases List.mem_append.mp member with before | new
    · exact all.freed m before
    · exact all.register m (Option.mem_toList.mp new)
  | clearOld msg tail head m =>
    obtain ⟨written, wrote, rfl⟩ := Option.map_eq_some_iff.mp moved
    refine { all with slots := ?_, register := of_register rfl }
    intro i m found
    rcases slot_setSlot wrote found with cleared | before
    · cases cleared
    · exact all.slots i m before
  | writeSlot msg tail m dropped =>
    obtain ⟨written, wrote, rfl⟩ := Option.map_eq_some_iff.mp moved
    have stored : p ⟨pushed, msg.getD []⟩ := fresh _ rfl
    refine { all with slots := ?_, register := ?_ }
    · intro i m found
      rcases slot_setSlot wrote found with new | before
      · cases new
        exact stored
      · exact all.slots i m before
    · rintro m ⟨⟩
      exact stored
  | depthTail m dropped head =>
    simp only [SharedFifo.stepProducer] at moved
    split at moved
    · cases moved
      exact { all with register := of_register rfl }
    · cases moved
      exact { all with register := of_register rfl }
  | _ =>
    cases moved
    exact { all with register := of_register rfl }

/-- A pop hands on what it has read. -/
theorem stepPop (all : All p s) {result : Option (Option Message)} (popped : s.stepPop = some (next, result)) :
    All p next := by
  obtain ⟨fifo, producer, consumer, pushed, freed, returned, rets⟩ := s
  cases consumer with
  | idle =>
    cases popped
    exact { all with held := of_held rfl }
  | loadTail head =>
    simp only [SharedFifo.stepPop, SharedFifo.step, SharedFifo.stepConsumer, SharedFifo.popResult, reduceCtorEq,
      if_false] at popped
    split at popped
    · cases popped
      refine { all with returned := ?_, held := of_held rfl }
      intro m member
      rw [SharedFifo.finishPop, Option.toList_none, List.append_nil] at member
      exact all.returned m member
    · cases popped
      exact { all with held := of_held rfl }
  | readSlot head =>
    obtain ⟨read, stepped, same⟩ := Option.map_eq_some_iff.mp popped
    obtain ⟨out, found, rfl⟩ := Option.map_eq_some_iff.mp stepped
    cases same
    refine { all with held := ?_ }
    intro m member
    rw [Option.mem_toList.mp member] at found
    exact all.slots head m found
  | clearSlot head out =>
    obtain ⟨cleared, stepped, same⟩ := Option.map_eq_some_iff.mp popped
    obtain ⟨stored, wrote, rfl⟩ := Option.map_eq_some_iff.mp stepped
    cases same
    refine { all with slots := ?_, held := all.held }
    intro i m found
    rcases slot_setSlot wrote found with cleared | before
    · cases cleared
    · exact all.slots i m before
  | storeHead head out =>
    cases popped
    exact { all with held := all.held }
  | loadMetrics out =>
    cases popped
    exact { all with held := all.held }
  | storeMetrics out m =>
    cases popped
    refine { all with returned := ?_, held := of_held rfl }
    intro m member
    rcases List.mem_append.mp member with before | new
    · exact all.returned m before
    · exact all.held m new

end All

/-- What a step of a push leaves alone, and what it does with its text: it keeps it until `tail` is stored, and
that counts as one more push. -/
structure PushStep (s next : SharedFifo) : Prop where
  cap : next.fifo.cap = s.fifo.cap
  returned : next.returned = s.returned
  freed : next.freed = s.freed ∨ ∃ msg tail head m old, s.producer = .freeOld msg tail head m old
  text : next.pushed = s.pushed ∧ pushing next.producer = pushing s.producer ∨
    ∃ text, pushing s.producer = [text] ∧ pushing next.producer = [] ∧ next.pushed = s.pushed + 1

theorem pushStep_stepProducer (moved : s.stepProducer = some next) : PushStep s next := by
  obtain ⟨fifo, producer, consumer, pushed, freed, returned, rets⟩ := s
  cases producer with
  | idle => cases moved
  | loadMetrics msg tail head =>
    cases moved
    refine ⟨rfl, rfl, .inl rfl, .inl ⟨rfl, ?_⟩⟩
    dsimp only
    split <;> rfl
  | readOld msg tail head m =>
    obtain ⟨old, -, rfl⟩ := Option.map_eq_some_iff.mp moved
    exact ⟨rfl, rfl, .inl rfl, .inl ⟨rfl, rfl⟩⟩
  | freeOld msg tail head m old =>
    cases moved
    exact ⟨rfl, rfl, .inr ⟨msg, tail, head, m, old, rfl⟩, .inl ⟨rfl, rfl⟩⟩
  | clearOld msg tail head m =>
    obtain ⟨written, wrote, rfl⟩ := Option.map_eq_some_iff.mp moved
    exact ⟨Fifo.setSlot_cap wrote, rfl, .inl rfl, .inl ⟨rfl, rfl⟩⟩
  | writeSlot msg tail m dropped =>
    obtain ⟨written, wrote, rfl⟩ := Option.map_eq_some_iff.mp moved
    exact ⟨Fifo.setSlot_cap wrote, rfl, .inl rfl, .inl ⟨rfl, rfl⟩⟩
  | storeTail tail m dropped dup =>
    cases moved
    exact ⟨rfl, rfl, .inl rfl, .inr ⟨dup.text, rfl, rfl, rfl⟩⟩
  | depthTail m dropped head =>
    simp only [SharedFifo.stepProducer] at moved
    split at moved
    · cases moved
      exact ⟨rfl, rfl, .inl rfl, .inl ⟨rfl, rfl⟩⟩
    · cases moved
      exact ⟨rfl, rfl, .inl rfl, .inl ⟨rfl, rfl⟩⟩
  | _ =>
    cases moved
    exact ⟨rfl, rfl, .inl rfl, .inl ⟨rfl, rfl⟩⟩

/-- A pop leaves the push alone, and what it returns is the last of what was returned. -/
structure PopStep (s next : SharedFifo) (result : Option (Option Message)) : Prop where
  cap : next.fifo.cap = s.fifo.cap
  producer : next.producer = s.producer
  pushed : next.pushed = s.pushed
  freed : next.freed = s.freed
  returned : next.returned = s.returned ++ (result.getD none).toList

theorem popStep_stepPop {result : Option (Option Message)} (popped : s.stepPop = some (next, result)) :
    PopStep s next result := by
  obtain ⟨fifo, producer, consumer, pushed, freed, returned, rets⟩ := s
  cases consumer with
  | loadTail head =>
    simp only [SharedFifo.stepPop, SharedFifo.step, SharedFifo.stepConsumer, SharedFifo.popResult, reduceCtorEq,
      if_false] at popped
    split at popped
    · cases popped
      exact ⟨rfl, rfl, rfl, rfl, rfl⟩
    · cases popped
      exact ⟨rfl, rfl, rfl, rfl, (List.append_nil _).symm⟩
  | readSlot head =>
    obtain ⟨read, stepped, same⟩ := Option.map_eq_some_iff.mp popped
    obtain ⟨out, -, rfl⟩ := Option.map_eq_some_iff.mp stepped
    cases same
    exact ⟨rfl, rfl, rfl, rfl, (List.append_nil _).symm⟩
  | clearSlot head out =>
    obtain ⟨cleared, stepped, same⟩ := Option.map_eq_some_iff.mp popped
    obtain ⟨stored, wrote, rfl⟩ := Option.map_eq_some_iff.mp stepped
    cases same
    exact ⟨Fifo.setSlot_cap wrote, rfl, rfl, rfl, (List.append_nil _).symm⟩
  | storeMetrics out m =>
    cases popped
    exact ⟨rfl, rfl, rfl, rfl, rfl⟩
  | _ =>
    cases popped
    exact ⟨rfl, rfl, rfl, rfl, (List.append_nil _).symm⟩

/-- What `vts_fifo_free` frees stood in the slots. -/
theorem mem_freeSlots {cap t fuel h : ℕ} {slots : List (Option Message)} {freed : List Message}
    (free : Fifo.freeSlots cap t fuel h slots = some freed) {m : Message} (member : m ∈ freed) :
    ∃ i : ℕ, slots[i]? = some (some m) := by
  induction fuel generalizing h slots freed with
  | zero =>
    rw [Fifo.freeSlots] at free
    split at free
    · cases free
      cases member
    · cases free
  | succ fuel ih =>
    rw [Fifo.freeSlots] at free
    split at free
    · cases free
      cases member
    · obtain ⟨old, found, rest⟩ := Option.bind_eq_some_iff.mp free
      obtain ⟨later, freeLater, same⟩ := Option.bind_eq_some_iff.mp rest
      cases same
      rcases List.mem_append.mp member with first | others
      · rw [Option.mem_toList.mp first] at found
        exact ⟨h, found⟩
      · obtain ⟨i, cell⟩ := ih freeLater others
        by_cases own : h = i
        · subst own
          rw [List.getElem?_set_self (List.getElem?_eq_some_iff.mp found).1] at cell
          cases cell
        · rw [List.getElem?_set_ne own] at cell
          exact ⟨i, cell⟩

/-- `vts_fifo_free` leaves no buffer behind. -/
theorem free_eq_some {q fifo : Fifo} {freed : List Message} (free : q.vtsFifoFree = some (fifo, freed)) :
    fifo = { q with buf := none } ∧ ∀ m ∈ freed, ∃ i, q.slot i = some (some m) := by
  rw [Fifo.vtsFifoFree] at free
  split at free
  next none =>
    cases free
    exact ⟨by rw [← none], by simp⟩
  next slots buf =>
    obtain ⟨freed', loop, same⟩ := Option.map_eq_some_iff.mp free
    cases same
    refine ⟨rfl, ?_⟩
    intro m member
    obtain ⟨i, cell⟩ := mem_freeSlots loop member
    exact ⟨i, (Fifo.slot_eq buf i).trans cell⟩

end Texts

section Flow

variable {s next : VtsMain}

/-- The records of the messages, as `vts_log_write` gets them. -/
def records (messages : List Message) : List Bytes := messages.map fun m => m.text ++ literal "\n"

/-- What holds in every interleaving: the lines are the texts of the pushes in order and those still to be pushed,
the messages have the texts of their lines, and what was returned is logged, or is about to be. -/
structure Flow (log : VtsLog) (s : VtsMain) : Prop where
  lines : ∃ said, s.recv.messages = said ++ (pushing s.shared.producer ++ s.outbox) ∧ said.length = s.shared.pushed
  texts : All (fun m => s.recv.messages[m.number]? = some m.text) s.shared
  logged : s.shared.returned = s.logged ++ s.coords.phase.logs
  log : s.coords.log = (records s.logged).foldl VtsLog.vtsLogWrite log
  quiet : ShutdownDrain.Quiet s.coords
  pushed : s.recv.pc = .ended → s.AllPushed
  joinedCoords : s.main = .joinRecv ∨ s.main = .freeFifo ∨ s.main = .joined → s.coords.phase = .returned
  joinedRecv : s.main = .freeFifo ∨ s.main = .joined → s.recv.pc = .ended
  unfreed : s.main ≠ .joined → s.freed = []
  freedTexts : ∀ m ∈ s.freed, s.recv.messages[m.number]? = some m.text

theorem pc_ne_ended {s next : ThrRecv UInt8} {e : ThrRecv.Event UInt8} (moves : ThrRecv.Moves id s e next) :
    s.pc ≠ .ended := by
  intro ended
  cases moves <;> rename_i here <;> simp_all

/-- Only a `read()` makes lines, and it does not end the thread. -/
theorem messages_of_ended {s next : ThrRecv UInt8} {e : ThrRecv.Event UInt8} (moves : ThrRecv.Moves id s e next)
    (ended : next.pc = .ended) : next.messages = s.messages := by
  cases moves with
  | fed => cases ended
  | _ => rfl

theorem ownMoves_moves {s next : CoordsThread} (moves : s.OwnMoves next) : CoordsThread.Moves s next := by
  cases moves with
  | testStop phase => exact .testStop phase
  | pop phase popped => exact .pop _ _ phase popped
  | sleep phase => exact .sleep phase
  | log phase => exact .log _ phase
  | testCount phase => exact .testCount _ phase
  | drainPop phase popped => exact .drainPop _ _ _ phase popped
  | drainLog phase => exact .drainLog _ _ phase

theorem phase_ne_returned {s next : CoordsThread} (moves : s.OwnMoves next) : s.phase ≠ .returned := by
  intro returned
  cases moves <;> rename_i phase <;> simp_all

namespace Flow

variable {log : VtsLog}

theorem start (cap : ℕ) (log : VtsLog) : Flow log (.start cap log) where
  lines := ⟨[], rfl, rfl⟩
  texts := .start cap
  logged := rfl
  log := rfl
  quiet := rfl
  pushed := by simp [VtsMain.start, ThrRecv.start]
  joinedCoords := by simp [VtsMain.start]
  joinedRecv := by simp [VtsMain.start]
  unfreed _ := rfl
  freedTexts := by simp [VtsMain.start]

theorem signal (flow : Flow log s) : Flow log s.onSig := by
  refine { flow with quiet := ShutdownDrain.quiet_step flow.quiet .stop, joinedCoords := ?_, joinedRecv := ?_,
                     unfreed := ?_ }
  all_goals
    simp only [VtsMain.onSig]
    split
    next pausing => simp [flow.unfreed, pausing]
  · exact flow.joinedCoords
  · exact flow.joinedRecv
  · exact flow.unfreed

theorem recv (flow : Flow log s) {e : ThrRecv.Event UInt8} {recv : ThrRecv UInt8} (pushed : s.AllPushed)
    (moves : ThrRecv.Moves id s.recv e recv) :
    Flow log { s with recv, tested := false, outbox := recv.messages.drop s.recv.messages.length } := by
  obtain ⟨said, lines, count⟩ := flow.lines
  obtain ⟨empty, idle⟩ := pushed
  rw [idle, empty, pushing, List.append_nil, List.append_nil] at lines
  obtain ⟨-, messages⟩ := moves.feeds
  have grown (m : Message) (found : s.recv.messages[m.number]? = some m.text) :
      recv.messages[m.number]? = some m.text := by
    rw [messages, List.getElem?_append_left (List.getElem?_eq_some_iff.mp found).1]
    exact found
  refine { flow with lines := ?_, texts := flow.texts.mono grown, pushed := ?_, joinedRecv := ?_,
                     freedTexts := fun m member => grown m (flow.freedTexts m member) }
  · refine ⟨said, ?_, count⟩
    change recv.messages = said ++ (pushing s.shared.producer ++ recv.messages.drop s.recv.messages.length)
    rw [idle, messages, List.drop_left, lines]
    rfl
  · intro ended
    refine ⟨?_, idle⟩
    dsimp only
    rw [messages_of_ended moves ended, List.drop_length]
  · intro joined
    exact absurd (flow.joinedRecv joined) (pc_ne_ended moves)

theorem handleLine (flow : Flow log s) {line : Bytes} {rest : List Bytes} {shared : SharedFifo}
    (first : s.outbox = line :: rest) (moved : s.shared.step (.push (some line)) = some shared) :
    Flow log { s with coords := { s.coords with shared }, outbox := rest } := by
  obtain ⟨said, lines, count⟩ := flow.lines
  have quiet := ShutdownDrain.quiet_step flow.quiet (.push _ _ moved)
  obtain ⟨idle, same⟩ := Option.ite_none_right_eq_some.mp moved
  cases same
  rw [idle, first] at lines
  refine { flow with lines := ⟨said, lines, count⟩, texts := { flow.texts with register := ?_ }, quiet,
                     pushed := ?_ }
  · intro m held
    cases held
  · intro ended
    have none := (flow.pushed ended).1
    rw [first] at none
    cases none

theorem push (flow : Flow log s) {shared : SharedFifo} (moved : s.shared.stepProducer = some shared) :
    Flow log { s with coords := { s.coords with shared } } := by
  obtain ⟨said, lines, count⟩ := flow.lines
  have pushed := pushStep_stepProducer moved
  have fresh : ∀ text, pushing s.shared.producer = [text] → s.recv.messages[s.shared.pushed]? = some text := by
    intro text own
    rw [lines, own, ← count]
    simp
  refine { flow with
    lines := ?_
    texts := flow.texts.stepProducer fresh moved
    logged := pushed.returned.trans flow.logged
    quiet := ShutdownDrain.quiet_step flow.quiet (.producer _ moved)
    pushed := ?_ }
  · rcases pushed.text with ⟨same, kept⟩ | ⟨text, own, done, more⟩
    · refine ⟨said, ?_, count.trans same.symm⟩
      change s.recv.messages = said ++ (pushing shared.producer ++ s.outbox)
      rw [kept, lines]
    · refine ⟨said ++ [text], ?_, ?_⟩
      · change s.recv.messages = said ++ [text] ++ (pushing shared.producer ++ s.outbox)
        rw [done, lines, own]
        simp
      · change (said ++ [text]).length = shared.pushed
        rw [more, List.length_append, count]
        rfl
  · intro ended
    have idle := (flow.pushed ended).2
    rw [SharedFifo.stepProducer, idle] at moved
    cases moved

/-- A pop of either loop: what it returns is what the thread logs next. -/
theorem pop (flow : Flow log s) {shared : SharedFifo} {result : Option (Option Message)} {phase : CoordsPhase}
    (popped : s.shared.stepPop = some (shared, result)) (nothing : s.coords.phase.logs = [])
    (logs : phase.logs = (result.getD none).toList) (quiet : ShutdownDrain.Quiet { s.coords with shared, phase })
    (unjoined : s.coords.phase ≠ .returned) :
    Flow log { s with coords := { s.coords with shared, phase }, logged := s.logged ++ s.coords.phase.logs } := by
  obtain ⟨-, producer, pushed, -, returned⟩ := popStep_stepPop popped
  obtain ⟨said, lines, count⟩ := flow.lines
  rw [nothing, List.append_nil]
  have before := flow.logged
  rw [nothing, List.append_nil] at before
  refine { flow with lines := ⟨said, ?_, count.trans pushed.symm⟩, texts := flow.texts.stepPop popped, logged := ?_,
                     quiet, pushed := ?_, joinedCoords := ?_ }
  · change s.recv.messages = said ++ (pushing shared.producer ++ s.outbox)
    rw [producer, lines]
  · change shared.returned = s.logged ++ phase.logs
    rw [returned, before, logs]
  · intro ended
    exact ⟨(flow.pushed ended).1, producer.trans (flow.pushed ended).2⟩
  · intro joined
    exact absurd (flow.joinedCoords joined) unjoined

/-- A step of the thread that only moves it on, or logs what it has. -/
theorem turn (flow : Flow log s) (drained : List Message) {phase : CoordsPhase} (logs : phase.logs = [])
    {written : VtsLog} {others : List Message}
    (quiet : ShutdownDrain.Quiet ⟨s.coords.shared, s.coords.gStop, phase, written, others⟩)
    (unjoined : s.coords.phase ≠ .returned) :
    Flow log { s with
      coords := { s.coords with
        phase, drained, log := (records s.coords.phase.logs).foldl VtsLog.vtsLogWrite s.coords.log }
      logged := s.logged ++ s.coords.phase.logs } := by
  refine { flow with logged := ?_, log := ?_, quiet, joinedCoords := ?_ }
  · change s.shared.returned = s.logged ++ s.coords.phase.logs ++ phase.logs
    rw [logs, List.append_nil]
    exact flow.logged
  · change (records s.coords.phase.logs).foldl VtsLog.vtsLogWrite s.coords.log = _
    rw [records, records, List.map_append, List.foldl_append, flow.log]
    rfl
  · intro joined
    exact absurd (flow.joinedCoords joined) unjoined

theorem coords (flow : Flow log s) {coords : CoordsThread} (moves : s.coords.OwnMoves coords) :
    Flow log { s with coords, logged := s.logged ++ s.coords.phase.logs } := by
  have unjoined := phase_ne_returned moves
  have quiet := ShutdownDrain.quiet_step flow.quiet (ownMoves_moves moves)
  cases moves with
  | testStop phase =>
    have turned := flow.turn s.coords.drained (by split <;> rfl) quiet unjoined
    rw [phase] at turned ⊢
    exact turned
  | @pop shared result phase popped =>
    refine flow.pop popped (by rw [phase]; rfl) ?_ quiet unjoined
    rcases result with _ | _ | msg <;> rfl
  | sleep phase =>
    have turned := flow.turn s.coords.drained rfl quiet unjoined
    rw [phase] at turned ⊢
    exact turned
  | log phase =>
    have turned := flow.turn s.coords.drained rfl quiet unjoined
    rw [phase] at turned ⊢
    exact turned
  | testCount phase =>
    have turned := flow.turn s.coords.drained (by split <;> rfl) quiet unjoined
    rw [phase] at turned ⊢
    exact turned
  | @drainPop i shared result phase popped =>
    refine flow.pop popped (by rw [phase]; rfl) ?_ quiet unjoined
    rcases result with _ | _ | msg <;> rfl
  | @drainLog i m phase =>
    have turned := flow.turn (s.coords.drained ++ [m]) rfl quiet unjoined
    rw [phase] at turned ⊢
    exact turned

theorem step {e : VtsMain.Event} (flow : Flow log s) (stepped : VtsMain.machine.step s e = some next) :
    Flow log next := by
  cases VtsMain.moves_of_step stepped with
  | signal => exact flow.signal
  | sawStop here pushed stop => exact { flow with pushed := fun _ => pushed, joinedRecv := fun _ => rfl }
  | goesOn => exact { flow with }
  | recv pushed tested moves fits => exact flow.recv pushed moves
  | handleLine first moved => exact flow.handleLine first moved
  | push moved => exact flow.push moved
  | coords moves => exact flow.coords moves
  | mainStops here | mainGoesOn here | mainPauses here =>
    exact { flow with
      joinedCoords := by simp, joinedRecv := by simp, unfreed := fun _ => flow.unfreed (by simp [here]) }
  | joinedCoords here returned =>
    exact { flow with
      joinedCoords := fun _ => returned, joinedRecv := by simp, unfreed := fun _ => flow.unfreed (by simp [here]) }
  | joinedRecv here ended =>
    exact { flow with
      joinedCoords := fun _ => flow.joinedCoords (by simp [here]), joinedRecv := fun _ => ended
      unfreed := fun _ => flow.unfreed (by simp [here]) }
  | freed here free =>
    obtain ⟨rfl, slots⟩ := free_eq_some free
    exact { flow with
      texts := { flow.texts with slots := fun i m found => by cases found }
      freedTexts := fun m member => by
        obtain ⟨i, cell⟩ := slots m member
        exact flow.texts.slots i m cell
      joinedCoords := fun _ => flow.joinedCoords (by simp [here])
      joinedRecv := fun _ => flow.joinedRecv (by simp [here])
      unfreed := fun other => absurd rfl other }

end Flow

theorem flow_run {cap : ℕ} {log : VtsLog} {events : List VtsMain.Event}
    (ran : VtsMain.machine.run (.start cap log) events = some s) : Flow log s :=
  EventMachine.invariant (Flow log) (fun _ _ _ flow stepped => flow.step stepped) (.start cap log) ran

end Flow

end ProcessMonitor.Soundness.LogFlow
