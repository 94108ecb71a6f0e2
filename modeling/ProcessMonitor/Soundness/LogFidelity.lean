import ProcessMonitor.Soundness.LogFlow

/-! # From the bytes on the pipe to the lines in the log

As long as a push that drops and a pop do not meet, every line goes one way: into the log, to the push that
dropped it, or to `vts_fifo_free`. With fewer lines than the FIFO has slots the two cannot meet and nothing is
dropped, so that on every schedule the log has the lines in order, up to those still on their way.
-/

namespace ProcessMonitor.Soundness.LogFidelity

open Machine Machine.Posix Model.Vts FifoRace LogFlow

section Placement

variable {s next : VtsMain}

/-- The thread is in a call of `vts_fifo_pop_spsc`. -/
def pops : CoordsPhase → Bool
  | .popping | .drainPopping _ => true
  | _ => false

/-- No push starts to drop while a pop is at `head`, and no pop starts while a push is dropping. -/
def Separate (s : VtsMain) : VtsMain.Event → Prop
  | .push => Apart s.shared .producer
  | .coords => pops s.coords.phase = true → s.shared.consumer = .idle → Apart s.shared .pop
  | _ => True

instance (s : VtsMain) (e : VtsMain.Event) : Decidable (Separate s e) := by
  unfold Separate
  split <;> infer_instance

/-- Where the lines are when `main` has freed the FIFO. -/
structure Settled (s : VtsMain) (first : ℕ) : Prop where
  logged : Logged s.logged s.shared.freed first
  left : s.freed.map Message.number = List.range' first s.freed.length
  all : first + s.freed.length = s.recv.messages.length

/-- Where the messages are, until the FIFO is freed and from then on. -/
structure Placed (s : VtsMain) : Prop where
  stored : s.main ≠ .joined → ∃ slots items first, Stores s.shared slots items first
  settled : s.main = .joined → ∃ first, Settled s first

theorem stepPop_step {shared after : SharedFifo} {result : Option (Option Message)}
    (popped : shared.stepPop = some (after, result)) :
    shared.consumer = .idle ∧ shared.step .pop = some after ∨ shared.step .consumer = some after := by
  rw [SharedFifo.stepPop] at popped
  split at popped
  next idle =>
    obtain ⟨next, moved, same⟩ := Option.map_eq_some_iff.mp popped
    cases same
    exact .inl ⟨idle, moved⟩
  next =>
    obtain ⟨next, moved, same⟩ := Option.map_eq_some_iff.mp popped
    cases same
    exact .inr moved

theorem stores_stepPop {shared after : SharedFifo} {result : Option (Option Message)}
    {slots : List (Option Message)} {items : List Message} {first : ℕ} (stores : Stores shared slots items first)
    (separate : shared.consumer = .idle → Apart shared .pop) (popped : shared.stepPop = some (after, result)) :
    ∃ slots items first, Stores after slots items first := by
  rcases stepPop_step popped with ⟨idle, moved⟩ | moved
  · exact stores.step (separate idle) moved
  · exact stores.step (e := .consumer) trivial moved

namespace Placed

variable {log : VtsLog}

theorem start {cap : ℕ} (large : 2 ≤ cap) (log : VtsLog) : Placed (.start cap log) where
  stored _ := ⟨_, _, _, Stores.start large⟩
  settled := by simp [VtsMain.start]

/-- Steps that leave the FIFO and the lines alone. -/
theorem congr (placed : Placed s) (shared : next.shared = s.shared) (messages : next.recv.messages = s.recv.messages)
    (logged : next.logged = s.logged) (freed : next.freed = s.freed) (ended : next.main = .joined ↔ s.main = .joined) :
    Placed next where
  stored going := by
    rw [shared]
    exact placed.stored fun done => going (ended.mpr done)
  settled done := by
    obtain ⟨first, settled⟩ := placed.settled (ended.mp done)
    refine ⟨first, ?_, ?_, ?_⟩
    · rw [logged, shared]
      exact settled.logged
    · rw [freed]
      exact settled.left
    · rw [freed, messages]
      exact settled.all

/-- A step of one of the threads, which cannot be taken once they have been joined. -/
theorem of_unended (going : next.main ≠ .joined) (stored : ∃ slots items first, Stores next.shared slots items first) :
    Placed next :=
  ⟨fun _ => stored, fun done => absurd done going⟩

/-- Both threads have returned when the FIFO is freed, so that everything is in its slots or logged. -/
theorem free (placed : Placed s) (flow : Flow log s) (here : s.main = .freeFifo) {fifo : Fifo} {freed : List Message}
    (free : s.shared.fifo.vtsFifoFree = some (fifo, freed)) :
    Placed { s with coords := { s.coords with shared := { s.shared with fifo } }, freed, main := .joined } := by
  have returned := flow.joinedCoords (.inr (.inl here))
  obtain ⟨empty, idle⟩ := flow.pushed (flow.joinedRecv (.inl here))
  have consumer : s.shared.consumer = .idle := by
    have quiet := flow.quiet
    rw [ShutdownDrain.Quiet, returned] at quiet
    exact quiet
  obtain ⟨slots, items, first, stores⟩ := placed.stored (by simp [here])
  obtain ⟨said, lines, count⟩ := flow.lines
  refine ⟨fun going => absurd rfl going, fun _ => ⟨first, ?_, ?_, ?_⟩⟩
  · have logged := stores.logged
    rw [idle, consumer, taken, consumer, flow.logged, returned] at logged
    change Logged s.logged s.shared.freed first
    simpa [held, droppedMessage, poppedMessage, CoordsPhase.logs] using logged
  all_goals
    have ring := stores.ring
    rw [idle, consumer] at ring
    have loop : Fifo.freeSlots slots.length s.shared.fifo.tail slots.length s.shared.fifo.head slots = some items :=
      FifoQueue.freeSlots_eq ring (Nat.le_of_lt ring.room)
    rw [Fifo.vtsFifoFree, stores.buf] at free
    dsimp only at free
    rw [stores.cap, loop, Option.map_some] at free
    cases free
  · exact stores.numbered
  · rw [idle, empty] at lines
    dsimp only
    rw [lines, List.length_append, count, ← stores.pushed]
    rfl

theorem step {e : VtsMain.Event} (placed : Placed s) (flow : Flow log s) (separate : Separate s e)
    (stepped : VtsMain.machine.step s e = some next) : Placed next := by
  cases VtsMain.moves_of_step stepped with
  | signal =>
    refine placed.congr rfl rfl rfl rfl ?_
    rw [VtsMain.onSig]
    dsimp only
    split
    next pausing => simp [pausing]
    next => exact .rfl
  | sawStop => exact placed.congr rfl rfl rfl rfl .rfl
  | goesOn => exact placed.congr rfl rfl rfl rfl .rfl
  | recv pushed tested moves =>
    have going : s.main ≠ .joined := fun done => pc_ne_ended moves (flow.joinedRecv (.inr done))
    exact of_unended going (placed.stored going)
  | handleLine first moved =>
    have going : s.main ≠ .joined := by
      intro done
      have none := (flow.pushed (flow.joinedRecv (.inr done))).1
      rw [first] at none
      cases none
    obtain ⟨slots, items, number, stores⟩ := placed.stored going
    exact of_unended going (stores.step (e := .push _) trivial moved)
  | push moved =>
    have going : s.main ≠ .joined := by
      intro done
      have idle := (flow.pushed (flow.joinedRecv (.inr done))).2
      rw [SharedFifo.stepProducer, idle] at moved
      cases moved
    obtain ⟨slots, items, number, stores⟩ := placed.stored going
    exact of_unended going (stores.stepProducer separate moved)
  | coords moves =>
    have going : s.main ≠ .joined := fun done => phase_ne_returned moves (flow.joinedCoords (.inr (.inr done)))
    obtain ⟨slots, items, number, stores⟩ := placed.stored going
    refine ⟨fun _ => ?_, fun done => absurd done going⟩
    cases moves with
    | pop phase popped => exact stores_stepPop stores (separate (by rw [phase]; rfl)) popped
    | drainPop phase popped => exact stores_stepPop stores (separate (by rw [phase]; rfl)) popped
    | _ => exact ⟨slots, items, number, stores⟩
  | mainStops here | mainGoesOn here | mainPauses here | joinedCoords here | joinedRecv here =>
    exact placed.congr rfl rfl rfl rfl (by simp [here])
  | freed here free => exact placed.free flow here free

end Placed

theorem placed_run {cap : ℕ} {log : VtsLog} {events : List VtsMain.Event} (large : 2 ≤ cap)
    (separate : VtsMain.machine.Along Separate (.start cap log) events)
    (ran : VtsMain.machine.run (.start cap log) events = some s) : Placed s := by
  have both := EventMachine.invariant_along (fun s => Flow log s ∧ Placed s)
    (fun _ _ _ kept apart stepped => ⟨kept.1.step stepped, kept.2.step kept.1 apart stepped⟩)
    ⟨.start cap log, .start large log⟩ separate ran
  exact both.2

/-- Two lines are read; the first is logged, and the second is pushed when the logging thread has returned. -/
def session : List VtsMain.Event :=
  [.recv (.openFifo (some 3)), .recv (.epollCreate (some 4)), .recv .epollCtl, .recvTest, .recv (.report false false),
    .recv (.read (.data [97, 10, 98, 10])), .handleLine] ++ List.replicate 9 .push ++ [.signal] ++
    List.replicate 13 .coords ++ [.handleLine] ++ List.replicate 8 .push ++ [.recvTest] ++ List.replicate 4 .main

/-- When `main` has joined the threads and freed the FIFO, every line that the receiver has cut has gone exactly one
way, the log has its lines in the order they came, and no line has changed on its way, as long as no push has dropped
a message under a pop. -/
theorem lines_accounted {cap : ℕ} {log : VtsLog} {events : List VtsMain.Event} (large : 2 ≤ cap)
    (separate : VtsMain.machine.Along Separate (.start cap log) events)
    (ran : VtsMain.machine.run (.start cap log) events = some s) (done : s.main = .joined) :
    ((s.logged ++ s.shared.freed ++ s.freed).map Message.number).Perm (List.range s.recv.messages.length) ∧
      (s.logged.map Message.number).Pairwise (· < ·) ∧
      ∀ m ∈ s.logged ++ s.shared.freed ++ s.freed, s.recv.messages[m.number]? = some m.text := by
  have flow := flow_run ran
  obtain ⟨first, settled⟩ := (placed_run large separate ran).settled done
  refine ⟨?_, settled.logged.inOrder, ?_⟩
  · rw [List.map_append, settled.left, ← settled.all, List.range_eq_range', ← List.range'_append_1, Nat.zero_add,
      ← List.range_eq_range']
    exact settled.logged.all.append_right _
  · intro m member
    rcases List.mem_append.mp member with early | left
    · rcases List.mem_append.mp early with logged | dropped
      · apply flow.texts.returned
        rw [flow.logged]
        exact List.mem_append_left _ logged
      · exact flow.texts.freed m dropped
    · exact flow.freedTexts m left

theorem lines_accounted_session : ∃ s,
    VtsMain.machine.run (.start 4 (.start 100 LogRotation.noFiles)) session = some s ∧
    s.main = .joined ∧ s.logged = [⟨0, [97]⟩] ∧ s.freed = [⟨1, [98]⟩] ∧
    ((s.logged ++ s.shared.freed ++ s.freed).map Message.number).Perm (List.range s.recv.messages.length) := by
  have separate : VtsMain.machine.Along Separate (.start 4 (.start 100 LogRotation.noFiles)) session := by decide
  have ran : ∃ s, VtsMain.machine.run (.start 4 (.start 100 LogRotation.noFiles)) session = some s ∧
      s.main = .joined ∧ s.logged = [⟨0, [97]⟩] ∧ s.freed = [⟨1, [98]⟩] := ⟨_, rfl, rfl, rfl, rfl⟩
  obtain ⟨s, ran, done, logged, freed⟩ := ran
  exact ⟨s, ran, done, logged, freed, (lines_accounted (by decide) separate ran done).1⟩

end Placement

section Few

variable {s next : VtsMain} {cap : ℕ} {log : VtsLog}

/-- With fewer lines than slots a push never finds the FIFO full. -/
theorem not_dropping {slots : List (Option Message)} {items : List Message} {first : ℕ}
    (stores : Stores s.shared slots items first) (room : s.shared.pushed + 1 < s.shared.fifo.cap) :
    dropping s.shared.fifo.cap s.shared.producer = false := by
  have count := stores.pushed
  have push := stores.push
  cases producer : s.shared.producer with
  | loadMetrics msg tail head =>
    rw [producer] at push
    apply decide_eq_false
    intro full
    have fits := push.2
    rw [if_pos full] at fits
    omega
  | readOld | clearOld | storeHead =>
    rw [producer] at push
    have := push.2.2
    omega
  | freeOld =>
    rw [producer] at push
    have := push.2.2.1
    omega
  | _ => rfl

theorem not_full {slots : List (Option Message)} {items : List Message} {first : ℕ}
    (stores : Stores s.shared slots items first) (room : s.shared.pushed + 1 < s.shared.fifo.cap)
    {msg : Option Bytes} {tail : ℕ} (loading : s.shared.producer = .loadHead msg tail) :
    nextIdx tail s.shared.fifo.cap ≠ s.shared.fifo.head := by
  intro full
  have push := stores.push
  rw [loading] at push
  have count := stores.pushed
  have size := stores.cap
  rw [push, size] at full
  have := stores.ring.full_iff.mp full
  omega

/-- A text that is being pushed is a line of its own. -/
theorem room_of_pushing (flow : Flow log s) (few : s.recv.messages.length < s.shared.fifo.cap)
    (busy : pushing s.shared.producer ≠ []) : s.shared.pushed + 1 < s.shared.fifo.cap := by
  obtain ⟨said, lines, count⟩ := flow.lines
  have positive := List.length_pos_iff.mpr busy
  rw [lines, List.length_append, List.length_append, count] at few
  omega

theorem not_dropping_of_few (flow : Flow log s) (placed : Placed s)
    (few : s.recv.messages.length < s.shared.fifo.cap) :
    dropping s.shared.fifo.cap s.shared.producer = false := by
  by_cases busy : pushing s.shared.producer = []
  · cases producer : s.shared.producer with
    | loadMetrics | readOld | freeOld | clearOld | storeHead =>
      rw [producer] at busy
      cases busy
    | _ => rfl
  · have going : s.main ≠ .joined := by
      intro done
      rw [(flow.pushed (flow.joinedRecv (.inr done))).2] at busy
      exact busy rfl
    obtain ⟨slots, items, first, stores⟩ := placed.stored going
    exact not_dropping stores (room_of_pushing flow few busy)

theorem separate_of_few (flow : Flow log s) (placed : Placed s)
    (few : s.recv.messages.length < s.shared.fifo.cap) (e : VtsMain.Event) : Separate s e := by
  cases e with
  | push =>
    rw [Separate, Apart]
    split
    next msg tail loading =>
      have going : s.main ≠ .joined := by
        intro done
        have idle := (flow.pushed (flow.joinedRecv (.inr done))).2
        rw [loading] at idle
        cases idle
      obtain ⟨slots, items, first, stores⟩ := placed.stored going
      have room := room_of_pushing flow few (by simp [loading, pushing])
      exact fun full => absurd full (not_full stores room loading)
    next => trivial
  | coords => exact fun _ _ => not_dropping_of_few flow placed few
  | _ => trivial

theorem messages_mono {e : VtsMain.Event} (stepped : VtsMain.machine.step s e = some next) :
    s.recv.messages.length ≤ next.recv.messages.length := by
  cases VtsMain.moves_of_step stepped with
  | recv pushed tested moves =>
    dsimp only
    rw [moves.feeds.2, List.length_append]
    exact Nat.le_add_right _ _
  | _ => exact Nat.le_refl _

theorem cap_step {e : VtsMain.Event} (stepped : VtsMain.machine.step s e = some next) :
    next.shared.fifo.cap = s.shared.fifo.cap := by
  cases VtsMain.moves_of_step stepped with
  | handleLine first moved =>
    cases (Option.ite_none_right_eq_some.mp moved).2
    rfl
  | push moved => exact (pushStep_stepProducer moved).cap
  | coords moves =>
    cases moves with
    | pop phase popped => exact (popStep_stepPop popped).cap
    | drainPop phase popped => exact (popStep_stepPop popped).cap
    | _ => rfl
  | freed here free =>
    obtain ⟨rfl, -⟩ := free_eq_some free
    rfl
  | _ => rfl

theorem freed_step {e : VtsMain.Event} (stepped : VtsMain.machine.step s e = some next)
    (away : dropping s.shared.fifo.cap s.shared.producer = false) : next.shared.freed = s.shared.freed := by
  cases VtsMain.moves_of_step stepped with
  | handleLine first moved =>
    cases (Option.ite_none_right_eq_some.mp moved).2
    rfl
  | push moved =>
    rcases (pushStep_stepProducer moved).freed with same | ⟨msg, tail, head, m, old, freeing⟩
    · exact same
    · rw [freeing] at away
      cases away
  | coords moves =>
    cases moves with
    | pop phase popped => exact (popStep_stepPop popped).freed
    | drainPop phase popped => exact (popStep_stepPop popped).freed
    | _ => rfl
  | _ => rfl

/-- As long as there are fewer lines than slots, the messages are where they should be, and none was dropped. -/
structure Kept (cap : ℕ) (log : VtsLog) (s : VtsMain) : Prop where
  flow : Flow log s
  size : s.shared.fifo.cap = cap
  few : s.recv.messages.length < cap → Placed s ∧ s.shared.freed = []

theorem Kept.step {e : VtsMain.Event} (kept : Kept cap log s) (stepped : VtsMain.machine.step s e = some next) :
    Kept cap log next := by
  refine ⟨kept.flow.step stepped, (cap_step stepped).trans kept.size, ?_⟩
  intro few
  have fewer := Nat.lt_of_le_of_lt (messages_mono stepped) few
  obtain ⟨placed, undropped⟩ := kept.few fewer
  rw [← kept.size] at fewer
  have separate := separate_of_few kept.flow placed fewer
  refine ⟨placed.step kept.flow (separate e) stepped, ?_⟩
  rw [freed_step stepped (not_dropping_of_few kept.flow placed fewer), undropped]

theorem kept_run {events : List VtsMain.Event} (large : 2 ≤ cap)
    (ran : VtsMain.machine.run (.start cap log) events = some s) : Kept cap log s :=
  EventMachine.invariant (Kept cap log) (fun _ _ _ kept stepped => kept.step stepped)
    ⟨.start cap log, rfl, fun _ => ⟨.start large log, rfl⟩⟩ ran

/-- Messages with the first numbers are the first lines. -/
theorem texts_eq_take {messages : List Message} {lines : List Bytes}
    (numbers : messages.map Message.number = List.range messages.length)
    (texts : ∀ m ∈ messages, lines[m.number]? = some m.text) :
    messages.map Message.text = lines.take messages.length := by
  apply List.ext_getElem?
  intro i
  rw [List.getElem?_map, List.getElem?_take]
  split
  next inside =>
    have number : messages[i].number = i := by
      have mapped : (messages.map Message.number)[i]? = some messages[i].number := by
        rw [List.getElem?_map, List.getElem?_eq_getElem inside, Option.map_some]
      rw [numbers, List.getElem?_range inside] at mapped
      exact (Option.some.inj mapped).symm
    have text := texts messages[i] (List.getElem_mem inside)
    rw [number] at text
    rw [List.getElem?_eq_getElem inside, Option.map_some, text]
  next outside => rw [List.getElem?_eq_none (Nat.not_lt.mp outside), Option.map_none]

/-- In order and each of the first numbers once, they are counted up from zero. -/
theorem numbers_of_logged {messages : List Message} {n : ℕ} (logged : Logged messages [] n) :
    messages.map Message.number = List.range n := by
  have all := logged.all
  rw [List.append_nil] at all
  refine List.Perm.eq_of_pairwise ?_ logged.inOrder List.pairwise_lt_range all
  intro a b _ _ less more
  omega

/-- The first of them are counted up from zero as well. -/
theorem numbers_of_append {first second : List Message} {n : ℕ}
    (numbers : (first ++ second).map Message.number = List.range n) :
    first.map Message.number = List.range first.length := by
  have size := congrArg List.length numbers
  rw [List.length_map, List.length_append, List.length_range] at size
  rw [List.map_append] at numbers
  have cut := congrArg (List.take first.length) numbers
  rw [List.take_left' (List.length_map _), List.take_range, Nat.min_eq_left (by omega)] at cut
  exact cut

end Few

section Log

variable {s : VtsMain} {cap maxb : ℕ} {files : Files LogName} {events : List VtsMain.Event}

/-- The bytes that an event brings from the pipe. -/
def pipeBytes : VtsMain.Event → Bytes
  | .recv e => e.bytes
  | _ => []

theorem fed_step {s next : VtsMain} {e : VtsMain.Event} (stepped : VtsMain.machine.step s e = some next) :
    next.recv.line = (s.recv.line.feed id (pipeBytes e)).1 ∧
      next.recv.messages = s.recv.messages ++ (s.recv.line.feed id (pipeBytes e)).2.map (lineString id) := by
  cases VtsMain.moves_of_step stepped with
  | recv pushed tested moves => exact moves.feeds
  | _ => exact ⟨rfl, (List.append_nil _).symm⟩

/-- The lines are those of all the bytes that were read. -/
theorem fed_run {s t : VtsMain} {events : List VtsMain.Event} (ran : VtsMain.machine.run s events = some t) :
    t.recv.line = (s.recv.line.feed id (events.flatMap pipeBytes)).1 ∧
      t.recv.messages = s.recv.messages ++ (s.recv.line.feed id (events.flatMap pipeBytes)).2.map (lineString id) := by
  induction events generalizing s with
  | nil =>
    cases ran
    exact ⟨rfl, (List.append_nil _).symm⟩
  | cons e events ih =>
    obtain ⟨next, stepped, rest⟩ := Option.bind_eq_some_iff.mp ran
    obtain ⟨line, messages⟩ := fed_step stepped
    obtain ⟨lastLine, lastMessages⟩ := ih rest
    rw [List.flatMap_cons, LineBuffer.feed_append, ← line]
    refine ⟨lastLine, ?_⟩
    rw [lastMessages, messages, List.map_append, List.append_assoc]

theorem log_of_run {r : LogRotation.LogRun} {t : LogRotation.LogRun} {texts : List Bytes}
    (ran : LogRotation.LogRun.machine.run r texts = some t) : t.log = texts.foldl VtsLog.vtsLogWrite r.log := by
  induction texts generalizing r with
  | nil =>
    cases ran
    rfl
  | cons text texts ih => exact ih ran

/-- The three files hold the end of what was there before and of the records since. -/
theorem files_suffix (maxb : ℕ) (files : Files LogName) (texts : List Bytes) :
    LogRotation.concatenation (texts.foldl VtsLog.vtsLogWrite (.start maxb files)).files <:+
      LogRotation.concatenation files ++ texts.flatten := by
  obtain ⟨r, ran, follows⟩ := LogRotation.run_follows maxb files texts
  have suffix := Rotation.kept_suffix 2 (LogRotation.older files) (.writeAll maxb ⟨[], LogRotation.current files⟩ texts)
  rw [← follows.concatenation_eq, Rotation.writeAll_contents, Rotation.contents, List.flatten_nil, List.nil_append,
    ← List.append_assoc, ← LogRotation.concatenation_eq, log_of_run ran] at suffix
  exact suffix

end Log

end ProcessMonitor.Soundness.LogFidelity
