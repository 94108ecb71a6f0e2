import Mathlib.Data.List.TakeWhile
import ProcessMonitor.Machine.Core.Delimited
import ProcessMonitor.Model.Vts.NamedPipe

/-! # Sessions on the named pipe are received apart, unless the pipe is closed too early

As long as the pipe keeps its bytes, what the receiver holds of a line and what is unread are together the lines
that the sessions have completed and the receiver has not passed on, and then what the session at hand has
written of its next line. The branch for a hang-up closes the pipe without reading it, and then the
unread lines are lost.
-/

namespace ProcessMonitor.Soundness.PipeSessions

open Machine Model.Vts NamedPipe

/-- Every message has bytes of one session only, and no line has been discarded. -/
def Separate (s : NamedPipe) : Prop :=
  (∀ message ∈ s.recv.messages, ∃ session, ∀ b ∈ message, b.1 = session) ∧ ∀ b ∈ s.discarded, b.2 ≠ newline

/-- A call that closes the second end of the pipe finds nothing unread. -/
def Drained (s : NamedPipe) (event : Event) : Prop := s.ClosesSecond event → s.unread = []

instance (s : NamedPipe) (event : Event) : Decidable (Drained s event) := inferInstanceAs (Decidable (_ → _))

/-- What the session at hand has written of its line. -/
def unfinished (s : NamedPipe) : List Sent := s.writer.elim [] Writer.sent

/-- The bytes on their way are the lines on their way, and then a line without its end. -/
structure InFlight (l : LineBuffer Sent) (unread : List Sent) (lines : List SessionLine) (rest : List Sent) : Prop where
  bytes : l.bytes ++ unread = lines.flatMap SessionLine.encode ++ rest
  free : ∀ b ∈ l.bytes, b.2 ≠ newline

section Lines

variable {l : LineBuffer Sent} {b : Sent} {unread rest : List Sent} {lines : List SessionLine}

private theorem encode_cons (line : SessionLine) (lines : List SessionLine) (rest : List Sent) :
    (line :: lines).flatMap SessionLine.encode ++ rest =
      line.sent ++ (line.session, newline) :: (lines.flatMap SessionLine.encode ++ rest) := by
  rw [List.flatMap_cons, SessionLine.encode, List.append_assoc, List.append_assoc, List.singleton_append]

private theorem sent_ne_nil (line : SessionLine) : line.sent ≠ [] := by
  rw [Writer.sent, Ne, List.map_eq_nil_iff]
  exact line.something

/-- A newline ends the first line on its way. -/
theorem InFlight.cut (flight : InFlight l (b :: unread) lines rest) (ends : b.2 = newline)
    (free : ∀ c ∈ rest, c.2 ≠ newline) :
    ∃ line more, lines = line :: more ∧ l.bytes = line.sent ∧ InFlight .empty unread more rest := by
  obtain ⟨bytes, held⟩ := flight
  cases lines with
  | nil =>
    rw [List.flatMap_nil, List.nil_append] at bytes
    exact absurd ends (free b (by simp [← bytes]))
  | cons line more =>
    rw [encode_cons] at bytes
    obtain ⟨whole, tail⟩ :=
      Delimited.cut_unique held (fun c member => (line.plain_sent c member).1) rfl ends bytes
    exact ⟨line, more, rfl, whole, tail, nofun⟩

/-- Another byte belongs to a line that has room for it. -/
theorem InFlight.room (flight : InFlight l (b :: unread) lines rest) (inside : b.2 ≠ newline)
    (fits : rest.length ≤ 4095) : l.bytes.length < 4095 := by
  obtain ⟨bytes, held⟩ := flight
  have free : ∀ c ∈ l.bytes ++ [b], c.2 ≠ newline :=
    List.forall_mem_append.mpr ⟨held, List.forall_mem_singleton.mpr inside⟩
  rw [List.append_cons] at bytes
  have bound : (l.bytes ++ [b]).length ≤ 4095 := by
    cases lines with
    | nil =>
      rw [List.flatMap_nil, List.nil_append] at bytes
      exact (List.IsPrefix.length_le ⟨unread, bytes⟩).trans fits
    | cons line more =>
      rw [encode_cons] at bytes
      exact (Delimited.prefix_of_free free rfl bytes).length_le.trans line.length_sent
  rwa [List.length_append, List.length_singleton, Nat.succ_le_iff] at bound

theorem putByte_inFlight (flight : InFlight l (b :: unread) lines rest) (free : ∀ c ∈ rest, c.2 ≠ newline)
    (fits : rest.length ≤ 4095) :
    ∃ passed more, lines = passed ++ more ∧ (l.putByte Prod.snd b).2 = passed.map (·.sent) ∧
      InFlight (l.putByte Prod.snd b).1 unread more rest := by
  by_cases ends : b.2 = newline
  · obtain ⟨line, more, rfl, whole, flight⟩ := flight.cut ends free
    rw [l.putByte_newline ends, if_neg (whole ▸ sent_ne_nil line), whole]
    exact ⟨[line], more, rfl, rfl, flight⟩
  · obtain ⟨grown, silent⟩ := l.putByte_room ends (flight.room ends fits).ne
    refine ⟨[], lines, rfl, silent, ?_, ?_⟩
    · rw [grown, List.append_assoc, List.singleton_append, flight.bytes]
    · rw [grown]
      exact List.forall_mem_append.mpr ⟨flight.free, List.forall_mem_singleton.mpr ends⟩

/-- What the receiver reads passes on the first lines on their way, each as a whole. -/
theorem feed_inFlight {bytes : List Sent} (flight : InFlight l (bytes ++ unread) lines rest)
    (free : ∀ c ∈ rest, c.2 ≠ newline) (fits : rest.length ≤ 4095) :
    ∃ passed more, lines = passed ++ more ∧ (l.feed Prod.snd bytes).2 = passed.map (·.sent) ∧
      InFlight (l.feed Prod.snd bytes).1 unread more rest := by
  induction bytes generalizing l lines with
  | nil => exact ⟨[], lines, rfl, rfl, flight⟩
  | cons b bytes ih =>
    obtain ⟨first, later, rfl, lead, flight⟩ := putByte_inFlight flight free fits
    obtain ⟨second, more, rfl, follow, flight⟩ := ih flight
    refine ⟨first ++ second, more, List.append_assoc .. |>.symm, ?_, flight⟩
    simp only [LineBuffer.feed, lead, follow, List.map_append]

end Lines

/-- The written lines have been passed on or are on their way, and nothing else is. -/
structure Intact (s : NamedPipe) (passed coming : List SessionLine) : Prop where
  messages : s.recv.messages = passed.map (·.sent)
  flight : InFlight s.recv.line s.unread coming (unfinished s)
  written : s.written = passed ++ coming

variable {s next : NamedPipe} {passed coming : List SessionLine}

private theorem unfinished_plain (s : NamedPipe) : ∀ b ∈ unfinished s, b.2 ≠ newline := by
  rw [unfinished]
  cases s.writer with
  | none => exact nofun
  | some w => exact fun b member => (w.plain_sent b member).1

private theorem length_unfinished (s : NamedPipe) : (unfinished s).length ≤ 4095 := by
  rw [unfinished]
  cases s.writer with
  | none => exact Nat.zero_le _
  | some w => exact w.length_sent

private theorem lineString_sent (line : SessionLine) : lineString Prod.snd line.sent = line.sent :=
  List.takeWhile_eq_self_iff.mpr fun b member => decide_eq_true (line.plain_sent b member).2

/-- What the receiver reads comes first. -/
theorem intact_receive (intact : Intact s passed coming) {event : ThrRecv.Event Sent} {recv : ThrRecv Sent}
    (offered : s.Offers event) (stepped : s.recv.step Prod.snd event = some recv) :
    ∃ first more, coming = first ++ more ∧
      Intact { s with recv, unread := s.unread.drop event.bytes.length } (passed ++ first) more := by
  obtain ⟨messages, flight, written⟩ := intact
  obtain ⟨line, pushed⟩ := (ThrRecv.step_moves stepped).feeds
  rw [← List.prefix_iff_eq_append.mp (bytes_of_offers offered)] at flight
  obtain ⟨first, more, rfl, lines, flight⟩ := feed_inFlight flight (unfinished_plain s) (length_unfinished s)
  refine ⟨first, more, rfl, ?_, line ▸ flight, by rw [written, List.append_assoc]⟩
  rw [pushed, lines, messages, List.map_append, List.map_map]
  exact congrArg _ (List.map_congr_left fun line _ => lineString_sent line)

theorem intact_move (intact : Intact s passed coming) {event : Event} (moves : Moves s event next) :
    ∃ passed coming, Intact next passed coming := by
  have arrived := intact.written
  obtain ⟨bytes, free⟩ := intact.flight
  cases moves with
  | opened vacant =>
    rw [unfinished, vacant] at bytes
    exact ⟨passed, coming, intact.messages, ⟨bytes, free⟩, arrived⟩
  | @ended w writing something =>
    rw [unfinished, writing, Option.elim_some] at bytes
    refine ⟨passed, coming ++ [⟨w, something⟩], intact.messages, ⟨?_, free⟩, by rw [arrived, List.append_assoc]⟩
    rw [← List.append_assoc, bytes, List.flatMap_append, List.flatMap_singleton, SessionLine.encode, List.append_assoc]
    exact (List.append_nil _).symm
  | wrote writing room plain =>
    rw [unfinished, writing, Option.elim_some] at bytes
    refine ⟨passed, coming, intact.messages, ⟨?_, free⟩, arrived⟩
    rw [← List.append_assoc, bytes, List.append_assoc]
    exact congrArg _ (Writer.sent_put room plain).symm
  | closed writing finished =>
    rw [unfinished, writing, Option.elim_some, Writer.sent, finished] at bytes
    exact ⟨passed, coming, intact.messages, ⟨bytes, free⟩, arrived⟩
  | received offered stepped =>
    obtain ⟨first, more, -, intact⟩ := intact_receive intact offered stepped
    exact ⟨_, _, intact⟩

theorem intact_discard (intact : Intact s passed coming) (nothing : s.unread = []) :
    Intact s.discard passed coming := by
  obtain ⟨messages, flight, written⟩ := intact
  rw [nothing] at flight
  exact ⟨messages, flight, written⟩

/-- Between two sessions, what is unread ends a line. -/
theorem newline_unread (intact : Intact s passed coming) (between : unfinished s = []) (something : s.unread ≠ []) :
    ∃ b ∈ s.unread, b.2 = newline := by
  obtain ⟨bytes, free⟩ := intact.flight
  rw [between, List.append_nil] at bytes
  cases coming with
  | nil => exact absurd (List.append_eq_nil_iff.mp bytes).2 something
  | cons line more =>
    have member : (line.session, newline) ∈ s.recv.line.bytes ++ s.unread := by
      simp [bytes, SessionLine.encode]
    rcases List.mem_append.mp member with held | unread
    · exact absurd rfl (free _ held)
    · exact ⟨_, unread, rfl⟩

/-- A call that closes the second end leaves no session, and what was unread before it. -/
theorem closesSecond_move {event : Event} (closes : s.ClosesSecond event) (moves : Moves s event next) :
    unfinished next = [] ∧ next.unread = s.unread := by
  cases moves with
  | opened | ended | wrote => exact closes.elim
  | closed => exact ⟨rfl, rfl⟩
  | @received event =>
    cases event with
    | close => exact ⟨congrArg (·.elim [] Writer.sent) closes, rfl⟩
    | _ => exact closes.elim

/-- Either the pipe has kept everything, or it has lost a line. -/
def Followed (s : NamedPipe) : Prop :=
  (s.discarded = [] ∧ ∃ passed coming, Intact s passed coming) ∨ ∃ b ∈ s.discarded, b.2 = newline

theorem Intact.separate (intact : Intact s passed coming) (kept : s.discarded = []) : Separate s := by
  refine ⟨fun message member => ?_, kept ▸ nofun⟩
  rw [intact.messages] at member
  obtain ⟨line, -, rfl⟩ := List.mem_map.mp member
  exact ⟨line.session, line.session_sent⟩

/-- What a step does to a pipe that has kept everything. -/
theorem kept_step {event : Event} (kept : s.discarded = []) (intact : Intact s passed coming)
    (stepped : s.step event = some next) :
    (Drained s event → next.discarded = [] ∧ ∃ passed coming, Intact next passed coming) ∧
      (¬Drained s event → ∃ b ∈ next.discarded, b.2 = newline) := by
  obtain ⟨middle, moved, rfl⟩ := Option.map_eq_some_iff.mp stepped
  have moves := move_moves moved
  obtain ⟨passed, coming, intact⟩ := intact_move intact moves
  have clean : middle.discarded = [] := moves.discarded.trans kept
  split
  · next closes =>
    obtain ⟨between, same⟩ := closesSecond_move closes moves
    refine ⟨fun drained => ?_, fun left => ?_⟩
    · have nothing : middle.unread = [] := same.trans (drained closes)
      refine ⟨?_, passed, coming, intact_discard intact nothing⟩
      exact List.append_eq_nil_iff.mpr ⟨clean, nothing⟩
    · have something : middle.unread ≠ [] := fun nothing => left fun _ => same.symm.trans nothing
      obtain ⟨b, member, ends⟩ := newline_unread intact between something
      exact ⟨b, List.mem_append_right _ member, ends⟩
  · next keeps =>
    exact ⟨fun _ => ⟨clean, passed, coming, intact⟩, fun left => absurd (fun closes => absurd closes keeps) left⟩

theorem discarded_step {event : Event} (stepped : s.step event = some next) : s.discarded ⊆ next.discarded := by
  obtain ⟨middle, moved, rfl⟩ := Option.map_eq_some_iff.mp stepped
  rw [← (move_moves moved).discarded]
  split
  · exact List.subset_append_left _ _
  · exact List.Subset.refl _

theorem followed_step {event : Event} (followed : Followed s) (stepped : s.step event = some next) : Followed next := by
  rcases followed with ⟨kept, passed, coming, intact⟩ | ⟨b, lost, ends⟩
  · by_cases drained : Drained s event
    · exact .inl ((kept_step kept intact stepped).1 drained)
    · exact .inr ((kept_step kept intact stepped).2 drained)
  · exact .inr ⟨b, discarded_step stepped lost, ends⟩

/-- One step keeps the sessions apart and their lines in the pipe exactly if it closes no second end of a
pipe with unread bytes. -/
theorem separate_step {event : Event} (followed : Followed s) (stepped : s.step event = some next) :
    Separate next ↔ Separate s ∧ Drained s event := by
  rcases followed with ⟨kept, passed, coming, intact⟩ | ⟨b, lost, ends⟩
  · obtain ⟨whole, losing⟩ := kept_step kept intact stepped
    rw [and_iff_right (intact.separate kept)]
    refine ⟨fun separate => ?_, fun drained => ?_⟩
    · by_contra left
      obtain ⟨b, lost, ends⟩ := losing left
      exact separate.2 b lost ends
    · obtain ⟨kept, passed, coming, intact⟩ := whole drained
      exact intact.separate kept
  · exact iff_of_false (fun separate => separate.2 b (discarded_step stepped lost) ends)
      fun separate => separate.1.2 b lost ends

private theorem intact_start : Intact NamedPipe.start [] [] := ⟨rfl, ⟨rfl, nofun⟩, rfl⟩

/-- For every sequence of sessions and every order in which `epoll` reports, `read()` returns and the ends of
the pipe are opened and closed: all messages are of one session each and no line has been discarded, exactly
if the pipe has been empty whenever its second end was closed. -/
theorem sessions_separate_iff {events : List Event} {t : NamedPipe}
    (ran : NamedPipe.machine.run .start events = some t) :
    Separate t ↔ NamedPipe.machine.Along Drained .start events := by
  have initial : Followed NamedPipe.start := .inl ⟨rfl, [], [], intact_start⟩
  rw [EventMachine.holds_iff_along Followed Separate (fun _ _ _ followed stepped => followed_step followed stepped)
    (fun _ _ _ followed stepped => separate_step followed stepped) initial ran]
  exact and_iff_right (intact_start.separate rfl)

/-- The receiver before its first wait. -/
def setUp : List Event := [.recv (.openFifo (some 3)), .recv (.epollCreate (some 4)), .recv .epollCtl]

/-- A session writes `a` and closes, another writes `b` and stays, and the receiver reads both, cut in a line. -/
def twoSessions : List Event := setUp ++
  [.openWriter, .write 97, .write newline, .closeWriter, .openWriter, .write 98, .write newline,
    .recv (.report false false), .recv (.read (.data [(0, 97), (0, newline), (1, 98)])),
    .recv (.report false false), .recv (.read (.data [(1, newline)]))]

theorem sessions_separate_iff_read : ∃ t, NamedPipe.machine.run .start twoSessions = some t ∧
    t.recv.messages = [[(0, 97)], [(1, 98)]] ∧ Separate t := by
  have evaluated : (NamedPipe.machine.run .start twoSessions).map (·.recv.messages) =
      some [[(0, 97)], [(1, 98)]] := by decide +kernel
  obtain ⟨t, ran, messages⟩ := Option.map_eq_some_iff.mp evaluated
  exact ⟨t, ran, messages, (sessions_separate_iff ran).mpr (by decide +kernel)⟩

/-- A session writes `a` and closes; `epoll` reports the hang-up, with or without `EPOLLIN`, and the receiver closes
the pipe and opens it again. -/
def hangUpFirst : List Event := setUp ++
  [.openWriter, .write 97, .write newline, .closeWriter,
    .recv (.report true false), .recv .close, .recv (.openFifo (some 3)), .recv .epollCtl]

theorem unread_line_discarded : ∃ t, NamedPipe.machine.run .start hangUpFirst = some t ∧
    t.recv.messages = [] ∧ t.unread = [] ∧ t.discarded = [(0, 97), (0, newline)] ∧ ¬Separate t := by
  have evaluated : (NamedPipe.machine.run .start hangUpFirst).map (fun t => (t.recv.messages, t.unread, t.discarded)) =
      some ([], [], [(0, 97), (0, newline)]) := by decide +kernel
  obtain ⟨t, ran, outcome⟩ := Option.map_eq_some_iff.mp evaluated
  obtain ⟨messages, unread, discarded⟩ : _ = _ ∧ _ = _ ∧ _ = _ := by simpa only [Prod.mk.injEq] using outcome
  refine ⟨t, ran, messages, unread, discarded, fun separate => ?_⟩
  exact separate.2 (0, newline) (by simp [discarded]) rfl

/-- Along such a run the written lines, in their order, are the messages and the lines on their way. -/
theorem written_received {events : List Event} {t : NamedPipe}
    (drained : NamedPipe.machine.Along Drained .start events) (ran : NamedPipe.machine.run .start events = some t) :
    ∃ coming : List SessionLine, t.written.map (·.sent) = t.recv.messages ++ coming.map (·.sent) := by
  obtain ⟨-, passed, coming, intact⟩ :=
    EventMachine.invariant_along (fun s => s.discarded = [] ∧ ∃ passed coming, Intact s passed coming)
      (fun _ _ _ ⟨kept, _, _, intact⟩ drained stepped => (kept_step kept intact stepped).1 drained)
      ⟨rfl, [], [], intact_start⟩ drained ran
  exact ⟨coming, by rw [intact.written, intact.messages, List.map_append]⟩

end ProcessMonitor.Soundness.PipeSessions
