import ProcessMonitor.Model.Vts.ThreadsRecv

/-! # Writer sessions on the named pipe

One writer after the other opens the pipe, writes lines and closes it, while `thr_recv` reads. Every byte carries the
session that has written it. The kernel keeps what is unread as long as one end is open; when
the second end closes too, the bytes are gone. A writer can open the pipe and write only while the receiver
has it open, and the receiver is at the end of the file only when the pipe is empty and has no writer. Which
events `epoll` reports, and when, is left open.
-/

namespace ProcessMonitor.Model.Vts

open Machine Machine.Posix

/-- A byte and the session that has written it. -/
abbrev Sent := ℕ × UInt8

/-- A session, and what it has written of its line. -/
structure Writer where
  session : ℕ
  text : List UInt8
  fits : text.length ≤ 4095
  plain : ∀ b ∈ text, b ≠ newline ∧ b ≠ 0
deriving DecidableEq, Repr

namespace Writer

theorem nil_fits : ([] : List UInt8).length ≤ 4095 := Nat.zero_le _

theorem nil_plain : ∀ b ∈ ([] : List UInt8), b ≠ newline ∧ b ≠ 0 := fun _ member => absurd member List.not_mem_nil

def fresh (session : ℕ) : Writer := ⟨session, [], nil_fits, nil_plain⟩

def put (w : Writer) (b : UInt8) (room : w.text.length < 4095) (plain : b ≠ newline ∧ b ≠ 0) : Writer where
  session := w.session
  text := w.text ++ [b]
  fits := by rw [List.length_append, List.length_singleton]; exact room
  plain := List.forall_mem_append.mpr ⟨w.plain, List.forall_mem_singleton.mpr plain⟩

def sent (w : Writer) : List Sent := w.text.map (w.session, ·)

theorem sent_put {w : Writer} {b : UInt8} (room : w.text.length < 4095) (plain : b ≠ newline ∧ b ≠ 0) :
    (w.put b room plain).sent = w.sent ++ [(w.session, b)] := List.map_append

theorem length_sent (w : Writer) : w.sent.length ≤ 4095 := by rw [sent, List.length_map]; exact w.fits

theorem plain_sent (w : Writer) : ∀ b ∈ w.sent, b.2 ≠ newline ∧ b.2 ≠ 0 := List.forall_mem_map.mpr w.plain

theorem session_sent (w : Writer) : ∀ b ∈ w.sent, b.1 = w.session := List.forall_mem_map.mpr fun _ _ => rfl

end Writer

/-- A line that its session has completed, without the newline. -/
structure SessionLine extends Writer where
  something : text ≠ []
deriving DecidableEq, Repr

/-- The line in the pipe. -/
def SessionLine.encode (line : SessionLine) : List Sent := line.sent ++ [(line.session, newline)]

/-- For the record, `written` has the completed lines, and `discarded` the bytes that were in the pipe when its
second end was closed. -/
structure NamedPipe where
  recv : ThrRecv Sent
  unread : List Sent
  writer : Option Writer
  sessions : ℕ
  written : List SessionLine
  discarded : List Sent

namespace NamedPipe

def start : NamedPipe := ⟨.start, [], none, 0, [], []⟩

inductive Event
  | openWriter
  | write (b : UInt8)
  | closeWriter
  | recv (event : ThrRecv.Event Sent)
deriving DecidableEq, Repr

/-- The receiver has the pipe open. -/
def ReaderOpen (s : NamedPipe) : Prop := s.recv.fd ∈ s.recv.kernel.opened

instance (s : NamedPipe) : Decidable s.ReaderOpen := inferInstanceAs (Decidable (_ ∈ _))

/-- The next byte of a session: its lines have 1 to 4095 bytes, and no NUL. -/
def write (s : NamedPipe) (w : Writer) (b : UInt8) : Option NamedPipe :=
  if ends : b = newline then
    if something : w.text ≠ [] then
      some { s with
        writer := some (.fresh w.session)
        unread := s.unread ++ [(w.session, b)]
        written := s.written ++ [⟨w, something⟩] }
    else none
  else if room : w.text.length < 4095 ∧ b ≠ 0 then
    some { s with writer := some (w.put b room.1 ⟨ends, room.2⟩), unread := s.unread ++ [(w.session, b)] }
  else none

/-- What `read()` can return from the pipe as it is. -/
def Offers (s : NamedPipe) : ThrRecv.Event Sent → Prop
  | .read (.data bytes) => s.ReaderOpen ∧ bytes <+: s.unread
  | .read .eof => s.ReaderOpen ∧ s.unread = [] ∧ s.writer = none
  | _ => True

instance (s : NamedPipe) (event : ThrRecv.Event Sent) : Decidable (s.Offers event) := by
  unfold Offers
  split <;> infer_instance

theorem bytes_of_offers {s : NamedPipe} {event : ThrRecv.Event Sent} (offered : s.Offers event) :
    event.bytes <+: s.unread := by
  rw [ThrRecv.Event.bytes.eq_def]
  split
  · exact offered.2
  · exact List.nil_prefix

/-- A call of a writer or of the receiver, while the pipe keeps its bytes. -/
def move (s : NamedPipe) : Event → Option NamedPipe
  | .openWriter =>
    if s.ReaderOpen ∧ s.writer = none then
      some { s with writer := some (.fresh s.sessions), sessions := s.sessions + 1 }
    else none
  | .write b => if s.ReaderOpen then s.writer.bind fun w => s.write w b else none
  | .closeWriter => s.writer.bind fun w => if w.text = [] then some { s with writer := none } else none
  | .recv event =>
    if s.Offers event then
      (s.recv.step Prod.snd event).map fun recv => { s with recv, unread := s.unread.drop event.bytes.length }
    else none

/-- The calls, by what they find. -/
inductive Moves (s : NamedPipe) : Event → NamedPipe → Prop
  | opened (free : s.writer = none) :
      Moves s .openWriter { s with writer := some (.fresh s.sessions), sessions := s.sessions + 1 }
  | ended {w : Writer} (writing : s.writer = some w) (something : w.text ≠ []) :
      Moves s (.write newline)
        { s with
          writer := some (.fresh w.session)
          unread := s.unread ++ [(w.session, newline)]
          written := s.written ++ [⟨w, something⟩] }
  | wrote {w : Writer} {b : UInt8} (writing : s.writer = some w) (room : w.text.length < 4095)
      (plain : b ≠ newline ∧ b ≠ 0) :
      Moves s (.write b) { s with writer := some (w.put b room plain), unread := s.unread ++ [(w.session, b)] }
  | closed {w : Writer} (writing : s.writer = some w) (finished : w.text = []) :
      Moves s .closeWriter { s with writer := none }
  | received {event : ThrRecv.Event Sent} {recv : ThrRecv Sent} (offered : s.Offers event)
      (stepped : s.recv.step Prod.snd event = some recv) :
      Moves s (.recv event) { s with recv, unread := s.unread.drop event.bytes.length }

theorem move_moves {s next : NamedPipe} {event : Event} (moved : s.move event = some next) : Moves s event next := by
  cases event with
  | openWriter =>
    obtain ⟨⟨-, free⟩, same⟩ := Option.ite_none_right_eq_some.mp moved
    cases same
    exact .opened free
  | write b =>
    obtain ⟨-, wrote⟩ := Option.ite_none_right_eq_some.mp moved
    obtain ⟨w, writing, wrote⟩ := Option.bind_eq_some_iff.mp wrote
    rw [write] at wrote
    split at wrote
    · next ends =>
      subst ends
      obtain ⟨something, same⟩ := Option.dite_none_right_eq_some.mp wrote
      cases same
      exact .ended writing something
    · next inside =>
      obtain ⟨room, same⟩ := Option.dite_none_right_eq_some.mp wrote
      cases same
      exact .wrote writing room.1 ⟨inside, room.2⟩
  | closeWriter =>
    obtain ⟨w, writing, closed⟩ := Option.bind_eq_some_iff.mp moved
    obtain ⟨finished, same⟩ := Option.ite_none_right_eq_some.mp closed
    cases same
    exact .closed writing finished
  | recv event =>
    obtain ⟨offered, moved⟩ := Option.ite_none_right_eq_some.mp moved
    obtain ⟨recv, stepped, rfl⟩ := Option.map_eq_some_iff.mp moved
    exact .received offered stepped

theorem Moves.discarded {s next : NamedPipe} {event : Event} (moves : Moves s event next) :
    next.discarded = s.discarded := by
  cases moves <;> rfl

/-- The call closes the second end of the pipe. Once the receiver has ended, nobody opens it again,
and it is not followed any further. -/
def ClosesSecond (s : NamedPipe) : Event → Prop
  | .closeWriter => ¬s.ReaderOpen ∧ s.recv.pc ≠ .ended
  | .recv .close => s.writer = none
  | _ => False

instance (s : NamedPipe) (event : Event) : Decidable (s.ClosesSecond event) := by
  unfold ClosesSecond
  split <;> infer_instance

def discard (s : NamedPipe) : NamedPipe := { s with unread := [], discarded := s.discarded ++ s.unread }

def step (s : NamedPipe) (event : Event) : Option NamedPipe :=
  (s.move event).map fun next => if s.ClosesSecond event then next.discard else next

def machine : EventMachine NamedPipe Event := ⟨step⟩

end NamedPipe

end ProcessMonitor.Model.Vts
