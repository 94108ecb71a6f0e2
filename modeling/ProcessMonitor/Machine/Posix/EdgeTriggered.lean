import ProcessMonitor.Machine.Posix.Socket

/-! # A stream socket watched edge-triggered

With `EPOLLET` the kernel puts a socket on the ready list when something happens to it, not as long as there
is something to read. What has been reported and not read to `EAGAIN` is not reported again by itself. A
reader therefore has to keep one rule, `Attended`: whatever can be read is still to be reported, or is in
the hands of the reader. Every action of the peer keeps it, and a reader may let go of a stream exactly
where `read()` said `EAGAIN`.
-/

namespace ProcessMonitor.Machine.Posix

/-- The bytes already read, those in the receive buffer, whether the peer will send no more, and whether the
socket is on the ready list. -/
structure Stream where
  consumed : Bytes
  unread : Bytes
  ended : Bool
  edge : Bool
deriving DecidableEq, Repr

namespace Stream

def fresh : Stream := ⟨[], [], false, false⟩

/-- All that the peer has sent. -/
def sent (s : Stream) : Bytes := s.consumed ++ s.unread

/-- A `read()` would return something other than `EAGAIN`. -/
def Pending (s : Stream) : Prop := s.unread ≠ [] ∨ s.ended = true

instance (s : Stream) : Decidable s.Pending := inferInstanceAs (Decidable (_ ∨ _))

def arrive (s : Stream) (bytes : Bytes) : Stream := { s with unread := s.unread ++ bytes, edge := true }

/-- The peer shuts its side down, or resets the connection. -/
def finish (s : Stream) : Stream := { s with ended := true, edge := true }

/-- `EPOLL_CTL_ADD`, which looks at the socket once. -/
def register (s : Stream) : Stream := { s with edge := decide s.Pending }

/-- `epoll_wait` takes the socket off the ready list. -/
def report (s : Stream) : Stream := { s with edge := false }

/-- A `read()` that does not fail: bytes if there are any, and otherwise end of file or `EAGAIN`. -/
def read (s : Stream) (more count : ℕ) : ReadResult :=
  match Posix.read (.ready more) s.unread count with
  | .again => if s.ended then .eof else .again
  | result => result

def consume (s : Stream) (n : ℕ) : Stream :=
  { s with consumed := s.consumed ++ s.unread.take n, unread := s.unread.drop n }

theorem sent_consume (s : Stream) (n : ℕ) : (s.consume n).sent = s.sent := by
  simp only [sent, consume, List.append_assoc, List.take_append_drop]

theorem sent_arrive (s : Stream) (bytes : Bytes) : (s.arrive bytes).sent = s.sent ++ bytes :=
  (List.append_assoc ..).symm

section Read

variable {s : Stream} {more count : ℕ}

theorem read_data {data : Bytes} (result : s.read more count = .data data) :
    0 < data.length ∧ data.length ≤ count ∧ s.unread = data ++ s.unread.drop data.length := by
  rw [read] at result
  split at result
  · split at result <;> cases result
  · exact Posix.read_data result

/-- Nothing but an empty buffer makes a ready kernel hand out no bytes. -/
theorem unread_of_no_data (more : ℕ) (wanted : 0 < count) (nothing : ∀ data, s.read more count ≠ .data data) :
    s.unread = [] := by
  by_contra left
  obtain ⟨data, result⟩ := read_ready more left wanted
  apply nothing data
  rw [read, result]

theorem read_nil (wanted : 0 < count) (empty : s.unread = []) :
    s.read more count = if s.ended then .eof else .again := by
  simp only [read, empty, Posix.read, if_neg (Nat.pos_iff_ne_zero.mp wanted), List.take_nil]

theorem read_eof (wanted : 0 < count) (result : s.read more count = .eof) : s.unread = [] ∧ s.ended = true := by
  have empty : s.unread = [] := unread_of_no_data more wanted (by simp [result])
  rw [read_nil wanted empty] at result
  cases ended : s.ended with
  | true => exact ⟨empty, rfl⟩
  | false => simp [ended] at result

/-- `EAGAIN` says that nothing is left to do. -/
theorem read_again (wanted : 0 < count) (result : s.read more count = .again) : ¬ s.Pending := by
  have empty : s.unread = [] := unread_of_no_data more wanted (by simp [result])
  rw [read_nil wanted empty] at result
  rintro (left | ended)
  · exact left empty
  · simp [ended] at result

end Read

/-- What can be read will be reported, or is in hand. -/
def Attended (s : Stream) (inHand : Prop) : Prop := s.Pending → s.edge = true ∨ inHand

namespace Attended

variable {s : Stream} {inHand other : Prop}

theorem arrive (s : Stream) (bytes : Bytes) (inHand : Prop) : (s.arrive bytes).Attended inHand := fun _ => .inl rfl

theorem finish (s : Stream) (inHand : Prop) : s.finish.Attended inHand := fun _ => .inl rfl

theorem register (s : Stream) (inHand : Prop) : s.register.Attended inHand := by
  intro pending
  exact .inl (decide_eq_true pending)

theorem of_hand (taken : inHand) : s.Attended inHand := fun _ => .inr taken

theorem of_drained (drained : ¬ s.Pending) : s.Attended inHand := fun pending => absurd pending drained

theorem mono (attended : s.Attended inHand) (kept : inHand → other) : s.Attended other := by
  intro pending
  exact (attended pending).imp_right kept

end Attended

end Stream

end ProcessMonitor.Machine.Posix
