import ProcessMonitor.Machine.Core.Run
import ProcessMonitor.Machine.Posix.Epoll
import ProcessMonitor.Machine.Posix.Word

/-! # The receiver on the named pipe

`thr_recv` waits with `epoll` for the pipe, reads it, and cuts what it reads into lines; when the writers have
gone, it closes the pipe and opens it again. It is modelled from one system call to the next, and what
each of them returns is on the tape. The bytes are of any type that knows its byte, so that a
byte can carry along where it comes from.
-/

namespace ProcessMonitor.Model.Vts

open Machine Machine.Posix

def newline : UInt8 := 10

/-- `line` and `lpos`: the bytes of the line so far. -/
structure LineBuffer (α : Type*) where
  bytes : List α
  fits : bytes.length ≤ 4095

namespace LineBuffer

variable {α : Type*} (byte : α → UInt8)

def empty : LineBuffer α := ⟨[], Nat.zero_le _⟩

/-- The body of the loop over the bytes, and the line it passes to `handle_line`. At a full buffer the byte
at hand only ends the line. -/
def putByte (l : LineBuffer α) (b : α) : LineBuffer α × List (List α) :=
  if more : byte b = newline ∨ l.bytes.length = 4095 then (empty, if l.bytes = [] then [] else [l.bytes])
  else
    (⟨l.bytes ++ [b], by
      have := l.fits
      rw [not_or] at more
      rw [List.length_append, List.length_singleton]
      omega⟩, [])

/-- The loop over the bytes. -/
def feed : LineBuffer α → List α → LineBuffer α × List (List α)
  | l, [] => (l, [])
  | l, b :: bs =>
    let (next, lines) := putByte byte l b
    let (last, more) := feed next bs
    (last, lines ++ more)

variable {byte}

theorem feed_append (l : LineBuffer α) (first second : List α) :
    l.feed byte (first ++ second) =
      (((l.feed byte first).1.feed byte second).1,
        (l.feed byte first).2 ++ ((l.feed byte first).1.feed byte second).2) := by
  induction first generalizing l with
  | nil => rfl
  | cons b bs ih => simp only [List.cons_append, feed, ih, List.append_assoc]

theorem putByte_newline (l : LineBuffer α) {b : α} (ends : byte b = newline) :
    l.putByte byte b = (empty, if l.bytes = [] then [] else [l.bytes]) :=
  dif_pos (.inl ends)

theorem putByte_full (l : LineBuffer α) (b : α) (full : l.bytes.length = 4095) :
    l.putByte byte b = (empty, [l.bytes]) := by
  have nonempty : l.bytes ≠ [] := List.ne_nil_of_length_pos (by omega)
  rw [putByte, dif_pos (.inr full), if_neg nonempty]

theorem putByte_room (l : LineBuffer α) {b : α} (inside : byte b ≠ newline) (room : l.bytes.length ≠ 4095) :
    (l.putByte byte b).1.bytes = l.bytes ++ [b] ∧ (l.putByte byte b).2 = [] := by
  rw [putByte, dif_neg (not_or.mpr ⟨inside, room⟩)]
  exact ⟨rfl, rfl⟩

theorem putByte_forall {p : α → Prop} {l : LineBuffer α} {b : α} (held : ∀ c ∈ l.bytes, p c) (put : p b) :
    (∀ c ∈ (l.putByte byte b).1.bytes, p c) ∧ ∀ line ∈ (l.putByte byte b).2, ∀ c ∈ line, p c := by
  rw [putByte]
  split
  · refine ⟨nofun, ?_⟩
    split
    · exact nofun
    · exact List.forall_mem_singleton.mpr held
  · exact ⟨List.forall_mem_append.mpr ⟨held, List.forall_mem_singleton.mpr put⟩, nofun⟩

/-- The lines are made of the bytes that are read. -/
theorem feed_forall {p : α → Prop} {l : LineBuffer α} {bytes : List α} (held : ∀ c ∈ l.bytes, p c)
    (put : ∀ c ∈ bytes, p c) :
    (∀ c ∈ (l.feed byte bytes).1.bytes, p c) ∧ ∀ line ∈ (l.feed byte bytes).2, ∀ c ∈ line, p c := by
  induction bytes generalizing l with
  | nil => exact ⟨held, nofun⟩
  | cons b bytes ih =>
    obtain ⟨first, others⟩ := List.forall_mem_cons.mp put
    obtain ⟨next, lines⟩ := putByte_forall held first
    obtain ⟨last, more⟩ := ih next others
    exact ⟨last, List.forall_mem_append.mpr ⟨lines, more⟩⟩

end LineBuffer

/-- The string at a pointer to the line. -/
def lineString {α : Type*} (byte : α → UInt8) (line : List α) : List α := line.takeWhile fun b => byte b ≠ 0

/-- Where `thr_recv` is; `hup` tells the branch for `EPOLLHUP` and `EPOLLERR` from the other two. -/
inductive RecvPc
  | start
  | create
  | add
  | wait
  | read
  | close (hup : Bool)
  | reopen (hup : Bool)
  | modify
  | ended
deriving DecidableEq, Repr

/-- What `read()` returns. -/
inductive PipeRead (α : Type*)
  | data (bytes : List α)
  | eof
  | again
  | interrupted
  | fault
deriving DecidableEq, Repr

/-- For the record, `reopens` counts how often the thread has gone to close the pipe and open it again. -/
structure ThrRecv (α : Type*) where
  pc : RecvPc
  fd : ℤ
  ep : ℤ
  kernel : EpollSet
  line : LineBuffer α
  messages : List (List α)
  reopens : ℕ

namespace ThrRecv

variable {α : Type*} (byte : α → UInt8)

def start : ThrRecv α := ⟨.start, -1, -1, .empty, .empty, [], 0⟩

/-- What the next system call returns; `idle` is an `epoll_wait` without an event, `report` one with an event,
`EPOLLIN` alone or with the two flags. -/
inductive Event (α : Type*)
  | openFifo (result : Option ℕ)
  | epollCreate (result : Option ℕ)
  | epollCtl
  | idle
  | report (hup err : Bool)
  | close
  | read (result : PipeRead α)
deriving DecidableEq, Repr

/-- `close(fd); fd = open_fifo_ro(path);` is next. -/
def reopen (s : ThrRecv α) (hup : Bool) : ThrRecv α := { s with pc := .close hup, reopens := s.reopens + 1 }

def readStep (s : ThrRecv α) : PipeRead α → Option (ThrRecv α)
  | .data bytes =>
    if bytes = [] ∨ 65536 < bytes.length then none
    else
      let (line, lines) := s.line.feed byte bytes
      some { s with pc := .wait, line, messages := s.messages ++ lines.map (lineString byte) }
  | .eof => some (s.reopen false)
  | .again => some { s with pc := .wait }
  | .interrupted => some { s with pc := .wait }
  | .fault => some (s.reopen false)

def step (s : ThrRecv α) (event : Event α) : Option (ThrRecv α) :=
  match s.pc, event with
  | .start, .openFifo (some fd) => (s.kernel.openFd fd).map fun kernel => { s with pc := .create, fd, kernel }
  | .start, .openFifo none => some { s with pc := .ended }
  | .create, .epollCreate (some ep) => (s.kernel.openFd ep).map fun kernel => { s with pc := .add, ep, kernel }
  | .create, .epollCreate none => some { s with pc := .ended, kernel := s.kernel.closeFd s.fd }
  | .add, .epollCtl => some { s with pc := .wait, kernel := s.kernel.ctlAdd s.fd }
  | .wait, .idle => some s
  | .wait, .report hup err => some (if hup || err then s.reopen true else { s with pc := .read })
  | .read, .read result => s.readStep byte result
  | .close hup, .close => some { s with pc := .reopen hup, kernel := s.kernel.closeFd s.fd }
  | .reopen hup, .openFifo (some fd) =>
    (s.kernel.openFd fd).map fun kernel => { s with pc := if hup then .modify else .wait, fd, kernel }
  | .reopen _, .openFifo none => some { s with pc := .wait, fd := -1 }
  | .modify, .epollCtl => some { s with pc := .wait, kernel := s.kernel.ctlMod s.fd }
  | _, _ => none

def machine : EventMachine (ThrRecv α) (Event α) := ⟨step byte⟩

variable {byte}

/-- The bytes that a call returns from the pipe. -/
def Event.bytes : Event α → List α
  | .read (.data bytes) => bytes
  | _ => []

def received (events : List (Event α)) : List α := events.flatMap Event.bytes

/-- The steps of the thread, by the outcome of the call. -/
inductive Moves (byte : α → UInt8) (s : ThrRecv α) : Event α → ThrRecv α → Prop
  | opened {fd : ℕ} {kernel : EpollSet} (here : s.pc = .start) (free : s.kernel.openFd fd = some kernel) :
      Moves byte s (.openFifo (some fd)) { s with pc := .create, fd, kernel }
  | unopened (here : s.pc = .start) : Moves byte s (.openFifo none) { s with pc := .ended }
  | created {ep : ℕ} {kernel : EpollSet} (here : s.pc = .create) (free : s.kernel.openFd ep = some kernel) :
      Moves byte s (.epollCreate (some ep)) { s with pc := .add, ep, kernel }
  | uncreated (here : s.pc = .create) :
      Moves byte s (.epollCreate none) { s with pc := .ended, kernel := s.kernel.closeFd s.fd }
  | added (here : s.pc = .add) : Moves byte s .epollCtl { s with pc := .wait, kernel := s.kernel.ctlAdd s.fd }
  | idle (here : s.pc = .wait) : Moves byte s .idle s
  | readable (here : s.pc = .wait) : Moves byte s (.report false false) { s with pc := .read }
  | hungUp {hup err : Bool} (here : s.pc = .wait) (flagged : (hup || err) = true) :
      Moves byte s (.report hup err) (s.reopen true)
  | fed {bytes : List α} (here : s.pc = .read) (nonempty : bytes ≠ []) :
      Moves byte s (.read (.data bytes))
        { s with
          pc := .wait
          line := (s.line.feed byte bytes).1
          messages := s.messages ++ (s.line.feed byte bytes).2.map (lineString byte) }
  | again {result : PipeRead α} (here : s.pc = .read) (passing : result = .again ∨ result = .interrupted) :
      Moves byte s (.read result) { s with pc := .wait }
  | finished {result : PipeRead α} (here : s.pc = .read) (lasting : result = .eof ∨ result = .fault) :
      Moves byte s (.read result) (s.reopen false)
  | closed {hup : Bool} (here : s.pc = .close hup) :
      Moves byte s .close { s with pc := .reopen hup, kernel := s.kernel.closeFd s.fd }
  | reopened {hup : Bool} {fd : ℕ} {kernel : EpollSet} (here : s.pc = .reopen hup)
      (free : s.kernel.openFd fd = some kernel) :
      Moves byte s (.openFifo (some fd)) { s with pc := if hup then .modify else .wait, fd, kernel }
  | unreopened {hup : Bool} (here : s.pc = .reopen hup) :
      Moves byte s (.openFifo none) { s with pc := .wait, fd := -1 }
  | modified (here : s.pc = .modify) : Moves byte s .epollCtl { s with pc := .wait, kernel := s.kernel.ctlMod s.fd }

theorem moves_readStep {s next : ThrRecv α} {result : PipeRead α} (here : s.pc = .read)
    (success : s.readStep byte result = some next) : Moves byte s (.read result) next := by
  cases result with
  | data bytes =>
    simp only [readStep] at success
    split at success
    · cases success
    · next fits =>
      cases success
      exact .fed here fun empty => fits (.inl empty)
  | eof => cases success; exact .finished here (.inl rfl)
  | again => cases success; exact .again here (.inl rfl)
  | interrupted => cases success; exact .again here (.inr rfl)
  | fault => cases success; exact .finished here (.inr rfl)

theorem step_moves {s next : ThrRecv α} {event : Event α} (success : s.step byte event = some next) :
    Moves byte s event next := by
  rw [step.eq_def] at success
  -- one case for each arm of `step`, in its order
  split at success <;> rename_i here
  · obtain ⟨kernel, free, rfl⟩ := Option.map_eq_some_iff.mp success
    exact .opened here free
  · cases success; exact .unopened here
  · obtain ⟨kernel, free, rfl⟩ := Option.map_eq_some_iff.mp success
    exact .created here free
  · cases success; exact .uncreated here
  · cases success; exact .added here
  · cases success; exact .idle here
  · cases success
    split
    · next flagged => exact .hungUp here flagged
    · next clear =>
      obtain ⟨rfl, rfl⟩ := Bool.or_eq_false_iff.mp (Bool.not_eq_true _ ▸ clear)
      exact .readable here
  · exact moves_readStep here success
  · cases success; exact .closed here
  · obtain ⟨kernel, free, rfl⟩ := Option.map_eq_some_iff.mp success
    exact .reopened here free
  · cases success; exact .unreopened here
  · cases success; exact .modified here
  · cases success

/-- What a step does to the line and to the queue: the bytes it has read go through the loop. -/
theorem Moves.feeds {s next : ThrRecv α} {event : Event α} (moves : Moves byte s event next) :
    next.line = (s.line.feed byte event.bytes).1 ∧
      next.messages = s.messages ++ (s.line.feed byte event.bytes).2.map (lineString byte) := by
  cases moves with
  | fed => exact ⟨rfl, rfl⟩
  | again _ passing | finished _ passing =>
    rcases passing with rfl | rfl <;> exact ⟨rfl, (List.append_nil _).symm⟩
  | _ => exact ⟨rfl, (List.append_nil _).symm⟩

theorem run_fed {s t : ThrRecv α} {events : List (Event α)} (ran : (machine byte).run s events = some t) :
    t.line = (s.line.feed byte (received events)).1 ∧
      t.messages = s.messages ++ (s.line.feed byte (received events)).2.map (lineString byte) := by
  induction events generalizing s with
  | nil =>
    cases ran
    exact ⟨rfl, (List.append_nil _).symm⟩
  | cons event events ih =>
    obtain ⟨next, stepped, rest⟩ := Option.bind_eq_some_iff.mp ran
    obtain ⟨line, messages⟩ := (step_moves stepped).feeds
    obtain ⟨lastLine, lastMessages⟩ := ih rest
    have whole : received (event :: events) = event.bytes ++ received events := rfl
    rw [whole, LineBuffer.feed_append, ← line]
    refine ⟨lastLine, ?_⟩
    rw [lastMessages, messages, List.map_append, List.append_assoc]

end ThrRecv

end ProcessMonitor.Model.Vts
