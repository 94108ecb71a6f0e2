import ProcessMonitor.Model.Vts.ThreadsRecv

/-! # The receiver listens until its first reopening

`thr_recv` registers the pipe with `epoll` once, before its loop, and closing the pipe takes the registration
away. One of the three reopening branches then changes the registration of the new descriptor,
which has none; the other two leave `epoll` alone. From then on the thread waits on an empty set.
-/

namespace ProcessMonitor.Soundness.PipeListening

open Machine Machine.Posix Model.Vts Model.Vts.ThrRecv

variable {α : Type*} {byte : α → UInt8} {s next : ThrRecv α} {event : Event α}

/-- Neither a hang-up nor an error is reported, and `read()` neither ends nor fails for good. -/
def Steady : Event α → Prop
  | .report hup err => hup = false ∧ err = false
  | .read .eof => False
  | .read .fault => False
  | _ => True

/-- What `epoll` watches at each place of the thread. -/
def Watched (s : ThrRecv α) : Prop :=
  match s.pc with
  | .start => s.reopens = 0 ∧ s.kernel.interest = []
  | .create | .add => s.reopens = 0 ∧ s.fd ∈ s.kernel.opened ∧ s.kernel.interest = []
  | .wait | .read =>
    if s.reopens = 0 then s.fd ∈ s.kernel.opened ∧ s.kernel.interest = [s.fd] else s.kernel.interest = []
  | .close _ => s.reopens ≠ 0 ∧ ∀ fd ∈ s.kernel.interest, fd = s.fd
  | .reopen _ | .modify => s.reopens ≠ 0 ∧ s.kernel.interest = []
  | .ended => s.reopens = 0

private theorem watched_reopen (looping : s.pc = .wait ∨ s.pc = .read) (watched : Watched s) (hup : Bool) :
    Watched (s.reopen hup) := by
  refine ⟨Nat.succ_ne_zero _, fun fd member => ?_⟩
  have either : s.kernel.interest = [s.fd] ∨ s.kernel.interest = [] := by
    rcases looping with here | here <;>
    · simp only [Watched, here] at watched
      split at watched
      · exact .inl watched.2
      · exact .inr watched
  rcases either with only | nothing
  · exact List.mem_singleton.mp (only ▸ member)
  · exact absurd (nothing ▸ member) List.not_mem_nil

/-- At the head of the loop after a reopening. -/
private theorem watched_wait (reopened : s.reopens ≠ 0) (nothing : s.kernel.interest = []) (here : s.pc = .wait) :
    Watched s := by
  simp only [Watched, here, if_neg reopened, nothing]

theorem watched_step (watched : Watched s) (moves : Moves byte s event next) : Watched next := by
  cases moves with
  | opened here free =>
    simp only [Watched, here] at watched
    obtain ⟨-, now, same⟩ := EpollSet.openFd_some free
    exact ⟨watched.1, now ▸ List.mem_cons_self, same.trans watched.2⟩
  | unopened here | uncreated here =>
    simp only [Watched, here] at watched
    exact watched.1
  | created here free =>
    simp only [Watched, here] at watched
    obtain ⟨-, now, same⟩ := EpollSet.openFd_some free
    exact ⟨watched.1, now ▸ List.mem_cons_of_mem _ watched.2.1, same.trans watched.2.2⟩
  | added here =>
    simp only [Watched, here] at watched
    obtain ⟨opened, interest⟩ := EpollSet.ctlAdd_interest watched.2.1 watched.2.2
    simp only [Watched, if_pos watched.1, opened, interest]
    exact ⟨watched.2.1, trivial⟩
  | idle => exact watched
  | readable here | fed here | again here =>
    simp only [Watched, here] at watched ⊢
    exact watched
  | hungUp here => exact watched_reopen (.inl here) watched true
  | finished here => exact watched_reopen (.inr here) watched false
  | closed here =>
    simp only [Watched, here] at watched
    exact ⟨watched.1, EpollSet.closeFd_interest watched.2⟩
  | @reopened hup _ _ here free =>
    simp only [Watched, here] at watched
    have nothing := (EpollSet.openFd_some free).2.2.trans watched.2
    cases hup with
    | true => exact ⟨watched.1, nothing⟩
    | false => exact watched_wait watched.1 nothing rfl
  | unreopened here | modified here =>
    simp only [Watched, here] at watched
    exact watched_wait watched.1 watched.2 rfl

/-- The thread takes a reopening branch exactly at an event that is not steady. -/
theorem reopens_step (moves : Moves byte s event next) : next.reopens = 0 ↔ s.reopens = 0 ∧ Steady event := by
  cases moves with
  | hungUp _ flagged =>
    refine ⟨fun zero => absurd zero (Nat.succ_ne_zero _), fun ⟨_, clear⟩ => ?_⟩
    simp [clear.1, clear.2] at flagged
  | finished _ lasting =>
    refine ⟨fun zero => absurd zero (Nat.succ_ne_zero _), fun ⟨_, clear⟩ => ?_⟩
    rcases lasting with rfl | rfl <;> exact clear.elim
  | again _ passing => rcases passing with rfl | rfl <;> exact (and_iff_left trivial).symm
  | readable => exact (and_iff_left ⟨rfl, rfl⟩).symm
  | _ => exact (and_iff_left trivial).symm

/-- At `epoll_wait` the thread listens exactly if it has never reopened the pipe. -/
theorem listening_of_watched (watched : Watched s) (waiting : s.pc = .wait) :
    s.fd ∈ s.kernel.opened ∧ s.fd ∈ s.kernel.interest ↔ s.reopens = 0 := by
  simp only [Watched, waiting] at watched
  split at watched
  · next never =>
    rw [watched.2]
    exact iff_of_true ⟨watched.1, List.mem_singleton_self _⟩ never
  · next reopened =>
    rw [watched]
    exact iff_of_false (fun listening => absurd listening.2 List.not_mem_nil) reopened

/-- Whatever the writers, `epoll` and `read()` do: at every `epoll_wait` the descriptor at hand is open and
registered for `EPOLLIN` exactly if no event so far has sent the thread to reopen the pipe. A thread whose
last attempt to reopen it has failed is among those that do not listen. -/
theorem listening_iff {events : List (Event UInt8)} {t : ThrRecv UInt8}
    (ran : (machine id).run start events = some t) (waiting : t.pc = .wait) :
    t.fd ∈ t.kernel.opened ∧ t.fd ∈ t.kernel.interest ↔ ∀ event ∈ events, Steady event := by
  have initial : Watched (start : ThrRecv UInt8) := ⟨rfl, rfl⟩
  have watched : Watched t :=
    EventMachine.invariant Watched (fun _ _ _ watched stepped => watched_step watched (step_moves stepped)) initial ran
  have never : t.reopens = 0 ↔
      (start : ThrRecv UInt8).reopens = 0 ∧ (machine id).Along (fun _ => Steady) start events :=
    EventMachine.holds_iff_along (fun _ => True) (·.reopens = 0) (fun _ _ _ _ _ => trivial)
      (fun _ _ _ _ stepped => reopens_step (step_moves stepped)) trivial ran
  rw [listening_of_watched watched waiting, never, EventMachine.along_iff_forall ran]
  exact and_iff_right rfl

/-- A first writer that writes `a` and a newline. -/
theorem listening_iff_reading : ∃ t : ThrRecv UInt8,
    (machine id).run start [.openFifo (some 3), .epollCreate (some 4), .epollCtl, .report false false,
      .read (.data [97, 10])] = some t ∧ t.fd ∈ t.kernel.opened ∧ t.fd ∈ t.kernel.interest := by
  have evaluated : ((machine id).run start [.openFifo (some 3), .epollCreate (some 4), .epollCtl,
      .report false false, .read (.data [97, 10])]).map (·.pc) = some .wait := by decide +kernel
  obtain ⟨t, ran, waiting⟩ := Option.map_eq_some_iff.mp evaluated
  exact ⟨t, ran, (listening_iff ran waiting).mpr (by simp [Steady])⟩

/-- A writer leaves, `epoll` reports the hang-up, and the pipe is opened again under the same number. -/
theorem reopened_unwatched : ∃ t : ThrRecv UInt8,
    (machine id).run start [.openFifo (some 3), .epollCreate (some 4), .epollCtl, .report true false, .close,
      .openFifo (some 3), .epollCtl] = some t ∧
    t.pc = .wait ∧ t.fd = 3 ∧ t.fd ∈ t.kernel.opened ∧ t.kernel.interest = [] := by
  refine ⟨_, rfl, rfl, rfl, ?_, ?_⟩ <;> decide

end ProcessMonitor.Soundness.PipeListening
