import ProcessMonitor.Machine.Core.Measure
import ProcessMonitor.Soundness.ConnectionInvariant

/-! # What the server loop does with all that is sent to it

From the invariant: the works pushed for a connection are the frames of the bytes read from it, and once the
loop has nothing to report they are the frames of all the bytes that were sent. Connections are freed only
for a cause, and none is left at the end. The loop makes no system call that a byte, a connection, a
datagram, or a report does not pay for, and every run of it is a run of the server without `epoll`.
-/

namespace ProcessMonitor.Soundness.ConnectionService

open Machine Machine.Posix Model.Vts FrameDecoding ConnectionInvariant

section Sent

/-- What an event sends on connection `id`. -/
def bytesOf (id : ℕ) : ServerLoop.Event → Bytes
  | .send other bytes => if other = id then bytes else []
  | _ => []

/-- All that was sent on connection `id`. -/
def sentBy (id : ℕ) (es : List ServerLoop.Event) : Bytes := es.flatMap (bytesOf id)

/-- What the kernel has taken from connection `id`. -/
def sentAt (clients : List Client) (id : ℕ) : Bytes := ((clients[id]?).map fun client => client.stream.sent).getD []

theorem sentAt_eq {clients : List Client} {id : ℕ} {client : Client} (found : clients[id]? = some client) :
    sentAt clients id = client.stream.sent := by
  rw [sentAt, found]
  rfl

theorem sentAt_set {clients : List Client} {i : ℕ} {old new : Client} (bytes : Bytes)
    (found : clients[i]? = some old) (grown : new.stream.sent = old.stream.sent ++ bytes) (id : ℕ) :
    sentAt (clients.set i new) id = sentAt clients id ++ if i = id then bytes else [] := by
  by_cases same : i = id
  · subst same
    rw [sentAt_eq (List.getElem?_set_self (List.getElem?_eq_some_iff.mp found).1), sentAt_eq found, grown, if_pos rfl]
  · rw [sentAt, sentAt, List.getElem?_set_ne same, if_neg same, List.append_nil]

theorem sentAt_keep {clients : List Client} {i : ℕ} {old new : Client} (found : clients[i]? = some old)
    (kept : new.stream.sent = old.stream.sent) (id : ℕ) : sentAt (clients.set i new) id = sentAt clients id ++ [] := by
  have grown := sentAt_set [] found (by rw [kept, List.append_nil]) id
  rwa [ite_self] at grown

/-- One step adds to the stream of a connection what it sends there. -/
theorem sentAt_step {s next : ServerLoop} {e : ServerLoop.Event} (stepped : ServerLoop.machine.step s e = some next)
    (id : ℕ) : sentAt next.clients id = sentAt s.clients id ++ bytesOf id e := by
  have silent {e : ServerLoop.Event} (call : e.isCall = true) : bytesOf id e = [] := by
    cases e <;> first | rfl | cases call
  cases ServerLoop.moves_of_step stepped with
  | connect =>
    apply Eq.trans _ (List.append_nil _).symm
    rw [sentAt, sentAt]
    by_cases inside : id < s.clients.length
    · rw [List.getElem?_append_left inside]
    · rw [List.getElem?_append_right (Nat.not_lt.mp inside), List.getElem?_eq_none (Nat.not_lt.mp inside),
        List.getElem?_singleton]
      split <;> rfl
  | send bytes found => exact sentAt_set bytes found (Stream.sent_arrive _ _) id
  | finish found => exact sentAt_keep found (by rfl) id
  | wait =>
    apply Eq.trans _ (List.append_nil _).symm
    rw [sentAt, sentAt, List.getElem?_map, Option.map_map]
    congr 2
    funext client
    obtain ⟨edge, same⟩ := reportClient_eq _ client
    rw [Function.comp, same]
    rfl
  | accept head listening found => exact sentAt_keep found (by rfl) id
  | pass call =>
    rw [silent call]
    exact (List.append_nil _).symm
  | recv serving => exact sentAt_keep serving.client (Stream.sent_consume _ _) id
  | refused serving => exact sentAt_keep serving.client (Stream.sent_consume _ _) id
  | eof serving => exact sentAt_keep serving.client (by rfl) id
  | fault call serving =>
    rw [silent call]
    exact sentAt_keep serving.client (by rfl) id
  | flagged serving => exact sentAt_keep serving.client (by rfl) id
  | cleanup leaving first found => exact sentAt_keep found (by rfl) id
  | _ => exact (List.append_nil _).symm

theorem sent_run {others : List ℤ} {udp : Bool} {workerCount : ℕ} {es : List ServerLoop.Event} {s : ServerLoop}
    (ran : ServerLoop.machine.run (.start others udp workerCount) es = some s) {id : ℕ} {client : Client}
    (found : s.clients[id]? = some client) : client.stream.sent = sentBy id es := by
  have grown := EventMachine.run_appends (fun s => sentAt s.clients id) (bytesOf id)
    (fun _ _ _ stepped => sentAt_step stepped id) ran
  rw [sentAt_eq found] at grown
  exact grown

end Sent

section Served

variable {others : List ℤ} {udp : Bool} {workerCount : ℕ} {es : List ServerLoop.Event} {s : ServerLoop}

theorem kept_run (ran : ServerLoop.machine.run (.start others udp workerCount) es = some s) : Kept s :=
  EventMachine.invariant Kept (fun _ _ _ kept stepped => kept.step stepped) (.start others udp workerCount) ran

/-- The descriptors in the `epoll` set. -/
def watched (s : ServerLoop) : List ℤ := s.sfd :: (s.ufd.toList ++ s.server.conns.map fun peer => peer.conn.fd)

/-- The loop is in `epoll_wait`, which has nothing to report. -/
def AtRest (s : ServerLoop) : Prop := s.phase = .looping ∧ s.reports = [] ∧ ∀ fd ∈ watched s, s.readyAt fd = false

instance (s : ServerLoop) : Decidable (AtRest s) := inferInstanceAs (Decidable (_ ∧ _))

theorem AtRest.accepted (rest : AtRest s) : s.clients.length ≤ s.server.accepted := by
  have none := rest.2.2 s.sfd List.mem_cons_self
  rw [ServerLoop.readyAt, if_pos rfl] at none
  exact Nat.not_lt.mp (of_decide_eq_false none)

/-- At rest an open connection has been read to its end. -/
theorem AtRest.drained (rest : AtRest s) (kept : Kept s) {peer : Peer} {client : Client} {payloads : List Bytes}
    {last : Bytes} (live : Live s peer client payloads last) (found : s.clients[peer.id]? = some client) :
    ¬ client.stream.Pending := by
  intro pending
  have member : peer.conn.fd ∈ watched s :=
    List.mem_cons_of_mem _ (List.mem_append_right _ (List.mem_map_of_mem live.member))
  have conn : s.ofConn ⟨peer.conn.fd, false⟩ = true := kept.ofConn live.member rfl
  simp only [ServerLoop.ofConn, Bool.and_eq_true, decide_eq_true_eq] at conn
  have quiet := rest.2.2 _ member
  rw [ServerLoop.readyAt, if_neg conn.1, if_neg conn.2, kept.clientAt live.member found, Option.any_some] at quiet
  rcases live.attended pending with edge | ⟨report, among, -⟩
  · rw [edge] at quiet
    cases quiet
  · rw [rest.2.1] at among
    cases among

/-- A client connects, sends one frame, and ends, and a datagram arrives; the loop serves both. -/
def visit : List ServerLoop.Event :=
  [.connect, .send 0 [0, 0, 0, 1, 65], .sendto [66], .wait [0, 1], .accept, .accept, .recvfrom, .recvfrom, .wait [3],
    .read 7, .read 7, .finish 0, .read 7]

theorem visit_ran : ∃ s client, ServerLoop.machine.run (.start [] true 0) visit = some s ∧
    s.clients[0]? = some client ∧ client.port = .freed 3 .eof ∧ AtRest s := by
  refine ⟨_, _, rfl, rfl, ?_, ?_⟩
  · rfl
  · decide

/-- However clients, workers, and the loop take turns, the works pushed for a connection are the frames that were
sent on it, in order and on its descriptor, from the first on. When the loop has nothing to report they are all
of them, unless the connection failed. -/
theorem frames_served (ran : ServerLoop.machine.run (.start others udp workerCount) es = some s) {id : ℕ}
    {client : Client} (found : s.clients[id]? = some client) {payloads : List Bytes} {rest : Bytes}
    (stream : framing.Splits (sentBy id es) payloads rest) :
    ∃ fd seen, worksOf s.pushed (some id) = seen.map (workOf fd) ∧ seen <+: payloads ∧
      (AtRest s → (∀ fd, client.port ≠ .freed fd .fault) → seen = payloads) := by
  have kept := kept_run ran
  rw [← sent_run ran found, Stream.sent] at stream
  have first {seen : List Bytes} {last : Bytes} (splits : framing.Splits client.stream.consumed seen last) :
      seen <+: payloads := by
    obtain ⟨later, same⟩ := splits.seen_of_append stream
    exact ⟨later, same.symm⟩
  have whole {seen : List Bytes} {last : Bytes} (splits : framing.Splits client.stream.consumed seen last)
      (drained : client.stream.unread = []) : seen = payloads := by
    rw [drained, List.append_nil] at stream
    exact (splits.unique stream).1
  cases kept.followed id client found with
  | backlog later port untouched silent =>
    refine ⟨0, [], silent, List.nil_prefix, fun resting _ => ?_⟩
    have inside := (List.getElem?_eq_some_iff.mp found).1
    have := resting.accepted
    omega
  | @opened c seen last live =>
    refine ⟨c.fd, seen, live.works, first live.splits, fun resting _ => whole live.splits ?_⟩
    by_contra left
    exact resting.drained kept live found (.inl left)
  | @freed fd ending seen last earlier port splits works due =>
    refine ⟨fd, seen, works, first splits, fun resting sound => ?_⟩
    cases ending with
    | eof => exact whole splits due.1
    | fault => exact absurd port (sound fd)
    | refused => exact ((splits.append_of_rejected due client.stream.unread).unique stream).1
    | flagged => exact due.elim
    | cleanup => exact absurd resting.1 due

theorem frames_served_visit : ∃ s fd, ServerLoop.machine.run (.start [] true 0) visit = some s ∧
    worksOf s.pushed (some 0) = [workOf fd [65]] := by
  obtain ⟨s, client, ran, found, port, resting⟩ := visit_ran
  have sent : sentBy 0 visit = framing.frame [65] := by decide
  have stream : framing.Splits (sentBy 0 visit) [[65]] [] := by
    rw [sent]
    exact splits_frame (by decide)
  obtain ⟨fd, seen, works, -, whole⟩ := frames_served ran found stream
  have all := whole resting (by simp [port])
  exact ⟨s, fd, ran, by rw [works, all]; rfl⟩

/-- A connection is never freed for the hang-up flags of its event alone, and at the end of file only after all
that was sent has been read. -/
theorem freed_for_cause (ran : ServerLoop.machine.run (.start others udp workerCount) es = some s) {id : ℕ}
    {client : Client} (found : s.clients[id]? = some client) {fd : ℤ} {ending : Ending}
    (freed : client.port = .freed fd ending) :
    match ending with
    | .eof => client.stream.ended = true ∧ client.stream.consumed = sentBy id es
    | .fault => True
    | .refused => ∃ payloads rest, framing.Splits (sentBy id es) payloads rest ∧ framing.Rejected rest
    | .flagged => False
    | .cleanup => s.phase ≠ .looping := by
  have sent := sent_run ran found
  cases (kept_run ran).followed id client found with
  | backlog later port =>
    rw [port] at freed
    cases freed
  | opened live =>
    rw [live.port] at freed
    cases freed
  | @freed fd' ending' seen last earlier port splits works due =>
    rw [port] at freed
    cases freed
    cases ending with
    | eof =>
      refine ⟨due.2, ?_⟩
      rw [← sent, Stream.sent, due.1, List.append_nil]
    | fault => trivial
    | refused =>
      rw [← sent]
      exact ⟨seen, _, splits.append_of_rejected due _, LengthPrefix.Rejected.append due _⟩
    | flagged => exact due
    | cleanup => exact due

theorem freed_for_cause_visit : ∃ (s : ServerLoop) (client : Client),
    ServerLoop.machine.run (.start [] true 0) visit = some s ∧ client.port = .freed 3 .eof ∧
      client.stream.ended = true ∧ client.stream.consumed = [0, 0, 0, 1, 65] := by
  obtain ⟨s, client, ran, found, port, -⟩ := visit_ran
  exact ⟨s, client, ran, port, freed_for_cause ran found port⟩

/-- The two sockets of the server have different numbers, which never change. -/
theorem listening_start (others : List ℤ) (udp : Bool) (workerCount : ℕ) :
    (ServerLoop.start others udp workerCount).ufd ≠ some (ServerLoop.start others udp workerCount).sfd := by
  intro same
  obtain ⟨-, equal⟩ := Option.ite_none_right_eq_some.mp same
  have unused := lowestFree_not_mem (lowestFree others :: others)
  rw [Option.some.inj equal] at unused
  exact unused List.mem_cons_self

theorem listening_step (s : ServerLoop) (e : ServerLoop.Event) (next : ServerLoop) (apart : s.ufd ≠ some s.sfd)
    (stepped : ServerLoop.machine.step s e = some next) : next.ufd ≠ some next.sfd := by
  cases ServerLoop.moves_of_step stepped <;> exact apart

theorem listening_run (ran : ServerLoop.machine.run (.start others udp workerCount) es = some s) :
    s.ufd ≠ some s.sfd :=
  EventMachine.invariant (fun s => s.ufd ≠ some s.sfd) listening_step (listening_start others udp workerCount) ran

/-- The members of `g_conns` are the accepted connections that have not been freed, their numbers are different
and belong to nothing else, and when the loop returns there are none. -/
theorem descriptors_accounted (ran : ServerLoop.machine.run (.start others udp workerCount) es = some s) :
    (watched s).Nodup ∧
      (∀ id fd, (∃ client, s.clients[id]? = some client ∧ client.port = .opened fd) ↔
        ∃ peer ∈ s.server.conns, peer.id = id ∧ peer.conn.fd = fd) ∧
      (s.phase = .returned → ∀ client ∈ s.clients, ∀ fd, client.port ≠ .opened fd) := by
  have kept := kept_run ran
  have ports (id : ℕ) (fd : ℤ) : (∃ client, s.clients[id]? = some client ∧ client.port = .opened fd) ↔
      ∃ peer ∈ s.server.conns, peer.id = id ∧ peer.conn.fd = fd := by
    constructor
    · rintro ⟨client, found, port⟩
      cases kept.followed id client found with
      | backlog later waits =>
        rw [waits] at port
        cases port
      | @opened c payloads rest live =>
        rw [live.port] at port
        cases port
        exact ⟨_, live.member, rfl, rfl⟩
      | freed earlier gone =>
        rw [gone] at port
        cases port
    · rintro ⟨peer, member, rfl, rfl⟩
      exact kept.known peer member
  have apart := listening_run ran
  refine ⟨?_, ports, ?_⟩
  · have reserved : ∀ fd ∈ s.sfd :: s.ufd.toList, fd ∈ s.server.reserved := by
      intro fd member
      rcases List.mem_cons.mp member with rfl | datagrams
      · exact kept.listening
      · exact kept.bound fd (Option.mem_toList.mp datagrams)
    have two : (s.sfd :: s.ufd.toList).Nodup := by
      cases ufd : s.ufd with
      | none => exact List.nodup_singleton _
      | some fd => simpa [ufd, eq_comm] using apart
    apply List.Nodup.append two kept.numbered.distinct
    intro fd own conn
    obtain ⟨peer, member, rfl⟩ := List.mem_map.mp conn
    exact kept.numbered.apart peer member (reserved _ own)
  · intro returned client member fd port
    obtain ⟨id, found⟩ := List.mem_iff_getElem?.mp member
    obtain ⟨peer, among, -⟩ := (ports id fd).mp ⟨client, found, port⟩
    rw [kept.closed returned] at among
    cases among

theorem descriptors_accounted_visit : ∃ s, ServerLoop.machine.run (.start [] true 0) visit = some s ∧
    (watched s).Nodup := by
  obtain ⟨s, client, ran, -⟩ := visit_ran
  exact ⟨s, ran, (descriptors_accounted ran).1⟩

end Served

section Calls

/-- What an event gives the loop to do. -/
def given : ServerLoop.Event → ℕ
  | .connect => 1
  | .send _ bytes => bytes.length
  | .sendto _ => 1
  | .wait fds => fds.length
  | _ => 0

/-- One for a system call that serves a report. -/
def price (e : ServerLoop.Event) : ℕ := e.isCall.toNat

/-- The bytes that have been sent and not been read. -/
def unreadBytes (clients : List Client) : ℕ := tally (fun client => client.stream.unread.length) clients

/-- What the loop has left to do. -/
def undone (s : ServerLoop) : ℕ :=
  s.reports.length + (s.clients.length - s.server.accepted) + s.datagrams.length + unreadBytes s.clients

theorem unreadBytes_set {clients : List Client} {id : ℕ} {old : Client} (found : clients[id]? = some old)
    (new : Client) :
    unreadBytes (clients.set id new) + old.stream.unread.length = unreadBytes clients + new.stream.unread.length :=
  tally_set (fun client => client.stream.unread.length) found new

/-- A connection that is freed has no more left than before, and its report goes with it. -/
theorem undone_free {s : ServerLoop} {report : Report} {rest : List Report} {peer : Peer} {client : Client}
    (serving : s.Serving report rest peer client) {stream : Stream} (ending : Ending)
    (fewer : stream.unread.length ≤ client.stream.unread.length) :
    undone { s.free peer stream ending with reports := rest } + 1 ≤ undone s := by
  have bytes := unreadBytes_set serving.client ⟨stream, .freed peer.conn.fd ending⟩
  have head := congrArg List.length serving.head
  simp only [undone, ServerLoop.free, Server.closeConn, List.length_set, List.length_cons] at bytes head ⊢
  omega

/-- Every call of the loop is paid for by something it was given to do. -/
theorem undone_step {s next : ServerLoop} {e : ServerLoop.Event} (stepped : ServerLoop.machine.step s e = some next) :
    undone next + price e ≤ undone s + given e := by
  have called {e : ServerLoop.Event} (call : e.isCall = true) : price e = 1 := congrArg Bool.toNat call
  cases ServerLoop.moves_of_step stepped with
  | connect =>
    have bytes : unreadBytes (s.clients ++ [⟨.fresh, .backlog⟩]) = unreadBytes s.clients := tally_append _ _ _
    change undone _ + 0 ≤ undone s + 1
    simp only [undone, bytes, List.length_append, List.length_singleton]
    omega
  | @send id client new found =>
    have bytes := unreadBytes_set found { client with stream := client.stream.arrive new }
    simp only [Stream.arrive, List.length_append] at bytes
    change undone _ + 0 ≤ undone s + new.length
    simp only [undone, ServerLoop.setStream, Stream.arrive, List.length_set]
    omega
  | @finish id client found =>
    have bytes := unreadBytes_set found { client with stream := client.stream.finish }
    simp only [Stream.finish] at bytes
    change undone _ + 0 ≤ undone s + 0
    simp only [undone, ServerLoop.setStream, Stream.finish, List.length_set]
    omega
  | sendto data =>
    change undone _ + 0 ≤ undone s + 1
    simp only [undone, List.length_append, List.length_singleton]
    omega
  | worker own worked =>
    obtain ⟨-, accepted, -⟩ := worker_frame own worked
    change undone _ + 0 ≤ undone s + 0
    simp only [undone, accepted]
    omega
  | @wait fds looping idle =>
    have bytes : unreadBytes (s.clients.map (ServerLoop.reportClient fds)) = unreadBytes s.clients := by
      apply tally_map
      intro client
      obtain ⟨edge, same⟩ := reportClient_eq fds client
      rw [same]
    change undone _ + 0 ≤ undone s + fds.length
    simp only [undone, idle, bytes, List.length_map, List.length_nil]
    omega
  | waitFailed => exact Nat.le_refl _
  | @accept report rest client head listening found =>
    have bytes := unreadBytes_set found ⟨client.stream.register, .opened s.server.nextFd⟩
    have inside := (List.getElem?_eq_some_iff.mp found).1
    simp only [Stream.register] at bytes
    change undone _ + 1 ≤ undone s + 0
    simp only [undone, Server.acceptConn, Stream.register, List.length_set]
    omega
  | pass call head =>
    have one := congrArg List.length head
    rw [called call]
    simp only [List.length_cons] at one
    simp only [undone]
    omega
  | takeEmpty head other first =>
    have one := congrArg List.length head
    have two := congrArg List.length first
    simp only [List.length_cons] at one two
    change undone _ + 1 ≤ undone s + 0
    simp only [undone]
    omega
  | take head first =>
    have two := congrArg List.length first
    simp only [List.length_cons] at two
    change undone _ + 1 ≤ undone s + 0
    simp only [undone, ServerLoop.push, Server.push]
    omega
  | @recv report rest peer client more data c serving result taken =>
    obtain ⟨nonempty, -, cut⟩ := Stream.read_data result
    have shorter := congrArg List.length cut
    have bytes := unreadBytes_set serving.client { client with stream := client.stream.consume data.length }
    rw [recvData_more taken]
    simp only [List.length_append, List.length_drop, Stream.consume] at shorter bytes
    change undone _ + 1 ≤ undone s + 0
    simp only [undone, ServerLoop.setStream, Server.updateConn, Stream.consume, List.length_set]
    omega
  | refused serving =>
    apply undone_free serving
    simp only [Stream.consume, List.length_drop]
    exact Nat.sub_le _ _
  | eof serving => exact undone_free serving _ (Nat.le_refl _)
  | fault call serving =>
    rw [called call]
    exact Nat.le_trans (undone_free serving _ (Nat.le_refl _)) (Nat.le_add_right _ _)
  | flagged serving => exact undone_free serving _ (Nat.le_refl _)
  | again serving =>
    have one := congrArg List.length serving.head
    simp only [List.length_cons] at one
    change undone _ + 1 ≤ undone s + 0
    simp only [undone]
    omega
  | @cleanup peer conns client leaving first found =>
    have bytes := unreadBytes_set found ⟨client.stream, .freed peer.conn.fd .cleanup⟩
    change undone _ + 0 ≤ undone s + 0
    simp only [undone, ServerLoop.free, Server.closeConn, List.length_set]
    dsimp only at bytes
    omega
  | returned => exact Nat.le_refl _

/-- The connection that is open under a number. -/
def holder (s : ServerLoop) (fd : ℤ) : Option ℕ := (s.server.peerAt fd).map Peer.id

theorem holder_eq {s : ServerLoop} (numbered : Numbered s.server) {peer : Peer} (member : peer ∈ s.server.conns) :
    holder s peer.conn.fd = some peer.id := by
  rw [holder, numbered.peerAt member]
  rfl

/-- Which reports are those of connections never changes. -/
theorem ofConn_step {s next : ServerLoop} {e : ServerLoop.Event} (stepped : ServerLoop.machine.step s e = some next)
    (report : Report) : next.ofConn report = s.ofConn report := by
  cases ServerLoop.moves_of_step stepped <;> rfl

/-- Only `epoll_wait` brings new reports. -/
theorem reports_step {s next : ServerLoop} {e : ServerLoop.Event} (stepped : ServerLoop.machine.step s e = some next)
    (other : ∀ fds, e ≠ .wait fds) : next.reports ⊆ s.reports := by
  have rest {report : Report} {rest : List Report} (head : s.reports = report :: rest) : rest ⊆ s.reports := by
    rw [head]
    exact List.subset_cons_self _ _
  cases ServerLoop.moves_of_step stepped with
  | @wait fds => exact absurd rfl (other fds)
  | pass call head | takeEmpty head => exact rest head
  | refused serving | eof serving | fault _ serving | flagged serving | again serving => exact rest serving.head
  | _ => exact List.Subset.refl _

/-- An open connection was open under its number before the step, or has just been given a free one. -/
theorem conns_step {s next : ServerLoop} {e : ServerLoop.Event} (stepped : ServerLoop.machine.step s e = some next)
    {peer : Peer} (member : peer ∈ next.server.conns) :
    (∃ old ∈ s.server.conns, old.id = peer.id ∧ old.conn.fd = peer.conn.fd) ∨ peer.conn.fd = s.server.nextFd := by
  have closed {fd : ℤ} (member : peer ∈ (s.server.closeConn fd).conns) :
      ∃ old ∈ s.server.conns, old.id = peer.id ∧ old.conn.fd = peer.conn.fd :=
    ⟨peer, (mem_closeConn.mp member).1, rfl, rfl⟩
  cases ServerLoop.moves_of_step stepped with
  | worker own worked =>
    obtain ⟨conns, -⟩ := worker_frame own worked
    exact .inl ⟨peer, conns ▸ member, rfl, rfl⟩
  | accept =>
    rcases List.mem_append.mp member with old | new
    · exact .inl ⟨peer, old, rfl, rfl⟩
    · rw [List.mem_singleton.mp new]
      exact .inr rfl
  | recv serving result taken =>
    rw [recvData_more taken] at member
    exact .inl (mem_updateConn member)
  | refused | eof | fault | flagged | cleanup => exact .inl (closed member)
  | _ => exact .inl ⟨peer, member, rfl, rfl⟩

/-- A report in hand goes on naming the same connection. -/
theorem holder_step {s next : ServerLoop} {e : ServerLoop.Event} (kept : Kept s)
    (stepped : ServerLoop.machine.step s e = some next) (other : ∀ fds, e ≠ .wait fds) {report : Report}
    (among : report ∈ next.reports) (conn : next.ofConn report = true) :
    holder next report.fd = holder s report.fd := by
  rw [ofConn_step stepped] at conn
  obtain ⟨peer, member, same⟩ := kept.current report (reports_step stepped other among) conn
  rw [← ofConn_step stepped] at conn
  obtain ⟨now, present, equal⟩ := (kept.step stepped).current report among conn
  rcases conns_step stepped present with ⟨old, before, id, fd⟩ | fresh
  · obtain rfl := kept.numbered.unique before member (by rw [fd, equal, same])
    rw [← same, holder_eq kept.numbered member, same, ← equal, holder_eq (kept.step stepped).numbered present, id]
  · exact absurd (by rw [same, ← equal, fresh]) ((Numbered.nextFd_not_mem s.server).2 peer member)

variable {others : List ℤ} {udp : Bool} {workerCount : ℕ} {es : List ServerLoop.Event} {s : ServerLoop}

/-- From one `epoll_wait` to the next, every report left names the connection it was made for. -/
theorem holder_run {before after : List ServerLoop.Event} {fds : List ℤ} {waiting : ServerLoop}
    (ran : ServerLoop.machine.run (.start others udp workerCount) (before ++ .wait fds :: after) = some s)
    (reached : ServerLoop.machine.run (.start others udp workerCount) before = some waiting)
    (once : ∀ fds, .wait fds ∉ after) {report : Report} (among : report ∈ s.reports) (conn : s.ofConn report = true) :
    ∃ id, holder waiting report.fd = some id ∧ holder s report.fd = some id := by
  have waits := kept_run reached
  rw [EventMachine.run_append, reached, Option.bind_some, EventMachine.run_cons] at ran
  obtain ⟨reported, stepped, served⟩ := Option.bind_eq_some_iff.mp ran
  have named : ∀ report ∈ reported.reports, reported.ofConn report = true →
      ∃ id, holder waiting report.fd = some id ∧ holder reported report.fd = some id := by
    intro report among conn
    obtain ⟨peer, member, same⟩ := (waits.step stepped).current report among conn
    have held := holder_eq (waits.step stepped).numbered member
    rw [same] at held
    refine ⟨peer.id, ?_, held⟩
    have moves : waiting.Moves (.wait fds) reported := ServerLoop.moves_of_step stepped
    cases moves with
    | wait => exact held
    | pass call | fault call => cases call
  have others : ∀ e ∈ after, ∀ fds, e ≠ .wait fds := by
    intro e member fds same
    exact once fds (same ▸ member)
  -- Along the calls on the reports, the connections they name stay open under their numbers.
  have kept := EventMachine.invariant_along
    (fun s => Kept s ∧ ∀ report ∈ s.reports, s.ofConn report = true →
      ∃ id, holder waiting report.fd = some id ∧ holder s report.fd = some id)
    (fun s e next holds other stepped => by
      refine ⟨holds.1.step stepped, fun report among conn => ?_⟩
      rw [holder_step holds.1 stepped other among conn]
      rw [ofConn_step stepped] at conn
      exact holds.2 report (reports_step stepped other among) conn)
    ⟨waits.step stepped, named⟩ (EventMachine.along_of_forall others) served
  exact kept.2 report among conn

/-- The loop neither spins nor gets stuck: its calls are no more than the connections, datagrams, bytes, and
reports it was given, it always has a call to make on a report in hand, it never meets a report whose connection it
has already freed, and all reports that are left of an `epoll_wait` name the connections they were made for. -/
theorem calls_paid (ran : ServerLoop.machine.run (.start others udp workerCount) es = some s) :
    (es.filter ServerLoop.Event.isCall).length + undone s ≤ tally given es ∧
      (s.reports ≠ [] → ∃ e : ServerLoop.Event, e.isCall = true ∧ (s.step e).isSome = true) ∧ s.step .skip = none ∧
      ∀ before fds after waiting, es = before ++ .wait fds :: after → (∀ later, .wait later ∉ after) →
        ServerLoop.machine.run (.start others udp workerCount) before = some waiting →
        ∀ report ∈ s.reports, s.ofConn report = true →
          ∃ id, holder waiting report.fd = some id ∧ holder s report.fd = some id := by
  have kept := kept_run ran
  refine ⟨?_, ?_, ?_, ?_⟩
  · have paid := EventMachine.tally_add_le undone price given (fun _ _ _ => undone_step) ran
    have counted : tally price es = (es.filter ServerLoop.Event.isCall).length := by
      clear paid ran
      induction es with
      | nil => rfl
      | cons e es ih =>
        rw [tally, ih, List.filter_cons, price]
        cases e.isCall with
        | true => exact Nat.add_comm _ _
        | false => exact Nat.zero_add _
    have nothing : undone (.start others udp workerCount) = 0 := rfl
    omega
  · intro busy
    obtain ⟨report, rest, head⟩ := List.exists_cons_of_ne_nil busy
    exact kept.serves head
  · cases skipped : s.step .skip with
    | none => rfl
    | some next =>
      simp only [ServerLoop.step] at skipped
      split at skipped
      next report rest head =>
        obtain ⟨⟨conn, missing⟩, -⟩ := Option.ite_none_right_eq_some.mp skipped
        obtain ⟨peer, among, same⟩ := kept.current report (by rw [head]; exact List.mem_cons_self) conn
        rw [← same, kept.numbered.peerAt among] at missing
        cases missing
      next => cases skipped
  · rintro before fds after waiting rfl once reached report among conn
    exact holder_run ran reached once among conn

theorem calls_paid_visit : ∃ s, ServerLoop.machine.run (.start [] true 0) visit = some s ∧
    (visit.filter ServerLoop.Event.isCall).length + undone s ≤ 10 := by
  obtain ⟨s, client, ran, -⟩ := visit_ran
  exact ⟨s, ran, (calls_paid ran).1⟩

end Calls

section Datagrams

variable {others : List ℤ} {udp : Bool} {workerCount : ℕ} {es : List ServerLoop.Event} {s : ServerLoop}

/-- The datagrams of an event. -/
def datagramOf : ServerLoop.Event → List Bytes
  | .sendto data => [data]
  | _ => []

/-- The work a datagram becomes: its first 2048 bytes, with no descriptor to answer on. -/
def datagramWork (data : Bytes) : Option Work :=
  if data.take ServerLoop.datagramSize = [] then none else some (workOf (-1) (data.take ServerLoop.datagramSize))

theorem datagrams_step {s next : ServerLoop} {e : ServerLoop.Event}
    (stepped : ServerLoop.machine.step s e = some next) :
    next.taken ++ next.datagrams = (s.taken ++ s.datagrams) ++ datagramOf e := by
  have silent {e : ServerLoop.Event} (call : e.isCall = true) : datagramOf e = [] := by
    cases e <;> first | rfl | cases call
  cases ServerLoop.moves_of_step stepped with
  | sendto data => exact (List.append_assoc ..).symm
  | pass call =>
    rw [silent call]
    exact (List.append_nil _).symm
  | fault call =>
    rw [silent call]
    exact (List.append_nil _).symm
  | takeEmpty head other first =>
    rw [first]
    simp [datagramOf]
  | take head first =>
    rw [first]
    simp [datagramOf, ServerLoop.push]
  | _ => exact (List.append_nil _).symm

theorem datagram_works_step {s next : ServerLoop} {e : ServerLoop.Event}
    (works : worksOf s.pushed none = s.taken.filterMap datagramWork)
    (stepped : ServerLoop.machine.step s e = some next) :
    worksOf next.pushed none = next.taken.filterMap datagramWork := by
  cases ServerLoop.moves_of_step stepped with
  | takeEmpty head other first empty =>
    simp only [List.filterMap_append, works, List.filterMap_cons, datagramWork, if_pos empty, List.filterMap_nil,
      List.append_nil]
  | take head first bytes =>
    simp only [ServerLoop.push, worksOf_append, List.filterMap_append, works, List.filterMap_cons, datagramWork,
      if_neg bytes, List.filterMap_nil, WorkQueue.makeWork, List.take_length]
    rfl
  | @recv report rest peer client more data c serving result taken =>
    have none : worksOf ((fullFrame c).2.map fun work => ⟨work, some peer.id⟩) none = [] := by
      apply worksOf_other
      intro item fresh
      obtain ⟨work, -, rfl⟩ := List.mem_map.mp fresh
      simp
    change worksOf (s.pushed ++ _) Option.none = _
    rw [worksOf_append, none, List.append_nil]
    exact works
  | _ => exact works

/-- Without a datagram socket nothing waits on one. -/
theorem bound_step (s : ServerLoop) (e : ServerLoop.Event) (next : ServerLoop)
    (bound : s.datagrams ≠ [] → s.ufd.isSome = true) (stepped : ServerLoop.machine.step s e = some next) :
    next.datagrams ≠ [] → next.ufd.isSome = true := by
  cases ServerLoop.moves_of_step stepped with
  | sendto data isBound => exact fun _ => isBound
  | takeEmpty head other first => exact fun _ => bound (by simp [first])
  | take head first => exact fun _ => bound (by simp [first])
  | _ => exact bound

/-- Every datagram is received in order and becomes a work of its first 2048 bytes, an empty one none. When the
loop has nothing to report, no datagram is left. -/
theorem datagrams_served (ran : ServerLoop.machine.run (.start others udp workerCount) es = some s) :
    s.taken ++ s.datagrams = es.flatMap datagramOf ∧ worksOf s.pushed none = s.taken.filterMap datagramWork ∧
      (AtRest s → worksOf s.pushed none = (es.flatMap datagramOf).filterMap datagramWork) := by
  have all : s.taken ++ s.datagrams = es.flatMap datagramOf :=
    EventMachine.run_appends (fun s => s.taken ++ s.datagrams) datagramOf (fun _ _ _ => datagrams_step) ran
  have works := EventMachine.invariant (fun s => worksOf s.pushed none = s.taken.filterMap datagramWork)
    (fun _ _ _ => datagram_works_step) rfl ran
  refine ⟨all, works, ?_⟩
  intro resting
  have none : s.datagrams = [] := by
    by_contra left
    have bound := EventMachine.invariant (fun s => s.datagrams ≠ [] → s.ufd.isSome = true) bound_step
      (fun waiting => absurd rfl waiting) ran left
    obtain ⟨ufd, found⟩ := Option.isSome_iff_exists.mp bound
    have apart := listening_run ran
    have quiet := resting.2.2 ufd (List.mem_cons_of_mem _ (List.mem_append_left _ (by simp [found])))
    rw [ServerLoop.readyAt, if_neg (by rintro rfl; exact apart found), if_pos found] at quiet
    simp [left] at quiet
  rw [works, ← all, none, List.append_nil]

theorem datagrams_served_visit : ∃ s, ServerLoop.machine.run (.start [] true 0) visit = some s ∧
    worksOf s.pushed none = [workOf (-1) [66]] := by
  obtain ⟨s, client, ran, -, -, resting⟩ := visit_ran
  exact ⟨s, ran, (datagrams_served ran).2.2 resting⟩

end Datagrams

section Refinement

variable {others : List ℤ} {udp : Bool} {workerCount : ℕ} {es : List ServerLoop.Event} {s next : ServerLoop}

/-- The steps of the workers. -/
def workerSteps : ServerLoop.Event → List Server.Event
  | .worker e => [e]
  | _ => []

private theorem hangup_step {server : Server} {peer : Peer} (member : peer ∈ server.conns) :
    Server.machine.run server [.hangup peer.conn.fd] = some (server.closeConn peer.conn.fd) := by
  have found : (server.peerAt peer.conn.fd).isSome = true := List.find?_isSome.mpr ⟨peer, member, by simp⟩
  simp only [EventMachine.run, Server.machine, Server.step, if_pos found, Option.bind_some]

private theorem recv_step {server : Server} {fd : ℤ} {peer : Peer} {data : Bytes} (found : server.peerAt fd = some peer)
    (fits : 0 < data.length ∧ data.length ≤ peer.conn.wanted) :
    Server.machine.run server [.recv fd data] = some (server.recvData peer data) := by
  simp only [EventMachine.run, Server.machine, Server.step, found, Option.bind_eq_bind, Option.bind_some, if_pos fits]

/-- A step of the loop is at most one step of the server without `epoll`. -/
theorem projects_step {e : ServerLoop.Event} (stepped : ServerLoop.machine.step s e = some next) :
    ∃ tape, Server.machine.run s.server tape = some next.server ∧ tape.filter ServerLoop.ofWorker = workerSteps e := by
  have silent {e : ServerLoop.Event} (call : e.isCall = true) : workerSteps e = [] := by
    cases e <;> first | rfl | cases call
  cases ServerLoop.moves_of_step stepped with
  | @worker e server own worked =>
    refine ⟨[e], ?_, ?_⟩
    · simp only [EventMachine.run, Server.machine, worked, Option.bind_some]
    · rw [List.filter_cons, own]
      rfl
  | accept => exact ⟨[.accept], rfl, rfl⟩
  | @take report rest data datagrams head first bytes =>
    refine ⟨[.datagram (data.take ServerLoop.datagramSize)], ?_, rfl⟩
    have fits : 0 < (data.take ServerLoop.datagramSize).length ∧ (data.take ServerLoop.datagramSize).length ≤ 2048 :=
      ⟨List.length_pos_iff.mpr bytes, List.length_take_le _ _⟩
    simp only [EventMachine.run, Server.machine, Server.step, if_pos fits, Option.bind_some, ServerLoop.push]
  | recv serving result =>
    obtain ⟨nonempty, fits, -⟩ := Stream.read_data result
    exact ⟨[.recv _ _], recv_step serving.found ⟨nonempty, fits⟩, rfl⟩
  | @refused report rest peer client more data c serving result taken =>
    obtain ⟨nonempty, fits, -⟩ := Stream.read_data result
    refine ⟨[.recv report.fd data], ?_, rfl⟩
    rw [recv_step serving.found ⟨nonempty, fits⟩, Server.recvData, taken]
    dsimp only
    rw [(ReplyRouting.take_fd peer.conn data).2 c taken]
    rfl
  | eof serving => exact ⟨[.hangup _], hangup_step (mem_of_peerAt serving.found).1, rfl⟩
  | fault call serving => exact ⟨[.hangup _], hangup_step (mem_of_peerAt serving.found).1, (silent call).symm⟩
  | flagged serving => exact ⟨[.hangup _], hangup_step (mem_of_peerAt serving.found).1, rfl⟩
  | cleanup leaving first =>
    refine ⟨[.hangup _], hangup_step ?_, rfl⟩
    rw [first]
    exact List.mem_cons_self
  | pass call => exact ⟨[], rfl, (silent call).symm⟩
  | _ => exact ⟨[], rfl, rfl⟩

/-- Every run of the loop with `epoll`, the clients, and the kernel is, for the server, a run of single accepts,
reads, hang-ups, and datagrams, with the same steps of the workers. -/
theorem loop_refines_server (ran : ServerLoop.machine.run (.start others udp workerCount) es = some s) :
    ∃ tape, Server.machine.run (.start (ServerLoop.start others udp workerCount).server.reserved workerCount) tape =
        some s.server ∧ tape.filter ServerLoop.ofWorker = es.flatMap workerSteps :=
  EventMachine.run_projects (fun s => s.server) ServerLoop.ofWorker workerSteps (fun _ _ _ => projects_step) ran

theorem loop_refines_server_visit : ∃ s tape, ServerLoop.machine.run (.start [] true 0) visit = some s ∧
    Server.machine.run (.start [2, 1, 0] 0) tape = some s.server := by
  obtain ⟨s, client, ran, -⟩ := visit_ran
  obtain ⟨tape, same, -⟩ := loop_refines_server ran
  exact ⟨s, tape, ran, same⟩

/-- The queue holds the last works that were pushed, in order and no more than it has room for, and the workers
hold works that were pushed. -/
structure Queued (s : ServerLoop) : Prop where
  latest : s.server.queue <:+ s.pushed
  bounded : s.server.queue.length ≤ queueDepth
  genuine : ReplyRouting.carried s.server ⊆ s.pushed

theorem queued_push {queue pushed : List Item} (latest : queue <:+ pushed) (bounded : queue.length ≤ queueDepth)
    (item : Item) : pushBounded queue item <:+ pushed ++ [item] ∧ (pushBounded queue item).length ≤ queueDepth := by
  obtain ⟨earlier, rfl⟩ := latest
  rw [pushBounded]
  split
  next full =>
    cases queue with
    | nil => exact absurd full (by decide)
    | cons first queue =>
      refine ⟨⟨earlier ++ [first], by simp⟩, ?_⟩
      simpa using bounded
  next room =>
    refine ⟨⟨earlier, by simp⟩, ?_⟩
    rw [List.length_append, List.length_singleton]
    omega

namespace Queued

theorem start (others : List ℤ) (udp : Bool) (workerCount : ℕ) : Queued (.start others udp workerCount) where
  latest := List.suffix_rfl
  bounded := show (0 : ℤ) ≤ queueDepth by decide
  genuine := by
    intro item member
    simp [ReplyRouting.carried, ServerLoop.start, Server.start, ReplyRouting.heldItems] at member

theorem pushAll (queued : Queued s) (items : List Item)
    (queue : next.server.queue = items.foldl pushBounded s.server.queue)
    (workers : next.server.workers = s.server.workers) (pushed : next.pushed = s.pushed ++ items) : Queued next := by
  have grown : ∀ (items queue pushed : List Item), queue <:+ pushed → queue.length ≤ queueDepth →
      items.foldl pushBounded queue <:+ pushed ++ items ∧ (items.foldl pushBounded queue).length ≤ queueDepth := by
    intro items
    induction items with
    | nil =>
      intro queue pushed latest bounded
      exact ⟨by rwa [List.append_nil], bounded⟩
    | cons item items ih =>
      intro queue pushed latest bounded
      obtain ⟨latest', bounded'⟩ := queued_push latest bounded item
      have rest := ih (pushBounded queue item) (pushed ++ [item]) latest' bounded'
      rwa [List.append_assoc, List.singleton_append] at rest
  obtain ⟨latest, bounded⟩ := grown items _ _ queued.latest queued.bounded
  rw [← queue] at latest bounded
  refine ⟨?_, bounded, ?_⟩
  · rw [pushed]
    exact latest
  · intro item member
    rw [ReplyRouting.carried, workers] at member
    rw [pushed]
    rcases List.mem_append.mp member with waiting | held
    · exact latest.subset waiting
    · exact List.mem_append_left _ (queued.genuine (List.mem_append_right _ held))

theorem step {e : ServerLoop.Event} (queued : Queued s) (stepped : ServerLoop.machine.step s e = some next) :
    Queued next := by
  cases ServerLoop.moves_of_step stepped with
  | worker own worked =>
    obtain ⟨-, -, -, front, fewer⟩ := worker_frame own worked
    exact ⟨front.trans queued.latest, by have := front.length_le; have := queued.bounded; dsimp only; omega,
      fun item member => queued.genuine (fewer member)⟩
  | take => exact queued.pushAll [_] rfl rfl rfl
  | recv serving result taken =>
    have received : s.server.recvData _ _ = _ := recvData_more taken
    exact queued.pushAll _ (congrArg Server.queue received) ((congrArg Server.workers received).trans rfl) rfl
  | _ => exact ⟨queued.latest, queued.bounded, queued.genuine⟩

end Queued

/-- What waits in the queue are the works pushed last, in order, and whatever a worker has in hand was pushed. -/
theorem queue_latest (ran : ServerLoop.machine.run (.start others udp workerCount) es = some s) :
    s.server.queue <:+ s.pushed ∧ s.server.queue.length ≤ queueDepth ∧ ReplyRouting.carried s.server ⊆ s.pushed := by
  have queued : Queued s :=
    EventMachine.invariant Queued (fun _ _ _ queued => queued.step) (.start others udp workerCount) ran
  exact ⟨queued.latest, queued.bounded, queued.genuine⟩

theorem queue_latest_visit : ∃ s, ServerLoop.machine.run (.start [] true 0) visit = some s ∧
    s.server.queue <:+ s.pushed := by
  obtain ⟨s, client, ran, -⟩ := visit_ran
  exact ⟨s, ran, (queue_latest ran).1⟩

end Refinement

end ProcessMonitor.Soundness.ConnectionService
