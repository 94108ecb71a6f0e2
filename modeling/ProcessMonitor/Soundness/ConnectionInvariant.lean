import ProcessMonitor.Model.Vts.ServerLoop
import ProcessMonitor.Soundness.FrameDecoding
import ProcessMonitor.Soundness.ReplyRouting

/-! # All connections under one server loop

The decoder of one connection is followed through the whole server: clients send, end, and connect, workers
take works and write replies, and the loop serves one report after the other, all interleaved. For every
connection the invariant says what its port, its decoder, the bytes read, and the works pushed have to do
with one another, and that what can be read is on the ready list or among the reports in hand.
-/

namespace ProcessMonitor.Soundness.ConnectionInvariant

open Machine Machine.Posix Model.Vts FrameDecoding

section Descriptors

variable {server next : Server} {peer other : Peer} {fd : ℤ}

/-- The open numbers are different, and none of them belongs to anything else. -/
structure Numbered (server : Server) : Prop where
  distinct : (server.conns.map fun peer => peer.conn.fd).Nodup
  apart : ∀ peer ∈ server.conns, peer.conn.fd ∉ server.reserved

theorem mem_of_peerAt (found : server.peerAt fd = some peer) : peer ∈ server.conns ∧ peer.conn.fd = fd :=
  ⟨List.mem_of_find?_eq_some found, by simpa using List.find?_some found⟩

theorem mem_closeConn : other ∈ (server.closeConn fd).conns ↔ other ∈ server.conns ∧ other.conn.fd ≠ fd := by
  simp [Server.closeConn]

namespace Numbered

theorem unique (numbered : Numbered server) (member : peer ∈ server.conns) (among : other ∈ server.conns)
    (same : peer.conn.fd = other.conn.fd) : peer = other :=
  List.inj_on_of_nodup_map numbered.distinct member among same

theorem peerAt (numbered : Numbered server) (member : peer ∈ server.conns) :
    server.peerAt peer.conn.fd = some peer := by
  cases found : server.peerAt peer.conn.fd with
  | none => simpa using List.find?_eq_none.mp found peer member
  | some other =>
    obtain ⟨among, same⟩ := mem_of_peerAt found
    rw [numbered.unique among member same]

theorem congr (numbered : Numbered server) (conns : next.conns = server.conns)
    (reserved : next.reserved = server.reserved) : Numbered next := by
  constructor
  · rw [conns]
    exact numbered.distinct
  · rw [conns, reserved]
    exact numbered.apart

theorem closeConn (numbered : Numbered server) (fd : ℤ) : Numbered (server.closeConn fd) where
  distinct := numbered.distinct.sublist (List.filter_sublist.map _)
  apart peer member := numbered.apart peer (mem_closeConn.mp member).1

theorem updateConn (numbered : Numbered server) (c : Conn) : Numbered (server.updateConn c) := by
  have ports : (server.updateConn c).conns.map (fun peer => peer.conn.fd) =
      server.conns.map fun peer => peer.conn.fd := by
    rw [← ReplyRouting.map_fst_ports, ReplyRouting.ports_updateConn, ReplyRouting.map_fst_ports]
  constructor
  · rw [ports]
    exact numbered.distinct
  · intro peer member
    have listed : peer.conn.fd ∈ (server.updateConn c).conns.map fun peer => peer.conn.fd := List.mem_map_of_mem member
    rw [ports] at listed
    obtain ⟨old, among, same⟩ := List.mem_map.mp listed
    rw [← same]
    exact numbered.apart old among

theorem nextFd_not_mem (server : Server) :
    server.nextFd ∉ server.reserved ∧ ∀ peer ∈ server.conns, peer.conn.fd ≠ server.nextFd := by
  have unused := lowestFree_not_mem (server.reserved ++ server.conns.map fun peer => peer.conn.fd)
  constructor
  · exact fun used => unused (List.mem_append_left _ used)
  · intro peer member same
    exact unused (List.mem_append_right _ (List.mem_map.mpr ⟨peer, member, same⟩))

theorem acceptConn (numbered : Numbered server) : Numbered server.acceptConn := by
  obtain ⟨free, unused⟩ := nextFd_not_mem server
  constructor
  · rw [Server.acceptConn, List.map_append]
    apply numbered.distinct.append (List.nodup_singleton _)
    intro fd used new
    obtain ⟨peer, member, same⟩ := List.mem_map.mp used
    apply unused peer member
    rw [same, List.mem_singleton.mp new]
    rfl
  · intro peer member
    rcases List.mem_append.mp member with old | new
    · exact numbered.apart peer old
    · rw [List.mem_singleton.mp new]
      exact free

end Numbered

/-- A read that completes no refused header changes its own connection and the queue. -/
theorem recvData_more {data : Bytes} {c : Conn} (taken : peer.conn.take data = .more c) :
    server.recvData peer data = { server.updateConn (fullFrame c).1 with
      queue := ((fullFrame c).2.map fun work => (⟨work, some peer.id⟩ : Item)).foldl pushBounded server.queue } := by
  have pushes (works : List Work) (server : Server) :
      works.foldl (fun s work => s.push ⟨work, some peer.id⟩) server =
        { server with
          queue := (works.map fun work => (⟨work, some peer.id⟩ : Item)).foldl pushBounded server.queue } := by
    induction works generalizing server with
    | nil => rfl
    | cons work works ih =>
      rw [List.foldl_cons, ih]
      rfl
  simp only [Server.recvData, taken, pushes]
  rfl

theorem mem_updateConn_self {c : Conn} (member : peer ∈ server.conns) (same : c.fd = peer.conn.fd) :
    ⟨peer.id, c⟩ ∈ (server.updateConn c).conns :=
  List.mem_map.mpr ⟨peer, member, if_pos same.symm⟩

theorem mem_updateConn_other {c : Conn} (member : other ∈ server.conns) (different : other.conn.fd ≠ c.fd) :
    other ∈ (server.updateConn c).conns :=
  List.mem_map.mpr ⟨other, member, if_neg different⟩

theorem mem_updateConn {c : Conn} (member : other ∈ (server.updateConn c).conns) :
    ∃ peer ∈ server.conns, peer.id = other.id ∧ peer.conn.fd = other.conn.fd := by
  obtain ⟨peer, among, rfl⟩ := List.mem_map.mp member
  refine ⟨peer, among, ?_⟩
  split
  next same => exact ⟨rfl, same⟩
  next => exact ⟨rfl, rfl⟩

/-- A worker takes from the front of the queue, touches no connection, and holds only what it took. -/
theorem worker_frame {e : Server.Event} (own : ServerLoop.ofWorker e = true) (stepped : server.step e = some next) :
    next.conns = server.conns ∧ next.accepted = server.accepted ∧ next.reserved = server.reserved ∧
      next.queue <:+ server.queue ∧ ReplyRouting.carried next ⊆ ReplyRouting.carried server := by
  have moved {i : ℕ} {old new : Worker} (found : server.workers[i]? = some old)
      (same : ReplyRouting.heldItems new ⊆ ReplyRouting.heldItems old) :
      ReplyRouting.carried (server.setWorker i new) ⊆ ReplyRouting.carried server := by
    intro item member
    rcases ReplyRouting.mem_carried_setWorker member with before | held
    · exact before
    · exact ReplyRouting.mem_carried_of_worker found (same held)
  cases Server.workerMoves_of_step own stepped with
  | @pop i item queue idle first =>
    refine ⟨rfl, rfl, rfl, first ▸ List.suffix_cons item queue, ?_⟩
    intro other member
    rw [ReplyRouting.carried, first]
    rcases ReplyRouting.mem_carried_setWorker member with before | held
    · rcases List.mem_append.mp before with waiting | working
      · exact List.mem_append_left _ (List.mem_cons_of_mem _ waiting)
      · exact List.mem_append_right _ working
    · rw [List.mem_singleton.mp held]
      exact List.mem_append_left _ List.mem_cons_self
  | act found | reply found | next _ found | wrote _ _ found =>
    exact ⟨rfl, rfl, rfl, List.suffix_rfl, moved found (List.Subset.refl _)⟩
  | done _ found => exact ⟨rfl, rfl, rfl, List.suffix_rfl, moved found (List.nil_subset _)⟩
  | interrupted => exact ⟨rfl, rfl, rfl, List.suffix_rfl, List.Subset.refl _⟩

end Descriptors

section Decoding

/-- One successful `read()` of a connection that waits for more: the frame it completes, if it does, is pushed,
and the connection waits again, or the header is refused. -/
theorem holding_recv {c : Conn} {consumed rest data : Bytes} {payloads : List Bytes} (holding : Holding c rest)
    (splits : framing.Splits consumed payloads rest) (fits : data.length ≤ c.wanted) :
    (∃ middle new rest', c.take data = .more middle ∧ (fullFrame middle).2 = new.map (workOf c.fd) ∧
        (fullFrame middle).1.fd = c.fd ∧ Holding (fullFrame middle).1 rest' ∧ framing.Incomplete rest' ∧
        framing.Splits (consumed ++ data) (payloads ++ new) rest') ∨
      ∃ middle, c.take data = .refused middle ∧ framing.Rejected (rest ++ data) ∧
        framing.Splits (consumed ++ data) payloads (rest ++ data) := by
  rcases holding.take fits with ⟨middle, taken, sameFd, held⟩ | ⟨middle, taken, rejected⟩
  · obtain ⟨after, new, rest', full, afterFd, waits, incomplete, admitted, received⟩ := held.settle
    refine .inl ⟨middle, new, rest', taken, ?_, ?_, ?_, incomplete, ?_⟩
    · rw [full, sameFd]
    · rw [full, ← sameFd]
      exact afterFd
    · rw [full]
      exact waits
    · rw [splits.stream_eq, List.append_assoc, received]
      apply LengthPrefix.Splits.prepend splits.admitted
      exact ⟨rfl, admitted, .inl incomplete⟩
  · refine .inr ⟨middle, taken, rejected, ?_, splits.admitted, .inr rejected⟩
    rw [splits.stream_eq, List.append_assoc]

/-- The works of one origin, in the order they were pushed. -/
def worksOf (pushed : List Item) (origin : Option ℕ) : List Work :=
  (pushed.filter fun item => item.origin = origin).map Item.work

theorem worksOf_append (first second : List Item) (origin : Option ℕ) :
    worksOf (first ++ second) origin = worksOf first origin ++ worksOf second origin := by
  rw [worksOf, List.filter_append, List.map_append]
  rfl

theorem worksOf_same (works : List Work) (origin : Option ℕ) :
    worksOf (works.map fun work => ⟨work, origin⟩) origin = works := by
  induction works with
  | nil => rfl
  | cons work works ih => simpa [worksOf] using ih

theorem worksOf_other {pushed : List Item} {origin : Option ℕ} (other : ∀ item ∈ pushed, item.origin ≠ origin) :
    worksOf pushed origin = [] := by
  rw [worksOf, List.filter_eq_nil_iff.mpr (by simpa using other), List.map_nil]

end Decoding

/-- What has to hold for a connection to be freed for some reason; the flags alone are none. -/
def Due (phase : Phase) (stream : Stream) (rest : Bytes) : Ending → Prop
  | .eof => stream.unread = [] ∧ stream.ended = true
  | .fault => True
  | .refused => framing.Rejected rest
  | .flagged => False
  | .cleanup => phase ≠ .looping

/-- The reports in hand that carry a number. -/
def InHand (s : ServerLoop) (fd : ℤ) : Prop := ∃ report ∈ s.reports, report.fd = fd

/-- An open connection: its decoder holds the unfinished frame, the frames before it have been pushed, and what
can be read will be reported or is in hand. -/
structure Live (s : ServerLoop) (peer : Peer) (client : Client) (payloads : List Bytes) (rest : Bytes) : Prop where
  earlier : peer.id < s.server.accepted
  member : peer ∈ s.server.conns
  port : client.port = .opened peer.conn.fd
  holding : Holding peer.conn rest
  incomplete : framing.Incomplete rest
  splits : framing.Splits client.stream.consumed payloads rest
  works : worksOf s.pushed (some peer.id) = payloads.map (workOf peer.conn.fd)
  attended : client.stream.Attended (InHand s peer.conn.fd)
  flags : ∀ report ∈ s.reports, report.fd = peer.conn.fd → report.hup = true → client.stream.ended = true

/-- Connection number `id`, in each of the three states it can be in. -/
inductive Followed (s : ServerLoop) (id : ℕ) (client : Client) : Prop
  | backlog (later : s.server.accepted ≤ id) (port : client.port = .backlog) (untouched : client.stream.consumed = [])
      (silent : worksOf s.pushed (some id) = [])
  | opened {c : Conn} {payloads : List Bytes} {rest : Bytes} (live : Live s ⟨id, c⟩ client payloads rest)
  | freed {fd : ℤ} {ending : Ending} {payloads : List Bytes} {rest : Bytes} (earlier : id < s.server.accepted)
      (port : client.port = .freed fd ending) (splits : framing.Splits client.stream.consumed payloads rest)
      (works : worksOf s.pushed (some id) = payloads.map (workOf fd)) (due : Due s.phase client.stream rest ending)

/-- What a step must leave alone for connection `id` to be followed on. -/
structure Undisturbed (s next : ServerLoop) (id : ℕ) : Prop where
  grows : s.server.accepted ≤ next.server.accepted
  later : s.server.accepted ≤ id → next.server.accepted ≤ id
  members : ∀ c, ⟨id, c⟩ ∈ s.server.conns → ⟨id, c⟩ ∈ next.server.conns
  works : worksOf next.pushed (some id) = worksOf s.pushed (some id)
  hands : ∀ c, ⟨id, c⟩ ∈ s.server.conns → ∀ report : Report, report.fd = c.fd →
    (report ∈ next.reports ↔ report ∈ s.reports)
  phase : s.phase ≠ .looping → next.phase ≠ .looping

theorem Undisturbed.of_clients (s : ServerLoop) (clients : List Client) (id : ℕ) :
    Undisturbed s { s with clients } id where
  grows := Nat.le_refl _
  later waits := waits
  members _ member := member
  works := rfl
  hands _ _ _ _ := .rfl
  phase left := left

theorem Undisturbed.of_phase (s : ServerLoop) (phase : Phase) (left : phase ≠ .looping) (id : ℕ) :
    Undisturbed s { s with phase } id where
  grows := Nat.le_refl _
  later waits := waits
  members _ member := member
  works := rfl
  hands _ _ _ _ := .rfl
  phase _ := left

theorem Due.later {phase next : Phase} {stream : Stream} {rest : Bytes} {ending : Ending}
    (due : Due phase stream rest ending) (kept : phase ≠ .looping → next ≠ .looping) : Due next stream rest ending := by
  cases ending with
  | eof => exact due
  | fault => trivial
  | refused => exact due
  | flagged => exact due
  | cleanup => exact kept due

namespace Followed

variable {s next : ServerLoop} {id : ℕ} {client : Client}

theorem keep (followed : Followed s id client) (calm : Undisturbed s next id) : Followed next id client := by
  cases followed with
  | backlog later port untouched silent => exact .backlog (calm.later later) port untouched (calm.works.trans silent)
  | @opened c payloads rest live =>
    have hands := calm.hands c live.member
    refine .opened { live with
      earlier := Nat.lt_of_lt_of_le live.earlier calm.grows
      member := calm.members c live.member
      works := calm.works.trans live.works
      attended := live.attended.mono ?_
      flags := ?_ }
    · rintro ⟨report, among, same⟩
      exact ⟨report, (hands report same).mpr among, same⟩
    · intro report among same
      exact live.flags report ((hands report same).mp among) same
  | freed earlier port splits works due =>
    exact .freed (Nat.lt_of_lt_of_le earlier calm.grows) port splits (calm.works.trans works) (due.later calm.phase)

/-- More bytes or the end of the stream; the kernel puts the socket on the ready list. -/
theorem setStream (followed : Followed s id client) (kept : ∀ fd ending, client.port ≠ .freed fd ending)
    {stream : Stream} (consumed : stream.consumed = client.stream.consumed) (edge : stream.edge = true)
    (ended : client.stream.ended = true → stream.ended = true) : Followed s id { client with stream } := by
  cases followed with
  | backlog later port untouched silent => exact .backlog later port (consumed.trans untouched) silent
  | opened live =>
    exact .opened { live with
      splits := by
        dsimp only
        rw [consumed]
        exact live.splits
      attended := fun _ => .inl edge
      flags := fun report among same hup => ended (live.flags report among same hup) }
  | freed earlier port splits works due => exact absurd port (kept _ _)

end Followed

/-- The invariant of the server loop. -/
structure Kept (s : ServerLoop) : Prop where
  numbered : Numbered s.server
  listening : s.sfd ∈ s.server.reserved
  bound : ∀ fd, s.ufd = some fd → fd ∈ s.server.reserved
  known : ∀ peer ∈ s.server.conns, ∃ client, s.clients[peer.id]? = some client ∧ client.port = .opened peer.conn.fd
  followed : ∀ id client, s.clients[id]? = some client → Followed s id client
  counted : s.server.accepted ≤ s.clients.length
  origins : ∀ item ∈ s.pushed, ∀ id, item.origin = some id → id < s.server.accepted
  distinct : (s.reports.map Report.fd).Nodup
  current : ∀ report ∈ s.reports, s.ofConn report = true → ∃ peer ∈ s.server.conns, peer.conn.fd = report.fd
  settled : s.phase ≠ .looping → s.reports = []
  closed : s.phase = .returned → s.server.conns = []

section Report

variable {fds : List ℤ} {client : Client}

theorem reportClient_other (other : ∀ fd ∈ fds, client.port ≠ .opened fd) :
    ServerLoop.reportClient fds client = client := by
  rw [ServerLoop.reportClient]
  split
  next fd port => rw [if_neg fun member => other fd member port]
  next => rfl

/-- Being reported changes nothing about a client but its place on the ready list. -/
theorem reportClient_eq (fds : List ℤ) (client : Client) :
    ∃ edge, ServerLoop.reportClient fds client = { client with stream := { client.stream with edge } } := by
  rw [ServerLoop.reportClient]
  split
  · split
    · exact ⟨false, rfl⟩
    · exact ⟨client.stream.edge, rfl⟩
  · exact ⟨client.stream.edge, rfl⟩

end Report

/-- A property of all clients after one of them has changed. -/
theorem forall_set {holds : ℕ → Client → Prop} {clients : List Client} {i : ℕ} {new : Client}
    (others : ∀ id client, id ≠ i → clients[id]? = some client → holds id client) (changed : holds i new) :
    ∀ id client, (clients.set i new)[id]? = some client → holds id client := by
  intro id client found
  by_cases same : id = i
  · subst same
    have inside : id < clients.length := by
      have := (List.getElem?_eq_some_iff.mp found).1
      rwa [List.length_set] at this
    rw [List.getElem?_set_self inside] at found
    cases found
    exact changed
  · rw [List.getElem?_set_ne (Ne.symm same)] at found
    exact others id client same found

namespace Kept

variable {s next : ServerLoop} {report : Report} {rest : List Report} {peer : Peer} {client : Client}

theorem start (others : List ℤ) (udp : Bool) (workerCount : ℕ) : Kept (.start others udp workerCount) where
  numbered := ⟨List.nodup_nil, by simp [ServerLoop.start, Server.start]⟩
  listening := by simp [ServerLoop.start, Server.start]
  bound fd found := by
    have : fd ∈ (ServerLoop.start others udp workerCount).ufd.toList := Option.mem_toList.mpr found
    exact List.mem_cons_of_mem _ (List.mem_append_left _ this)
  known := by simp [ServerLoop.start, Server.start]
  followed := by simp [ServerLoop.start]
  counted := Nat.le_refl 0
  origins := by simp [ServerLoop.start]
  distinct := List.nodup_nil
  current := by simp [ServerLoop.start]
  settled _ := rfl
  closed returned := by cases returned

/-- A report of an open connection gets past the tests for `sfd` and `ufd`. -/
theorem ofConn (kept : Kept s) (member : peer ∈ s.server.conns) (same : peer.conn.fd = report.fd) :
    s.ofConn report = true := by
  have apart := kept.numbered.apart peer member
  rw [same] at apart
  simp only [ServerLoop.ofConn, Bool.and_eq_true, decide_eq_true_eq]
  constructor
  · intro sfd
    exact apart (sfd ▸ kept.listening)
  · intro ufd
    exact apart (kept.bound _ ufd)

theorem reserved_of_other (kept : Kept s) (other : ¬ s.ofConn report = true) : report.fd ∈ s.server.reserved := by
  simp only [ServerLoop.ofConn, Bool.and_eq_true, decide_eq_true_eq, not_and_or, not_not] at other
  rcases other with sfd | ufd
  · rw [sfd]
    exact kept.listening
  · exact kept.bound _ ufd

/-- The connection that is open under a number is the one its port says. -/
theorem live (kept : Kept s) (member : peer ∈ s.server.conns) (found : s.clients[peer.id]? = some client) :
    ∃ payloads rest, Live s peer client payloads rest := by
  obtain ⟨same, known, port⟩ := kept.known peer member
  rw [found] at known
  cases known
  cases kept.followed peer.id client found with
  | backlog later waits untouched silent =>
    rw [waits] at port
    cases port
  | @opened c payloads rest live =>
    have fds : c.fd = peer.conn.fd := by simpa [live.port] using port
    have unique : ⟨peer.id, c⟩ = peer := kept.numbered.unique live.member member fds
    rw [unique] at live
    exact ⟨payloads, rest, live⟩
  | freed earlier gone =>
    rw [gone] at port
    cases port

theorem served (kept : Kept s) (serving : s.Serving report rest peer client) :
    ∃ payloads last, Live s peer client payloads last :=
  kept.live (mem_of_peerAt serving.found).1 serving.client

/-- Other connections have other numbers. -/
theorem fd_ne (kept : Kept s) (member : peer ∈ s.server.conns) {id : ℕ} (other : id ≠ peer.id) {c : Conn}
    (among : ⟨id, c⟩ ∈ s.server.conns) : c.fd ≠ peer.conn.fd := by
  intro same
  have unique : ⟨id, c⟩ = peer := kept.numbered.unique among member same
  exact other (congrArg Peer.id unique)

theorem id_ne (kept : Kept s) (member : peer ∈ s.server.conns) {other : Peer} (among : other ∈ s.server.conns)
    (different : other.conn.fd ≠ peer.conn.fd) : other.id ≠ peer.id := by
  intro same
  obtain ⟨client, found, port⟩ := kept.known peer member
  obtain ⟨client', found', port'⟩ := kept.known other among
  rw [same, found] at found'
  cases found'
  rw [port] at port'
  exact different (by simpa using port'.symm)

/-- Steps that change no connection, no client, and no report. -/
theorem congr (kept : Kept s) (fds : next.sfd = s.sfd ∧ next.ufd = s.ufd) (clients : next.clients = s.clients)
    (conns : next.server.conns = s.server.conns) (accepted : next.server.accepted = s.server.accepted)
    (reserved : next.server.reserved = s.server.reserved) (reports : next.reports = s.reports)
    (phase : next.phase = s.phase) (works : ∀ id : ℕ, worksOf next.pushed (some id) = worksOf s.pushed (some id))
    (origins : ∀ item ∈ next.pushed, item ∈ s.pushed ∨ item.origin = none) : Kept next := by
  obtain ⟨sfd, ufd⟩ := fds
  constructor
  case numbered => exact kept.numbered.congr conns reserved
  case listening =>
    rw [sfd, reserved]
    exact kept.listening
  case bound =>
    rw [ufd, reserved]
    exact kept.bound
  case known =>
    rw [conns, clients]
    exact kept.known
  case followed =>
    intro id client found
    rw [clients] at found
    exact (kept.followed id client found).keep
      ⟨by rw [accepted], fun later => by rwa [accepted], fun c member => by rwa [conns], works id,
        fun c member report same => by rw [reports], fun left => by rwa [phase]⟩
  case counted =>
    rw [accepted, clients]
    exact kept.counted
  case origins =>
    intro item member id origin
    rw [accepted]
    rcases origins item member with old | datagram
    · exact kept.origins item old id origin
    · rw [datagram] at origin
      cases origin
  case distinct =>
    rw [reports]
    exact kept.distinct
  case current =>
    intro report member conn
    rw [reports] at member
    rw [conns]
    rw [ServerLoop.ofConn, sfd, ufd] at conn
    exact kept.current report member conn
  case settled =>
    rw [phase, reports]
    exact kept.settled
  case closed =>
    rw [phase, conns]
    exact kept.closed

theorem connect (kept : Kept s) : Kept { s with clients := s.clients ++ [⟨.fresh, .backlog⟩] } := by
  refine { kept with known := ?_, followed := ?_, counted := ?_ }
  · intro peer member
    obtain ⟨client, found, port⟩ := kept.known peer member
    refine ⟨client, ?_, port⟩
    rw [List.getElem?_append_left (List.getElem?_eq_some_iff.mp found).1]
    exact found
  · intro id client found
    by_cases inside : id < s.clients.length
    · rw [List.getElem?_append_left inside] at found
      exact (kept.followed id client found).keep (.of_clients ..)
    · rw [List.getElem?_append_right (Nat.not_lt.mp inside), List.getElem?_singleton] at found
      cases (Option.ite_none_right_eq_some.mp found).2
      have later : s.server.accepted ≤ id := Nat.le_trans kept.counted (Nat.not_lt.mp inside)
      refine .backlog later rfl rfl (worksOf_other ?_)
      intro item member origin
      exact Nat.not_lt.mpr later (kept.origins item member id origin)
  · rw [List.length_append]
    exact Nat.le_add_right_of_le kept.counted

/-- Whatever happens to a stream, its port stays. -/
theorem known_setStream (kept : Kept s) {id : ℕ} (found : s.clients[id]? = some client) (stream : Stream) :
    ∀ peer ∈ s.server.conns, ∃ new, (s.setStream id client stream).clients[peer.id]? = some new ∧
      new.port = .opened peer.conn.fd := by
  intro peer member
  obtain ⟨old, known, port⟩ := kept.known peer member
  by_cases same : peer.id = id
  · rw [same, found] at known
    cases known
    refine ⟨{ client with stream }, ?_, port⟩
    rw [same]
    exact List.getElem?_set_self (List.getElem?_eq_some_iff.mp found).1
  · refine ⟨old, ?_, port⟩
    rw [ServerLoop.setStream, List.getElem?_set_ne (Ne.symm same)]
    exact known

theorem setStream (kept : Kept s) {id : ℕ} (found : s.clients[id]? = some client) {stream : Stream}
    (changed : Followed s id { client with stream }) : Kept (s.setStream id client stream) := by
  refine { kept with
    known := kept.known_setStream found stream
    followed := forall_set ?_ (changed.keep (.of_clients ..))
    counted := ?_ }
  · intro other client _ among
    exact (kept.followed other client among).keep (.of_clients ..)
  · rw [ServerLoop.setStream, List.length_set]
    exact kept.counted

/-- Leaving the inner loop of a report lets go of a connection only if there is nothing left to read. -/
theorem pop (kept : Kept s) (head : s.reports = report :: rest)
    (drained : ∀ peer ∈ s.server.conns, peer.conn.fd = report.fd → ∀ client, s.clients[peer.id]? = some client →
      ¬ client.stream.Pending) : Kept { s with reports := rest } := by
  have fewer : ∀ other ∈ rest, other ∈ s.reports := by
    intro other member
    rw [head]
    exact List.mem_cons_of_mem _ member
  refine { kept with followed := ?_, distinct := ?_, current := ?_, settled := ?_ }
  · intro id client found
    cases kept.followed id client found with
    | backlog later port untouched silent => exact .backlog later port untouched silent
    | @opened c payloads last live =>
      refine .opened { live with attended := ?_, flags := ?_ }
      · by_cases same : c.fd = report.fd
        · exact .of_drained (drained _ live.member same client found)
        · refine live.attended.mono ?_
          rintro ⟨other, among, equal⟩
          rw [head] at among
          rcases List.mem_cons.mp among with rfl | later
          · exact absurd equal.symm same
          · exact ⟨other, later, equal⟩
      · intro other member
        exact live.flags other (fewer other member)
    | freed earlier port splits works due => exact .freed earlier port splits works due
  · have distinct := kept.distinct
    rw [head] at distinct
    exact (List.nodup_cons.mp distinct).2
  · intro other member
    exact kept.current other (fewer other member)
  · intro left
    have none := kept.settled left
    rw [head] at none
    cases none

/-- A report that belongs to no connection. -/
theorem pass (kept : Kept s) (head : s.reports = report :: rest)
    (other : s.ofConn report = true → s.server.peerAt report.fd = none) : Kept { s with reports := rest } := by
  apply kept.pop head
  intro peer member same
  have missing := other (kept.ofConn member same)
  rw [← same, kept.numbered.peerAt member] at missing
  cases missing

/-- A connection is freed, and with it goes its report. -/
theorem free (kept : Kept s) (member : peer ∈ s.server.conns) (found : s.clients[peer.id]? = some client)
    {payloads : List Bytes} {last : Bytes} {stream : Stream} {ending : Ending} {reports : List Report}
    (splits : framing.Splits stream.consumed payloads last)
    (works : worksOf s.pushed (some peer.id) = payloads.map (workOf peer.conn.fd))
    (due : Due s.phase stream last ending)
    (fewer : reports.Sublist s.reports)
    (others : ∀ report ∈ s.reports, report.fd ≠ peer.conn.fd → report ∈ reports)
    (gone : ∀ report ∈ reports, report.fd ≠ peer.conn.fd) :
    Kept { s.free peer stream ending with reports := reports } := by
  obtain ⟨_, _, live⟩ := kept.live member found
  have inside := (List.getElem?_eq_some_iff.mp found).1
  refine ⟨kept.numbered.closeConn _, kept.listening, kept.bound, ?_, forall_set ?_ ?_, ?_, kept.origins, ?_, ?_, ?_, ?_⟩
  · intro other among
    obtain ⟨stays, different⟩ := mem_closeConn.mp among
    obtain ⟨client, known, port⟩ := kept.known other stays
    refine ⟨client, ?_, port⟩
    rw [ServerLoop.free, List.getElem?_set_ne (Ne.symm (kept.id_ne member stays different))]
    exact known
  · intro id client other known
    refine (kept.followed id client known).keep
      ⟨Nat.le_refl _, fun later => later, ?_, rfl, ?_, fun left => left⟩
    · intro c among
      exact mem_closeConn.mpr ⟨among, kept.fd_ne member other among⟩
    · intro c among report same
      have different := kept.fd_ne member other among
      rw [← same] at different
      exact ⟨fun stays => fewer.subset stays, fun old => others report old different⟩
  · exact .freed live.earlier rfl splits works due
  · rw [ServerLoop.free, List.length_set]
    exact kept.counted
  · exact kept.distinct.sublist (fewer.map _)
  · intro report among conn
    obtain ⟨other, stays, same⟩ := kept.current report (fewer.subset among) conn
    refine ⟨other, mem_closeConn.mpr ⟨stays, ?_⟩, same⟩
    rw [same]
    exact gone report among
  · intro left
    have none := kept.settled left
    rw [none] at fewer
    exact List.sublist_nil.mp fewer
  · intro returned
    have none : s.server.conns = [] := kept.closed returned
    rw [none] at member
    cases member

/-- The connection being served is freed. -/
theorem freeServed (kept : Kept s) (serving : s.Serving report rest peer client) {payloads : List Bytes} {last : Bytes}
    {stream : Stream} {ending : Ending} (splits : framing.Splits stream.consumed payloads last)
    (works : worksOf s.pushed (some peer.id) = payloads.map (workOf peer.conn.fd))
    (due : Due s.phase stream last ending) :
    Kept { s.free peer stream ending with reports := rest } := by
  obtain ⟨member, same⟩ := mem_of_peerAt serving.found
  have distinct := kept.distinct
  rw [serving.head] at distinct
  refine kept.free member serving.client splits works due ?_ ?_ ?_
  · rw [serving.head]
    exact List.sublist_cons_self ..
  · intro other among different
    rw [serving.head] at among
    rcases List.mem_cons.mp among with rfl | later
    · exact absurd same.symm different
    · exact later
  · intro other later equal
    apply (List.nodup_cons.mp distinct).1
    rw [← same, ← equal]
    exact List.mem_map_of_mem later

theorem accept (kept : Kept s) (head : s.reports = report :: rest)
    (found : s.clients[s.server.accepted]? = some client) :
    Kept { s with
      server := s.server.acceptConn
      clients := s.clients.set s.server.accepted ⟨client.stream.register, .opened s.server.nextFd⟩ } := by
  obtain ⟨free, unused⟩ := Numbered.nextFd_not_mem s.server
  have inside := (List.getElem?_eq_some_iff.mp found).1
  -- No report in hand carries the number that `accept` returns.
  have fresh : ∀ report ∈ s.reports, report.fd ≠ s.server.nextFd := by
    intro report member same
    by_cases conn : s.ofConn report = true
    · obtain ⟨peer, among, equal⟩ := kept.current report member conn
      exact unused peer among (equal.trans same)
    · exact free (same ▸ kept.reserved_of_other conn)
  refine ⟨kept.numbered.acceptConn, kept.listening, kept.bound, ?_, forall_set ?_ ?_, ?_, ?_, kept.distinct, ?_,
    kept.settled, ?_⟩
  · intro peer member
    rcases List.mem_append.mp member with old | new
    · obtain ⟨client, known, port⟩ := kept.known peer old
      obtain ⟨_, _, live⟩ := kept.live old known
      refine ⟨client, ?_, port⟩
      rw [List.getElem?_set_ne (Nat.ne_of_gt live.earlier)]
      exact known
    · rw [List.mem_singleton.mp new]
      exact ⟨_, List.getElem?_set_self inside, rfl⟩
  · intro id client other known
    refine (kept.followed id client known).keep
      ⟨Nat.le_succ _, ?_, fun c member => List.mem_append_left _ member, rfl, fun _ _ _ _ => .rfl, fun left => left⟩
    intro later
    exact Nat.succ_le_of_lt (Nat.lt_of_le_of_ne later (Ne.symm other))
  · cases kept.followed _ client found with
    | backlog later port untouched silent =>
      have start : framing.Splits client.stream.register.consumed [] [] :=
        ⟨untouched, by simp, .inl (.inl (by decide))⟩
      refine .opened (c := connNew s.server.nextFd) ⟨Nat.lt_succ_self _, List.mem_append_right _ List.mem_cons_self,
        rfl, holding_connNew _, .inl (by decide), start, silent, .register _ _, ?_⟩
      intro report member same
      exact absurd same (fresh report member)
    | opened live => exact absurd live.earlier (Nat.lt_irrefl _)
    | freed earlier => exact absurd earlier (Nat.lt_irrefl _)
  · rw [List.length_set]
    exact inside
  · intro item member id origin
    exact Nat.lt_succ_of_lt (kept.origins item member id origin)
  · intro report member conn
    obtain ⟨peer, among, same⟩ := kept.current report member conn
    exact ⟨peer, List.mem_append_left _ among, same⟩
  · intro returned
    have none := kept.settled (by rw [returned]; decide)
    rw [head] at none
    cases none

/-- The bytes of a `read()` go into the decoder, and a complete frame into the queue. -/
theorem recv (kept : Kept s) (serving : s.Serving report rest peer client) {more : ℕ} {data : Bytes} {c : Conn}
    (result : client.stream.read more peer.conn.wanted = .data data) (taken : peer.conn.take data = .more c) :
    Kept { s.setStream peer.id client (client.stream.consume data.length) with
      server := s.server.recvData peer data
      pushed := s.pushed ++ (fullFrame c).2.map fun work => ⟨work, some peer.id⟩ } := by
  obtain ⟨member, number⟩ := mem_of_peerAt serving.found
  obtain ⟨payloads, last, live⟩ := kept.served serving
  obtain ⟨-, fits, cut⟩ := Stream.read_data result
  have inside := (List.getElem?_eq_some_iff.mp serving.client).1
  obtain ⟨new, last', pushed, sameFd, holding, incomplete, splits⟩ :
      ∃ new last', (fullFrame c).2 = new.map (workOf peer.conn.fd) ∧ (fullFrame c).1.fd = peer.conn.fd ∧
        Holding (fullFrame c).1 last' ∧ framing.Incomplete last' ∧
        framing.Splits (client.stream.consume data.length).consumed (payloads ++ new) last' := by
    rcases holding_recv live.holding live.splits fits with ⟨middle, new, last', more, decoded⟩ | ⟨middle, refused, -⟩
    · rw [taken] at more
      cases more
      refine ⟨new, last', ?_⟩
      rwa [Stream.consume, cut, List.take_left]
    · rw [taken] at refused
      cases refused
  rw [recvData_more taken]
  refine ⟨(kept.numbered.updateConn (fullFrame c).1).congr rfl rfl, kept.listening, kept.bound, ?_, forall_set ?_ ?_,
    ?_, ?_, kept.distinct, ?_, kept.settled, ?_⟩
  · intro other among
    obtain ⟨old, before, sameId, sameNumber⟩ := mem_updateConn among
    rw [← sameId, ← sameNumber]
    exact kept.known_setStream serving.client _ old before
  · intro id other different known
    refine (kept.followed id other known).keep
      ⟨Nat.le_refl _, fun later => later, ?_, ?_, fun _ _ _ _ => .rfl, fun left => left⟩
    · intro c' among
      apply mem_updateConn_other among
      rw [sameFd]
      exact kept.fd_ne member different among
    · have others : worksOf ((fullFrame c).2.map fun work => ⟨work, some peer.id⟩) (some id) = [] := by
        apply worksOf_other
        intro item fresh
        obtain ⟨work, -, rfl⟩ := List.mem_map.mp fresh
        simpa using Ne.symm different
      rw [worksOf_append, others, List.append_nil]
  · refine .opened (c := (fullFrame c).1) ⟨live.earlier, mem_updateConn_self member sameFd, ?_, holding, incomplete,
      splits, ?_, ?_, ?_⟩
    · rw [sameFd]
      exact live.port
    · rw [worksOf_append, worksOf_same, live.works, pushed, List.map_append, sameFd]
    · apply Stream.Attended.of_hand
      refine ⟨report, ?_, number.symm.trans sameFd.symm⟩
      change report ∈ s.reports
      rw [serving.head]
      exact List.mem_cons_self
    · rw [sameFd]
      exact live.flags
  · change s.server.accepted ≤ (s.clients.set _ _).length
    rw [List.length_set]
    exact kept.counted
  · intro item among id origin
    rcases List.mem_append.mp among with old | new
    · exact kept.origins item old id origin
    · obtain ⟨work, -, rfl⟩ := List.mem_map.mp new
      cases origin
      exact live.earlier
  · intro other among conn
    obtain ⟨old, before, same⟩ := kept.current other among conn
    by_cases own : old.conn.fd = (fullFrame c).1.fd
    · exact ⟨_, mem_updateConn_self member sameFd, (own.symm.trans same)⟩
    · exact ⟨old, mem_updateConn_other before own, same⟩
  · intro returned
    have none : s.server.conns = [] := kept.closed returned
    rw [none] at member
    cases member

theorem clientAt (kept : Kept s) (member : peer ∈ s.server.conns) (found : s.clients[peer.id]? = some client) :
    s.clientAt peer.conn.fd = some client := by
  simp only [ServerLoop.clientAt, kept.numbered.peerAt member, Option.bind_eq_bind, Option.bind_some, found]

/-- `epoll_wait` takes what it reports off the ready list, and into the hands of the loop. -/
theorem wait (kept : Kept s) {fds : List ℤ} (looping : s.phase = .looping) (idle : s.reports = [])
    (distinct : fds.Nodup) (ready : ∀ fd ∈ fds, s.readyAt fd = true) :
    Kept { s with
      reports := fds.map fun fd => ⟨fd, s.hupAt fd⟩
      clients := s.clients.map (ServerLoop.reportClient fds) } := by
  refine { kept with known := ?_, followed := ?_, counted := ?_, distinct := ?_, current := ?_, settled := ?_ }
  · intro peer member
    obtain ⟨client, known, port⟩ := kept.known peer member
    refine ⟨ServerLoop.reportClient fds client, ?_, ?_⟩
    · rw [List.getElem?_map, known]
      rfl
    · obtain ⟨edge, same⟩ := reportClient_eq fds client
      rw [same, port]
  · intro id reported found
    rw [List.getElem?_map] at found
    obtain ⟨client, known, rfl⟩ := Option.map_eq_some_iff.mp found
    cases kept.followed id client known with
    | backlog later port untouched silent =>
      rw [reportClient_other (by simp [port])]
      exact .backlog later port untouched silent
    | @opened c payloads last live =>
      have ended : s.hupAt c.fd = client.stream.ended := by
        rw [ServerLoop.hupAt, kept.clientAt live.member known]
        rfl
      obtain ⟨edge, same⟩ := reportClient_eq fds client
      refine .opened { live with port := ?_, splits := ?_, attended := ?_, flags := ?_ }
      · rw [same]
        exact live.port
      · rw [same]
        exact live.splits
      · by_cases reported : c.fd ∈ fds
        · exact .of_hand ⟨_, List.mem_map_of_mem reported, rfl⟩
        · have other : ∀ fd ∈ fds, client.port ≠ .opened fd := by
            intro fd member port
            rw [live.port] at port
            cases port
            exact reported member
          rw [reportClient_other other]
          refine live.attended.mono ?_
          rintro ⟨report, among, -⟩
          rw [idle] at among
          cases among
      · intro report among number hup
        obtain ⟨fd, -, rfl⟩ := List.mem_map.mp among
        obtain rfl : fd = c.fd := number
        rw [same, ← ended]
        exact hup
    | freed earlier port splits works due =>
      rw [reportClient_other (by simp [port])]
      exact .freed earlier port splits works due
  · rw [List.length_map]
    exact kept.counted
  · rw [List.map_map]
    exact (List.map_id fds).symm ▸ distinct
  · intro report member conn
    obtain ⟨fd, among, rfl⟩ := List.mem_map.mp member
    simp only [ServerLoop.ofConn, Bool.and_eq_true, decide_eq_true_eq] at conn
    have edge := ready fd among
    rw [ServerLoop.readyAt, if_neg conn.1, if_neg conn.2] at edge
    cases holds : s.server.peerAt fd with
    | none => simp [ServerLoop.clientAt, holds] at edge
    | some peer => exact ⟨peer, mem_of_peerAt holds⟩
  · intro left
    exact absurd looping left

theorem step (kept : Kept s) {e : ServerLoop.Event} (stepped : ServerLoop.machine.step s e = some next) :
    Kept next := by
  cases ServerLoop.moves_of_step stepped with
  | connect => exact kept.connect
  | send bytes found still going =>
    exact kept.setStream found ((kept.followed _ _ found).setStream still rfl rfl fun ended => ended)
  | finish found still => exact kept.setStream found ((kept.followed _ _ found).setStream still rfl rfl fun _ => rfl)
  | sendto data => exact kept.congr ⟨rfl, rfl⟩ rfl rfl rfl rfl rfl rfl (fun _ => rfl) fun _ => .inl
  | worker own worked =>
    obtain ⟨conns, accepted, reserved, -⟩ := worker_frame own worked
    exact kept.congr ⟨rfl, rfl⟩ rfl conns accepted reserved rfl rfl (fun _ => rfl) fun _ => .inl
  | wait looping idle distinct ready => exact kept.wait looping idle distinct ready
  | waitFailed looping idle =>
    refine { kept with followed := ?_, settled := fun _ => idle, closed := by simp }
    intro id client found
    exact (kept.followed id client found).keep (.of_phase s .leaving (by simp) id)
  | accept head listening found => exact kept.accept head found
  | pass call head other => exact kept.pass head other
  | takeEmpty head other first empty =>
    have passed := kept.pass head (by simp [other])
    exact passed.congr ⟨rfl, rfl⟩ rfl rfl rfl rfl rfl rfl (fun _ => rfl) fun _ => .inl
  | take head first bytes =>
    refine kept.congr ⟨rfl, rfl⟩ rfl rfl rfl rfl rfl rfl ?_ ?_
    · intro id
      exact (worksOf_append ..).trans (List.append_nil _)
    · intro item member
      rcases List.mem_append.mp member with old | new
      · exact .inl old
      · exact .inr (by rw [List.mem_singleton.mp new])
  | recv serving result taken => exact kept.recv serving result taken
  | refused serving result taken =>
    obtain ⟨payloads, last, live⟩ := kept.served serving
    obtain ⟨-, fits, cut⟩ := Stream.read_data result
    rcases holding_recv live.holding live.splits fits with ⟨middle, _, _, more, -⟩ | ⟨middle, refused, rejected, splits⟩
    · rw [taken] at more
      cases more
    · refine kept.freeServed serving ?_ live.works (show Due _ _ (last ++ _) .refused from rejected)
      rwa [Stream.consume, cut, List.take_left]
  | eof serving result =>
    obtain ⟨payloads, last, live⟩ := kept.served serving
    exact kept.freeServed serving live.splits live.works
      (Stream.read_eof (live.holding.wanted_pos live.incomplete) result)
  | fault call serving =>
    obtain ⟨payloads, last, live⟩ := kept.served serving
    exact kept.freeServed serving live.splits live.works trivial
  | flagged serving result hup =>
    obtain ⟨payloads, last, live⟩ := kept.served serving
    have drained := Stream.read_again (live.holding.wanted_pos live.incomplete) result
    have ended := live.flags _ (by rw [serving.head]; exact List.mem_cons_self) (mem_of_peerAt serving.found).2.symm hup
    exact absurd (.inr ended) drained
  | again serving result =>
    obtain ⟨payloads, last, live⟩ := kept.served serving
    have drained := Stream.read_again (live.holding.wanted_pos live.incomplete) result
    apply kept.pop serving.head
    intro other among number client' found
    have same := kept.numbered.unique among live.member (number.trans (mem_of_peerAt serving.found).2.symm)
    rw [same, serving.client] at found
    cases found
    exact drained
  | @cleanup peer conns client leaving first found =>
    have left : s.phase ≠ .looping := by simp [leaving]
    have member : peer ∈ s.server.conns := by
      rw [first]
      exact List.mem_cons_self
    obtain ⟨payloads, last, live⟩ := kept.live member found
    have none := kept.settled left
    exact kept.free member found live.splits live.works left (.refl _) (fun report among _ => among) (by simp [none])
  | returned leaving none =>
    have left : s.phase ≠ .looping := by simp [leaving]
    refine { kept with followed := ?_, settled := fun _ => kept.settled left, closed := fun _ => none }
    intro id client found
    exact (kept.followed id client found).keep (.of_phase s .returned (by simp) id)

/-- A report in hand can always be served: the search through `g_conns` finds its connection. -/
theorem serves (kept : Kept s) (head : s.reports = report :: rest) :
    ∃ e : ServerLoop.Event, e.isCall = true ∧ (s.step e).isSome = true := by
  by_cases listening : report.fd = s.sfd
  · exact ⟨.accept, rfl, by simp [ServerLoop.step, head, listening]⟩
  by_cases bound : s.ufd = some report.fd
  · exact ⟨.recvfrom, rfl, by simp [ServerLoop.step, head, listening, bound]⟩
  have conn : s.ofConn report = true := by simp [ServerLoop.ofConn, listening, bound]
  have member : report ∈ s.reports := by
    rw [head]
    exact List.mem_cons_self
  obtain ⟨peer, among, same⟩ := kept.current report member conn
  obtain ⟨client, found, -⟩ := kept.known peer among
  have listed : s.server.peerAt report.fd = some peer := by
    rw [← same]
    exact kept.numbered.peerAt among
  exact ⟨.read 0, rfl, by simp [ServerLoop.step, head, conn, listed, found]⟩

end Kept

end ProcessMonitor.Soundness.ConnectionInvariant
