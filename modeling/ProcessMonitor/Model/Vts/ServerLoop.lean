import ProcessMonitor.Machine.Posix.EdgeTriggered
import ProcessMonitor.Model.Vts.Server

/-! # `run_server_loop` with its `epoll` set

The loop waits, and goes through what `epoll_wait` reported: it accepts connections until there are none
left, takes datagrams until there are none left, and enters `read_from_conn` on the one connection whose
descriptor was reported. Each step is one system call with what the loop does on its answer; the report
being served stays at the head of the list until its inner loop is left. Clients, the workers, and the loop
take their steps in any order. The kernel is truthful: it reports a hang-up flag exactly if the peer has
ended, and says `EAGAIN` or end of file only when the receive buffer is empty. Allocations succeed.
-/

namespace ProcessMonitor.Model.Vts

open Machine Machine.Posix

/-- Why `conn_free` was called: `read_from_conn` met the end, an error, or a refused length, the event carried
a hang-up flag while `read_from_conn` returned 1, or the loop was left. -/
inductive Ending
  | eof
  | fault
  | refused
  | flagged
  | cleanup
deriving DecidableEq, Repr

/-- Where a connection stands with the server. -/
inductive Port
  | backlog
  | opened (fd : ℤ)
  | freed (fd : ℤ) (ending : Ending)
deriving DecidableEq, Repr

/-- A connection, from the handshake on. -/
structure Client where
  stream : Stream
  port : Port
deriving DecidableEq, Repr

/-- A `struct epoll_event`; `hup` is any of `EPOLLHUP`, `EPOLLRDHUP`, and `EPOLLERR`. -/
structure Report where
  fd : ℤ
  hup : Bool
deriving DecidableEq, Repr

inductive Phase
  | looping
  | leaving
  | returned
deriving DecidableEq, Repr

/-- The clients are numbered in the order of their handshakes, which is the order `accept` returns them in.
`reports` are the events the loop has not gone past, and none at `epoll_wait`. For the record, `taken` are the
datagrams received so far, and `pushed` the arguments of `req_queue_push`. -/
structure ServerLoop where
  sfd : ℤ
  ufd : Option ℤ
  server : Server
  clients : List Client
  datagrams : List Bytes
  taken : List Bytes
  reports : List Report
  phase : Phase
  pushed : List Item

namespace ServerLoop

def maxEvents : ℕ := 256

/-- `sizeof(buf)` of the datagram branch. -/
def datagramSize : ℕ := 2048

/-- The loop is entered with the descriptors `others` already open; without `udp` there is no `ufd`. -/
def start (others : List ℤ) (udp : Bool) (workerCount : ℕ) : ServerLoop :=
  let sfd := lowestFree others
  let ufd := if udp then some (lowestFree (sfd :: others)) else none
  let efd := lowestFree (ufd.toList ++ sfd :: others)
  ⟨sfd, ufd, .start (efd :: (ufd.toList ++ sfd :: others)) workerCount, [], [], [], [], .looping, []⟩

/-- The steps of the clients, of the workers, and of the loop. `more` bounds what a call may return, and a
call `…Failed` sets an `errno` other than `EAGAIN`. -/
inductive Event
  | connect
  | send (id : ℕ) (bytes : Bytes)
  | finish (id : ℕ)
  | sendto (data : Bytes)
  | worker (e : Server.Event)
  | wait (fds : List ℤ)
  | waitFailed
  | accept
  | acceptFailed
  | recvfrom
  | recvfromFailed
  | read (more : ℕ)
  | readFailed
  | skip
  | cleanup
deriving DecidableEq, Repr

/-- What the workers do. -/
def ofWorker : Server.Event → Bool
  | .pop _ | .act _ | .reply _ | .write _ _ => true
  | _ => false

/-- The connection that is open under a number. -/
def clientAt (s : ServerLoop) (fd : ℤ) : Option Client := do
  let peer ← s.server.peerAt fd
  s.clients[peer.id]?

/-- What `epoll_wait` may report: `sfd` and `ufd` as long as there is something, a connection once. -/
def readyAt (s : ServerLoop) (fd : ℤ) : Bool :=
  if fd = s.sfd then decide (s.server.accepted < s.clients.length)
  else if s.ufd = some fd then !s.datagrams.isEmpty
  else (s.clientAt fd).any fun client => client.stream.edge

def hupAt (s : ServerLoop) (fd : ℤ) : Bool := (s.clientAt fd).any fun client => client.stream.ended

def reportClient (fds : List ℤ) (client : Client) : Client :=
  match client.port with
  | .opened fd => if fd ∈ fds then { client with stream := client.stream.report } else client
  | _ => client

def setStream (s : ServerLoop) (id : ℕ) (client : Client) (stream : Stream) : ServerLoop :=
  { s with clients := s.clients.set id { client with stream } }

def push (s : ServerLoop) (item : Item) : ServerLoop :=
  { s with server := s.server.push item, pushed := s.pushed ++ [item] }

/-- The connection is taken off the list and freed. -/
def free (s : ServerLoop) (peer : Peer) (stream : Stream) (ending : Ending) : ServerLoop :=
  { s with
    server := s.server.closeConn peer.conn.fd
    clients := s.clients.set peer.id ⟨stream, .freed peer.conn.fd ending⟩ }

/-- One `accept`; with an empty backlog it leaves the inner loop. -/
def acceptOne (s : ServerLoop) (rest : List Report) : ServerLoop :=
  match s.clients[s.server.accepted]? with
  | some client =>
    { s with
      server := s.server.acceptConn
      clients := s.clients.set s.server.accepted ⟨client.stream.register, .opened s.server.nextFd⟩ }
  | none => { s with reports := rest }

/-- One `recvfrom`; `EAGAIN` and an empty datagram leave the inner loop. -/
def recvfromOne (s : ServerLoop) (rest : List Report) : ServerLoop :=
  match s.datagrams with
  | [] => { s with reports := rest }
  | data :: datagrams =>
    let received := data.take datagramSize
    let s := { s with datagrams, taken := s.taken ++ [data] }
    if received = [] then { s with reports := rest }
    else s.push ⟨WorkQueue.makeWork received received.length (-1), none⟩

/-- The bytes of one `read()` of `read_from_conn`. -/
def recvOne (s : ServerLoop) (peer : Peer) (client : Client) (data : Bytes) (rest : List Report) : ServerLoop :=
  let stream := client.stream.consume data.length
  match peer.conn.take data with
  | .refused _ => { s.free peer stream .refused with reports := rest }
  | .more c =>
    { s.setStream peer.id client stream with
      server := s.server.recvData peer data
      pushed := s.pushed ++ (fullFrame c).2.map fun work => ⟨work, some peer.id⟩ }

/-- One `read()` of `read_from_conn`, and what the loop does if that makes it return. -/
def readOne (s : ServerLoop) (peer : Peer) (client : Client) (report : Report) (rest : List Report) (more : ℕ) :
    ServerLoop :=
  match client.stream.read more peer.conn.wanted with
  | .data data => s.recvOne peer client data rest
  | .eof => { s.free peer client.stream .eof with reports := rest }
  | .error => { s.free peer client.stream .fault with reports := rest }
  | .again =>
    if report.hup then { s.free peer client.stream .flagged with reports := rest } else { s with reports := rest }

/-- The head of the reports is a connection, by the order of the tests in the loop. -/
def ofConn (s : ServerLoop) (report : Report) : Bool := report.fd ≠ s.sfd && s.ufd ≠ some report.fd

def step (s : ServerLoop) : Event → Option ServerLoop
  | .connect => some { s with clients := s.clients ++ [⟨.fresh, .backlog⟩] }
  | .send id bytes =>
    match s.clients[id]? with
    | some client =>
      match client.port with
      | .freed _ _ => none
      | _ => if client.stream.ended then none else some (s.setStream id client (client.stream.arrive bytes))
    | none => none
  | .finish id =>
    match s.clients[id]? with
    | some client =>
      match client.port with
      | .freed _ _ => none
      | _ => some (s.setStream id client client.stream.finish)
    | none => none
  | .sendto data => if s.ufd.isSome then some { s with datagrams := s.datagrams ++ [data] } else none
  | .worker e => if ofWorker e then (s.server.step e).map fun server => { s with server } else none
  | .wait fds =>
    if s.phase = .looping ∧ s.reports = [] ∧ fds.Nodup ∧ fds.length ≤ maxEvents ∧ ∀ fd ∈ fds, s.readyAt fd then
      some { s with
        reports := fds.map fun fd => ⟨fd, s.hupAt fd⟩
        clients := s.clients.map (reportClient fds) }
    else none
  | .waitFailed => if s.phase = .looping ∧ s.reports = [] then some { s with phase := .leaving } else none
  | .accept =>
    match s.reports with
    | report :: rest => if report.fd = s.sfd then some (s.acceptOne rest) else none
    | [] => none
  | .acceptFailed =>
    match s.reports with
    | report :: rest => if report.fd = s.sfd then some { s with reports := rest } else none
    | [] => none
  | .recvfrom =>
    match s.reports with
    | report :: rest =>
      if report.fd ≠ s.sfd ∧ s.ufd = some report.fd then some (s.recvfromOne rest) else none
    | [] => none
  | .recvfromFailed =>
    match s.reports with
    | report :: rest =>
      if report.fd ≠ s.sfd ∧ s.ufd = some report.fd then some { s with reports := rest } else none
    | [] => none
  | .read more =>
    match s.reports with
    | report :: rest =>
      if s.ofConn report then do
        let peer ← s.server.peerAt report.fd
        let client ← s.clients[peer.id]?
        some (s.readOne peer client report rest more)
      else none
    | [] => none
  | .readFailed =>
    match s.reports with
    | report :: rest =>
      if s.ofConn report then do
        let peer ← s.server.peerAt report.fd
        let client ← s.clients[peer.id]?
        some { s.free peer client.stream .fault with reports := rest }
      else none
    | [] => none
  | .skip =>
    -- The search through `g_conns` found no member with the number.
    match s.reports with
    | report :: rest =>
      if s.ofConn report ∧ s.server.peerAt report.fd = none then some { s with reports := rest } else none
    | [] => none
  | .cleanup =>
    if s.phase = .leaving then
      match s.server.conns with
      | peer :: _ => (s.clients[peer.id]?).map fun client => s.free peer client.stream .cleanup
      | [] => some { s with phase := .returned }
    else none

def machine : EventMachine ServerLoop Event := ⟨step⟩

/-- The system calls of the loop on a report. -/
def Event.isCall : Event → Bool
  | .accept | .acceptFailed | .recvfrom | .recvfromFailed | .read _ | .readFailed | .skip => true
  | _ => false

section Moves

variable (s : ServerLoop)

/-- The report `report` is served, and it is the connection `peer` with its `client`. -/
structure Serving (report : Report) (rest : List Report) (peer : Peer) (client : Client) : Prop where
  head : s.reports = report :: rest
  conn : s.ofConn report = true
  found : s.server.peerAt report.fd = some peer
  client : s.clients[peer.id]? = some client

/-- Every step, with the tests it has passed. -/
inductive Moves : Event → ServerLoop → Prop
  | connect : Moves .connect { s with clients := s.clients ++ [⟨.fresh, .backlog⟩] }
  | send {id : ℕ} {client : Client} (bytes : Bytes) (found : s.clients[id]? = some client)
      (kept : ∀ fd ending, client.port ≠ .freed fd ending) (going : client.stream.ended = false) :
      Moves (.send id bytes) (s.setStream id client (client.stream.arrive bytes))
  | finish {id : ℕ} {client : Client} (found : s.clients[id]? = some client)
      (kept : ∀ fd ending, client.port ≠ .freed fd ending) :
      Moves (.finish id) (s.setStream id client client.stream.finish)
  | sendto (data : Bytes) (bound : s.ufd.isSome = true) :
      Moves (.sendto data) { s with datagrams := s.datagrams ++ [data] }
  | worker {e : Server.Event} {server : Server} (own : ofWorker e = true) (stepped : s.server.step e = some server) :
      Moves (.worker e) { s with server }
  | wait {fds : List ℤ} (looping : s.phase = .looping) (idle : s.reports = []) (distinct : fds.Nodup)
      (ready : ∀ fd ∈ fds, s.readyAt fd = true) :
      Moves (.wait fds) { s with
        reports := fds.map fun fd => ⟨fd, s.hupAt fd⟩
        clients := s.clients.map (reportClient fds) }
  | waitFailed (looping : s.phase = .looping) (idle : s.reports = []) :
      Moves .waitFailed { s with phase := .leaving }
  | accept {report : Report} {rest : List Report} {client : Client} (head : s.reports = report :: rest)
      (listening : report.fd = s.sfd) (found : s.clients[s.server.accepted]? = some client) :
      Moves .accept { s with
        server := s.server.acceptConn
        clients := s.clients.set s.server.accepted ⟨client.stream.register, .opened s.server.nextFd⟩ }
  | pass {e : Event} {report : Report} {rest : List Report} (call : e.isCall = true) (head : s.reports = report :: rest)
      (other : s.ofConn report = true → s.server.peerAt report.fd = none) :
      Moves e { s with reports := rest }
  | takeEmpty {report : Report} {rest : List Report} {data : Bytes} {datagrams : List Bytes}
      (head : s.reports = report :: rest) (other : s.ofConn report = false) (first : s.datagrams = data :: datagrams)
      (empty : data.take datagramSize = []) :
      Moves .recvfrom { s with datagrams, taken := s.taken ++ [data], reports := rest }
  | take {report : Report} {rest : List Report} {data : Bytes} {datagrams : List Bytes}
      (head : s.reports = report :: rest) (first : s.datagrams = data :: datagrams)
      (bytes : data.take datagramSize ≠ []) :
      Moves .recvfrom ({ s with datagrams, taken := s.taken ++ [data] }.push
        ⟨WorkQueue.makeWork (data.take datagramSize) (data.take datagramSize).length (-1), none⟩)
  | recv {report : Report} {rest : List Report} {peer : Peer} {client : Client} {more : ℕ} {data : Bytes} {c : Conn}
      (serving : s.Serving report rest peer client) (result : client.stream.read more peer.conn.wanted = .data data)
      (taken : peer.conn.take data = .more c) :
      Moves (.read more) { s.setStream peer.id client (client.stream.consume data.length) with
        server := s.server.recvData peer data
        pushed := s.pushed ++ (fullFrame c).2.map fun work => ⟨work, some peer.id⟩ }
  | refused {report : Report} {rest : List Report} {peer : Peer} {client : Client} {more : ℕ} {data : Bytes} {c : Conn}
      (serving : s.Serving report rest peer client) (result : client.stream.read more peer.conn.wanted = .data data)
      (taken : peer.conn.take data = .refused c) :
      Moves (.read more) { s.free peer (client.stream.consume data.length) .refused with reports := rest }
  | eof {report : Report} {rest : List Report} {peer : Peer} {client : Client} {more : ℕ}
      (serving : s.Serving report rest peer client) (result : client.stream.read more peer.conn.wanted = .eof) :
      Moves (.read more) { s.free peer client.stream .eof with reports := rest }
  | fault {e : Event} {report : Report} {rest : List Report} {peer : Peer} {client : Client} (call : e.isCall = true)
      (serving : s.Serving report rest peer client) :
      Moves e { s.free peer client.stream .fault with reports := rest }
  | flagged {report : Report} {rest : List Report} {peer : Peer} {client : Client} {more : ℕ}
      (serving : s.Serving report rest peer client) (result : client.stream.read more peer.conn.wanted = .again)
      (hup : report.hup = true) :
      Moves (.read more) { s.free peer client.stream .flagged with reports := rest }
  | again {report : Report} {rest : List Report} {peer : Peer} {client : Client} {more : ℕ}
      (serving : s.Serving report rest peer client) (result : client.stream.read more peer.conn.wanted = .again) :
      Moves (.read more) { s with reports := rest }
  | cleanup {peer : Peer} {conns : List Peer} {client : Client} (leaving : s.phase = .leaving)
      (first : s.server.conns = peer :: conns) (found : s.clients[peer.id]? = some client) :
      Moves .cleanup (s.free peer client.stream .cleanup)
  | returned (leaving : s.phase = .leaving) (none : s.server.conns = []) :
      Moves .cleanup { s with phase := .returned }

variable {s}

private theorem ofConn_listening {report : Report} (listening : report.fd = s.sfd) : s.ofConn report = false := by
  simp [ofConn, listening]

private theorem ofConn_datagrams {report : Report} (bound : s.ufd = some report.fd) : s.ofConn report = false := by
  simp [ofConn, bound]

theorem moves_readOne {report : Report} {rest : List Report} {peer : Peer} {client : Client}
    (serving : s.Serving report rest peer client) (more : ℕ) :
    s.Moves (.read more) (s.readOne peer client report rest more) := by
  unfold readOne
  split
  next data result =>
    unfold recvOne
    dsimp only
    split
    next c taken => exact .refused serving result taken
    next c taken => exact .recv serving result taken
  next result => exact .eof serving result
  next result => exact .fault rfl serving
  next result =>
    split
    next hup => exact .flagged serving result hup
    next => exact .again serving result

theorem moves_acceptOne {report : Report} {rest : List Report} (head : s.reports = report :: rest)
    (listening : report.fd = s.sfd) : s.Moves .accept (s.acceptOne rest) := by
  unfold acceptOne
  split
  next client found => exact .accept head listening found
  next => exact .pass rfl head (by simp [ofConn_listening listening])

theorem moves_recvfromOne {report : Report} {rest : List Report} (head : s.reports = report :: rest)
    (bound : s.ufd = some report.fd) : s.Moves .recvfrom (s.recvfromOne rest) := by
  have other := ofConn_datagrams bound
  unfold recvfromOne
  split
  next => exact .pass rfl head (by simp [other])
  next data datagrams first =>
    dsimp only
    split
    next empty => exact .takeEmpty head other first empty
    next bytes => exact .take head first bytes

/-- The step function takes no other steps. -/
theorem moves_of_step {e : Event} {next : ServerLoop} (stepped : s.step e = some next) : s.Moves e next := by
  cases e with
  | connect =>
    cases stepped
    exact .connect
  | send id bytes =>
    simp only [step] at stepped
    split at stepped
    next client found =>
      split at stepped
      next => cases stepped
      next kept =>
        obtain ⟨going, same⟩ := Option.ite_none_left_eq_some.mp stepped
        cases same
        exact .send bytes found kept (Bool.eq_false_iff.mpr going)
    next => cases stepped
  | finish id =>
    simp only [step] at stepped
    split at stepped
    next client found =>
      split at stepped
      next => cases stepped
      next kept =>
        cases stepped
        exact .finish found kept
    next => cases stepped
  | sendto data =>
    obtain ⟨bound, same⟩ := Option.ite_none_right_eq_some.mp stepped
    cases same
    exact .sendto data bound
  | worker e =>
    obtain ⟨own, mapped⟩ := Option.ite_none_right_eq_some.mp stepped
    obtain ⟨server, worked, rfl⟩ := Option.map_eq_some_iff.mp mapped
    exact .worker own worked
  | wait fds =>
    obtain ⟨⟨looping, idle, distinct, -, ready⟩, same⟩ := Option.ite_none_right_eq_some.mp stepped
    cases same
    exact .wait looping idle distinct ready
  | waitFailed =>
    obtain ⟨⟨looping, idle⟩, same⟩ := Option.ite_none_right_eq_some.mp stepped
    cases same
    exact .waitFailed looping idle
  | accept =>
    simp only [step] at stepped
    split at stepped
    next report rest head =>
      obtain ⟨listening, same⟩ := Option.ite_none_right_eq_some.mp stepped
      cases same
      exact moves_acceptOne head listening
    next => cases stepped
  | acceptFailed =>
    simp only [step] at stepped
    split at stepped
    next report rest head =>
      obtain ⟨listening, same⟩ := Option.ite_none_right_eq_some.mp stepped
      cases same
      exact .pass rfl head (by simp [ofConn_listening listening])
    next => cases stepped
  | recvfrom =>
    simp only [step] at stepped
    split at stepped
    next report rest head =>
      obtain ⟨⟨-, bound⟩, same⟩ := Option.ite_none_right_eq_some.mp stepped
      cases same
      exact moves_recvfromOne head bound
    next => cases stepped
  | recvfromFailed =>
    simp only [step] at stepped
    split at stepped
    next report rest head =>
      obtain ⟨⟨-, bound⟩, same⟩ := Option.ite_none_right_eq_some.mp stepped
      cases same
      exact .pass rfl head (by simp [ofConn_datagrams bound])
    next => cases stepped
  | read more =>
    simp only [step] at stepped
    split at stepped
    next report rest head =>
      obtain ⟨conn, serves⟩ := Option.ite_none_right_eq_some.mp stepped
      obtain ⟨peer, found, reads⟩ := Option.bind_eq_some_iff.mp serves
      obtain ⟨client, known, same⟩ := Option.bind_eq_some_iff.mp reads
      cases same
      exact moves_readOne ⟨head, conn, found, known⟩ more
    next => cases stepped
  | readFailed =>
    simp only [step] at stepped
    split at stepped
    next report rest head =>
      obtain ⟨conn, serves⟩ := Option.ite_none_right_eq_some.mp stepped
      obtain ⟨peer, found, reads⟩ := Option.bind_eq_some_iff.mp serves
      obtain ⟨client, known, same⟩ := Option.bind_eq_some_iff.mp reads
      cases same
      exact .fault rfl ⟨head, conn, found, known⟩
    next => cases stepped
  | skip =>
    simp only [step] at stepped
    split at stepped
    next report rest head =>
      obtain ⟨⟨-, missing⟩, same⟩ := Option.ite_none_right_eq_some.mp stepped
      cases same
      exact .pass rfl head fun _ => missing
    next => cases stepped
  | cleanup =>
    obtain ⟨leaving, same⟩ := Option.ite_none_right_eq_some.mp stepped
    split at same
    next peer conns first =>
      obtain ⟨client, found, rfl⟩ := Option.map_eq_some_iff.mp same
      exact .cleanup leaving first found
    next none =>
      cases same
      exact .returned leaving none

end Moves

end ServerLoop

namespace Server

/-- What a worker can do. A write that fails, or one on a descriptor that is not open, ends its buffer. -/
inductive WorkerMoves (s : Server) : Event → Server → Prop
  | pop {i : ℕ} {item : Item} {queue : List Item} (idle : s.workers[i]? = some .idle)
      (first : s.queue = item :: queue) :
      WorkerMoves s (.pop i) ({ s with queue }.setWorker i (.handling item (processOne item.work.payload)))
  | act {i : ℕ} {item : Item} {h rest : Handler} {shared : Shared} (found : s.workers[i]? = some (.handling item h))
      (acted : h.act s.shared = some (shared, rest)) :
      WorkerMoves s (.act i) ({ s with shared }.setWorker i (.handling item rest))
  | reply {i : ℕ} {item : Item} {r : Reply} (found : s.workers[i]? = some (.handling item (.reply r))) :
      WorkerMoves s (.reply i) (s.setWorker i (.sending item r.segments))
  | done {i : ℕ} {item : Item} (answer : WriteAnswer) (found : s.workers[i]? = some (.sending item [])) :
      WorkerMoves s (.write i answer) (s.setWorker i .idle)
  | next {i : ℕ} {item : Item} {buffer : Bytes} {left : List Bytes} (answer : WriteAnswer)
      (found : s.workers[i]? = some (.sending item (buffer :: left))) :
      WorkerMoves s (.write i answer) (s.setWorker i (.sending item left))
  | wrote {i : ℕ} {item : Item} {buffer : Bytes} {left : List Bytes} {peer : Peer} (n : ℕ) (answer : WriteAnswer)
      (found : s.workers[i]? = some (.sending item (buffer :: left)))
      (target : s.peerAt item.work.peerFd = some peer) :
      WorkerMoves s (.write i answer)
        { s.setWorker i (.sending item (buffer.drop n :: left)) with
          wire := s.wire ++ [⟨peer.id, item.origin, buffer.take n⟩] }
  | interrupted {i : ℕ} (answer : WriteAnswer) : WorkerMoves s (.write i answer) s

theorem workerMoves_of_step {s next : Server} {e : Event} (own : ServerLoop.ofWorker e = true)
    (stepped : s.step e = some next) : s.WorkerMoves e next := by
  cases e with
  | accept => cases own
  | recv fd data => cases own
  | hangup fd => cases own
  | datagram data => cases own
  | pop i =>
    simp only [step] at stepped
    split at stepped
    next item queue idle first =>
      cases stepped
      exact .pop idle first
    next => cases stepped
  | act i =>
    simp only [step] at stepped
    split at stepped
    next item h found =>
      obtain ⟨⟨shared, rest⟩, acted, rfl⟩ := Option.map_eq_some_iff.mp stepped
      exact .act found acted
    next => cases stepped
  | reply i =>
    simp only [step] at stepped
    split at stepped
    next item r found =>
      cases stepped
      exact .reply found
    next => cases stepped
  | write i answer =>
    simp only [step] at stepped
    split at stepped
    next item found =>
      cases stepped
      exact .done answer found
    next item left found =>
      cases stepped
      exact .next answer found
    next item buffer left _ found =>
      cases stepped
      unfold writeOnce
      split
      next peer more target => exact .wrote _ _ found target
      next => exact .interrupted _
      next => exact .next _ found
    next => cases stepped

end Server

end ProcessMonitor.Model.Vts
