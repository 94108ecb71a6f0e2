import ProcessMonitor.Model.Vts.NetServer
import ProcessMonitor.Model.Vts.ReqHandler

/-! # The server loop and its workers over shared descriptors

`run_server_loop` accepts connections, reads their frames, and frees them; the workers take works off
the queue and write the replies to `peer_fd`. Between these stands only the number of a descriptor, and
the kernel gives a closed number out again. The steps are single system calls of the server loop and
single critical sections and `write()` calls of a worker. Connections are numbered in the order they
were accepted, and each item carries, for the record only, the connection its frame was received on.
-/

namespace ProcessMonitor.Model.Vts

open Machine Machine.Posix

/-- A member of `g_conns`, with the number of the connection. -/
structure Peer where
  id : ℕ
  conn : Conn
deriving DecidableEq, Repr

/-- A work with the connection that sent it; a datagram has none. -/
structure Item where
  work : Work
  origin : Option ℕ
deriving DecidableEq, Repr

/-- A thread in `worker_fn`: waiting, in a handler, or in `send_length_prefixed` with the buffers that
are still to be written. -/
inductive Worker
  | idle
  | handling (item : Item) (rest : Handler)
  | sending (item : Item) (left : List Bytes)

/-- Reply bytes that one `write()` put on the connection `target`. -/
structure Delivery where
  target : ℕ
  origin : Option ℕ
  bytes : Bytes
deriving DecidableEq, Repr

/-- `reserved` are the descriptors of the process that are no connections, such as the listening
socket. The queue is the list that the linked nodes represent. -/
structure Server where
  reserved : List ℤ
  conns : List Peer
  accepted : ℕ
  queue : List Item
  workers : List Worker
  shared : Shared
  wire : List Delivery

namespace Server

def start (reserved : List ℤ) (workerCount : ℕ) : Server :=
  ⟨reserved, [], 0, [], List.replicate workerCount .idle, .start, []⟩

/-- `recv` is one successful `read()`, `hangup` the end of a connection: end of file, an error, or a flag
of the event. The workers are named by their place. -/
inductive Event
  | accept
  | recv (fd : ℤ) (data : Bytes)
  | hangup (fd : ℤ)
  | datagram (data : Bytes)
  | pop (worker : ℕ)
  | act (worker : ℕ)
  | reply (worker : ℕ)
  | write (worker : ℕ) (answer : WriteAnswer)
deriving DecidableEq, Repr

/-- The number `accept()` returns. -/
def nextFd (s : Server) : ℤ := lowestFree (s.reserved ++ s.conns.map fun peer => peer.conn.fd)

/-- The search of `run_server_loop`, and what the kernel has open under a number. -/
def peerAt (s : Server) (fd : ℤ) : Option Peer := s.conns.find? fun peer => peer.conn.fd = fd

def acceptConn (s : Server) : Server :=
  { s with conns := s.conns ++ [⟨s.accepted, connNew s.nextFd⟩], accepted := s.accepted + 1 }

/-- `conn_free`, after the connection has been removed from the list. -/
def closeConn (s : Server) (fd : ℤ) : Server :=
  { s with conns := s.conns.filter fun peer => peer.conn.fd ≠ fd }

def updateConn (s : Server) (c : Conn) : Server :=
  { s with conns := s.conns.map fun peer => if peer.conn.fd = c.fd then { peer with conn := c } else peer }

/-- `req_queue_push` -/
def push (s : Server) (item : Item) : Server := { s with queue := pushBounded s.queue item }

/-- What the loop does with the bytes of one `read()`: a refused header ends the connection, and a
complete frame is pushed. -/
def recvData (s : Server) (peer : Peer) (data : Bytes) : Server :=
  match peer.conn.take data with
  | .refused c => s.closeConn c.fd
  | .more c =>
    let (c, works) := fullFrame c
    works.foldl (fun s work => s.push ⟨work, some peer.id⟩) (s.updateConn c)

def setWorker (s : Server) (i : ℕ) (worker : Worker) : Server := { s with workers := s.workers.set i worker }

/-- One `write()` of `write_full`: a closed descriptor is an error, and an error ends the buffer but not
the reply. -/
def writeOnce (s : Server) (i : ℕ) (item : Item) (buffer : Bytes) (left : List Bytes) (answer : WriteAnswer) :
    Server :=
  match s.peerAt item.work.peerFd, answer with
  | some peer, .accept more =>
    let n := min (more + 1) buffer.length
    { s.setWorker i (.sending item (buffer.drop n :: left)) with
      wire := s.wire ++ [⟨peer.id, item.origin, buffer.take n⟩] }
  | some _, .interrupted => s
  | _, _ => s.setWorker i (.sending item left)

def step (s : Server) : Event → Option Server
  | .accept => some s.acceptConn
  | .recv fd data => do
    let peer ← s.peerAt fd
    if 0 < data.length ∧ data.length ≤ peer.conn.wanted then some (s.recvData peer data) else none
  | .hangup fd => if (s.peerAt fd).isSome then some (s.closeConn fd) else none
  | .datagram data =>
    if 0 < data.length ∧ data.length ≤ 2048 then
      some (s.push ⟨WorkQueue.makeWork data data.length (-1), none⟩)
    else none
  | .pop i =>
    match s.workers[i]?, s.queue with
    | some .idle, item :: queue =>
      some ({ s with queue }.setWorker i (.handling item (processOne item.work.payload)))
    | _, _ => none
  | .act i =>
    match s.workers[i]? with
    | some (.handling item rest) =>
      (rest.act s.shared).map fun (shared, rest) => { s with shared }.setWorker i (.handling item rest)
    | _ => none
  | .reply i =>
    match s.workers[i]? with
    | some (.handling item (.reply r)) => some (s.setWorker i (.sending item r.segments))
    | _ => none
  | .write i answer =>
    match s.workers[i]? with
    | some (.sending _ []) => some (s.setWorker i .idle)
    | some (.sending item ([] :: left)) => some (s.setWorker i (.sending item left))
    | some (.sending item (buffer :: left)) => some (s.writeOnce i item buffer left answer)
    | _ => none

def machine : EventMachine Server Event := ⟨step⟩

end Server

end ProcessMonitor.Model.Vts
