import ProcessMonitor.Machine.Posix.Socket
import ProcessMonitor.Model.Vts.Protocol
import ProcessMonitor.Model.Vts.WorkQueue

/-! # The receiving side of one TCP connection

`read_from_conn` is a resumable decoder: it may stop after any byte and is entered again, on the
same `struct conn`, at the next readiness event. Its loop is cut here at the calls of `read()`:
`Conn.take` is what happens to the bytes of one successful call, and `fullFrame` is the block
after the payload loop, which the source reaches before it reads again. The server loop frees the
connection as soon as a result is not positive or the event carries a hang-up flag.
-/

namespace ProcessMonitor.Model.Vts

open Machine Machine.Posix

/-- `struct conn` without its list links; a null payload is `none`. -/
structure Conn where
  fd : ℤ
  header : Bytes
  headerRead : ℕ
  payloadLen : ℕ
  payload : Option Bytes
  payloadRead : ℕ
deriving DecidableEq, Repr

/-- `calloc` clears every field. -/
def connNew (fd : ℤ) : Conn := ⟨fd, [0, 0, 0, 0], 0, 0, none, 0⟩

/-- Bytes stored into a buffer from an offset on. -/
def storeAt (buffer : Bytes) (offset : ℕ) (data : Bytes) : Bytes :=
  buffer.take offset ++ data ++ buffer.drop (offset + data.length)

/-- `handle_frame`: the buffer goes to the queue and the connection forgets it. -/
def handleFrame (c : Conn) : Conn × Work :=
  ({ c with payload := none, payloadLen := 0, payloadRead := 0 },
    WorkQueue.makeWork (c.payload.getD []) c.payloadLen c.fd)

/-- The block after the payload loop, reached when the loop has nothing left to read. -/
def fullFrame (c : Conn) : Conn × List Work :=
  if 4 ≤ c.headerRead ∧ c.payloadLen ≤ c.payloadRead then
    let (c, work) := handleFrame { c with headerRead := 0 }
    (c, [work])
  else (c, [])

/-- The count passed to the next `read()`. -/
def Conn.wanted (c : Conn) : ℕ :=
  if c.headerRead < 4 then 4 - c.headerRead else c.payloadLen - c.payloadRead

/-- A successful `read()` leaves the loop going, or completes a header with a refused length. -/
inductive Taken
  | more (c : Conn)
  | refused (c : Conn)
deriving DecidableEq, Repr

def Conn.storeHeader (c : Conn) (data : Bytes) : Conn :=
  { c with
    header := storeAt c.header c.headerRead data
    headerRead := c.headerRead + data.length }

/-- `malloc(plen)`, which is assumed to succeed; its contents are overwritten before use. -/
def Conn.openPayload (c : Conn) (plen : ℕ) : Conn :=
  { c with payloadLen := plen, payload := some (List.replicate plen 0), payloadRead := 0 }

def Conn.storePayload (c : Conn) (data : Bytes) : Conn :=
  { c with
    payload := c.payload.map fun buffer => storeAt buffer c.payloadRead data
    payloadRead := c.payloadRead + data.length }

/-- What the loop does with the bytes of one `read()`. -/
def Conn.take (c : Conn) (data : Bytes) : Taken :=
  if c.headerRead < 4 then
    let c := c.storeHeader data
    if c.headerRead < 4 then .more c
    else
      let plen := le32ToHost (loadU32 c.header)
      if plen = 0 ∨ vtsMaxFrame < plen then .refused c else .more (c.openPayload plen)
  else .more (c.storePayload data)

/-- The result of one call of `read_from_conn`: its return value, the connection it leaves, the
bytes still in the socket, and the works it handed to `req_queue_push`. -/
structure ReadRun where
  ret : ℤ
  conn : Conn
  unread : Bytes
  pushed : List Work
deriving DecidableEq, Repr

/-- `read_from_conn` against the kernel's answers; no answer left is one more `EAGAIN`. -/
def readFromConn (c : Conn) (unread : Bytes) : List Answer → ReadRun
  | [] => ⟨1, (fullFrame c).1, unread, (fullFrame c).2⟩
  | answer :: answers =>
    let (c, pushed) := fullFrame c
    match Posix.read answer unread c.wanted with
    | .eof => ⟨0, c, unread, pushed⟩
    | .again => ⟨1, c, unread, pushed⟩
    | .error => ⟨-1, c, unread, pushed⟩
    | .data data =>
      match c.take data with
      | .refused c => ⟨-1, c, unread.drop data.length, pushed⟩
      | .more c =>
        let run := readFromConn c (unread.drop data.length) answers
        { run with pushed := pushed ++ run.pushed }

/-- One epoll event on the connection: the kernel's answers while it is served, and whether it
carries `EPOLLHUP`, `EPOLLRDHUP`, or `EPOLLERR`. -/
structure Readiness where
  answers : List Answer
  hup : Bool
deriving DecidableEq, Repr

/-- A connection under `run_server_loop`; after `conn_free` there is none left. -/
structure Served where
  conn : Option Conn
  ret : ℤ
  unread : Bytes
  pushed : List Work
deriving DecidableEq, Repr

/-- The events of one connection: each enters `read_from_conn` again until it is freed. -/
def serveConn (c : Conn) (unread : Bytes) : List Readiness → Served
  | [] => ⟨some c, 1, unread, []⟩
  | event :: events =>
    let run := readFromConn c unread event.answers
    if run.ret ≤ 0 ∨ event.hup then ⟨none, run.ret, run.unread, run.pushed⟩
    else
      let rest := serveConn run.conn run.unread events
      { rest with pushed := run.pushed ++ rest.pushed }

end ProcessMonitor.Model.Vts
