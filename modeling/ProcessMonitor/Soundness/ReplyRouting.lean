import ProcessMonitor.Model.Vts.Server
import ProcessMonitor.Soundness.WorkQueueHistory

/-! # Replies and the connections they are written to

A work carries only the number of its descriptor. As long as `accept` never hands out a number that a
queued work or one in process still carries, the number denotes the connection the work came from or
nothing, and every byte of a reply goes there. A single reuse of a number is enough to send a reply
to a stranger.
-/

namespace ProcessMonitor.Soundness.ReplyRouting

open Machine Machine.Posix Model.Vts

/-- The works a worker holds. -/
def heldItems : Worker → List Item
  | .idle => []
  | .handling item _ | .sending item _ => [item]

/-- The works that are queued or in process. -/
def carried (s : Server) : List Item := s.queue ++ s.workers.flatMap heldItems

/-- No work still carries the number that `accept` hands out. -/
def FreshDescriptor (s : Server) : Server.Event → Prop
  | .accept => ∀ item ∈ carried s, item.work.peerFd ≠ s.nextFd
  | _ => True

instance (s : Server) (e : Server.Event) : Decidable (FreshDescriptor s e) := by
  unfold FreshDescriptor
  split <;> infer_instance

/-- Everything written to a connection answers a frame received on it. -/
def Routed (s : Server) : Prop := ∀ delivery ∈ s.wire, delivery.origin = some delivery.target

/-- The open descriptors, each with the number of its connection. -/
def ports (s : Server) : List (ℤ × ℕ) := s.conns.map fun peer => (peer.conn.fd, peer.id)

/-- If the descriptor of the work is open, it is the connection the work came from. -/
def Bound (s : Server) (item : Item) : Prop :=
  ∀ port ∈ ports s, port.1 = item.work.peerFd → item.origin = some port.2

/-- The invariant of runs without reuse. -/
structure Traced (s : Server) : Prop where
  distinct : ((ports s).map Prod.fst).Nodup
  nonneg : ∀ port ∈ ports s, 0 ≤ port.1
  items : ∀ item ∈ carried s, Bound s item
  routed : Routed s

theorem map_fst_ports (s : Server) : (ports s).map Prod.fst = s.conns.map fun peer => peer.conn.fd := by
  rw [ports, List.map_map]
  rfl

theorem mem_ports {s : Server} {fd : ℤ} {peer : Peer} (found : s.peerAt fd = some peer) :
    (fd, peer.id) ∈ ports s := by
  have same : peer.conn.fd = fd := by simpa using List.find?_some found
  rw [← same]
  exact List.mem_map_of_mem (List.mem_of_find?_eq_some found)

theorem mem_carried_of_worker {s : Server} {i : ℕ} {worker : Worker} (found : s.workers[i]? = some worker)
    {item : Item} (held : item ∈ heldItems worker) : item ∈ carried s :=
  List.mem_append_right _ (List.mem_flatMap.mpr ⟨worker, List.mem_of_getElem? found, held⟩)

/-- A worker's next state brings in at most what that state holds. -/
theorem mem_carried_setWorker {s : Server} {i : ℕ} {worker : Worker} {item : Item}
    (member : item ∈ carried (s.setWorker i worker)) : item ∈ carried s ∨ item ∈ heldItems worker := by
  rcases List.mem_append.mp member with queued | held
  · exact .inl (List.mem_append_left _ queued)
  · obtain ⟨other, inWorkers, holds⟩ := List.mem_flatMap.mp held
    rcases List.mem_or_eq_of_mem_set inWorkers with old | rfl
    · exact .inl (List.mem_append_right _ (List.mem_flatMap.mpr ⟨other, old, holds⟩))
    · exact .inr holds

/-- A push brings in at most the pushed work. -/
theorem mem_carried_push {s : Server} {new item : Item} (member : item ∈ carried (s.push new)) :
    item ∈ carried s ∨ item = new := by
  rcases List.mem_append.mp member with queued | held
  · rcases List.mem_append.mp queued with kept | last
    · refine .inl (List.mem_append_left _ ?_)
      split at kept
      · exact List.mem_of_mem_tail kept
      · exact kept
    · exact .inr (List.mem_singleton.mp last)
  · exact .inl (List.mem_append_right _ held)

theorem ports_acceptConn (s : Server) : ports s.acceptConn = ports s ++ [(s.nextFd, s.accepted)] := by
  rw [ports, Server.acceptConn, List.map_append]
  rfl

/-- The number that `accept` hands out is not in use. -/
theorem nextFd_unused (s : Server) : s.nextFd ∉ (ports s).map Prod.fst := by
  rw [map_fst_ports]
  intro used
  exact lowestFree_not_mem (s.reserved ++ s.conns.map fun peer => peer.conn.fd) (List.mem_append_right _ used)

theorem ports_updateConn (s : Server) (c : Conn) : ports (s.updateConn c) = ports s := by
  rw [ports, ports, Server.updateConn, List.map_map]
  apply List.map_congr_left
  intro peer _
  dsimp only [Function.comp]
  split
  next same => rw [same]
  next => rfl

/-- No read changes the descriptor of its connection. -/
theorem take_fd (c : Conn) (data : Bytes) :
    (∀ next, c.take data = .more next → next.fd = c.fd) ∧ ∀ next, c.take data = .refused next → next.fd = c.fd := by
  unfold Conn.take
  dsimp only
  split_ifs
  all_goals
    constructor
    all_goals
      intro next taken
      cases taken
    rfl

theorem fullFrame_fd (c : Conn) : (fullFrame c).1.fd = c.fd ∧ ∀ work ∈ (fullFrame c).2, work.peerFd = c.fd := by
  unfold fullFrame
  split
  · exact ⟨rfl, by simp [handleFrame, WorkQueue.makeWork]⟩
  · exact ⟨rfl, by simp⟩

namespace Traced

variable {s next : Server}

theorem start (reserved : List ℤ) (workerCount : ℕ) : Traced (.start reserved workerCount) where
  distinct := List.nodup_nil
  nonneg := by simp [ports, Server.start]
  items := by simp [Bound, ports, Server.start]
  routed := by simp [Routed, Server.start]

/-- Steps that open no connection, queue nothing new, and write nothing. -/
theorem keep (traced : Traced s) (still : (ports next).Sublist (ports s)) (fewer : carried next ⊆ carried s)
    (wire : next.wire = s.wire) : Traced next where
  distinct := traced.distinct.sublist (still.map Prod.fst)
  nonneg port member := traced.nonneg port (still.subset member)
  items item member port among := traced.items item (fewer member) port (still.subset among)
  routed := by
    rw [Routed, wire]
    exact traced.routed

theorem setWorker (traced : Traced s) {i : ℕ} {old new : Worker} (found : s.workers[i]? = some old)
    (same : heldItems new ⊆ heldItems old) : Traced (s.setWorker i new) := by
  refine traced.keep (List.Sublist.refl _) ?_ rfl
  intro item member
  rcases mem_carried_setWorker member with before | held
  · exact before
  · exact mem_carried_of_worker found (same held)

theorem closeConn (traced : Traced s) (fd : ℤ) : Traced (s.closeConn fd) :=
  traced.keep (List.filter_sublist.map _) (List.Subset.refl _) rfl

theorem updateConn (traced : Traced s) (c : Conn) : Traced (s.updateConn c) := by
  refine traced.keep ?_ (List.Subset.refl _) rfl
  rw [ports_updateConn]

theorem push (traced : Traced s) {item : Item} (bound : Bound s item) : Traced (s.push item) where
  distinct := traced.distinct
  nonneg := traced.nonneg
  items other member := by
    rcases mem_carried_push member with old | rfl
    · exact traced.items other old
    · exact bound
  routed := traced.routed

theorem pushAll (traced : Traced s) {id : ℕ} {works : List Work}
    (bound : ∀ work ∈ works, Bound s ⟨work, some id⟩) :
    Traced (works.foldl (fun s work => s.push ⟨work, some id⟩) s) := by
  induction works generalizing s with
  | nil => exact traced
  | cons work works ih =>
    apply ih (traced.push (bound work List.mem_cons_self))
    intro other member
    exact bound other (List.mem_cons_of_mem _ member)

/-- A frame is bound to the connection it was read from. -/
theorem bound_of_peer (traced : Traced s) {fd : ℤ} {peer : Peer} (found : s.peerAt fd = some peer) {work : Work}
    (same : work.peerFd = fd) : Bound s ⟨work, some peer.id⟩ := by
  intro port member descriptor
  have unique : port = (fd, peer.id) :=
    List.inj_on_of_nodup_map traced.distinct member (mem_ports found) (descriptor.trans same)
  rw [unique]

theorem acceptConn (traced : Traced s) (fresh : FreshDescriptor s .accept) : Traced s.acceptConn := by
  constructor
  case distinct =>
    rw [ports_acceptConn, List.map_append]
    apply traced.distinct.append (List.nodup_singleton _)
    intro fd used new
    rw [List.mem_singleton.mp new] at used
    exact nextFd_unused s used
  case nonneg =>
    intro port member
    rw [ports_acceptConn] at member
    rcases List.mem_append.mp member with old | new
    · exact traced.nonneg port old
    · rw [List.mem_singleton.mp new]
      exact lowestFree_nonneg _
  case items =>
    intro item member port among same
    rw [ports_acceptConn] at among
    rcases List.mem_append.mp among with old | new
    · exact traced.items item member port old same
    · rw [List.mem_singleton.mp new] at same
      exact absurd same.symm (fresh item member)
  case routed => exact traced.routed

theorem recvData (traced : Traced s) {fd : ℤ} {peer : Peer} (found : s.peerAt fd = some peer) (data : Bytes) :
    Traced (s.recvData peer data) := by
  have same : peer.conn.fd = fd := by simpa using List.find?_some found
  unfold Server.recvData
  split
  next c taken => exact traced.closeConn c.fd
  next c taken =>
    obtain ⟨-, works⟩ := fullFrame_fd c
    apply (traced.updateConn (fullFrame c).1).pushAll
    intro work member
    have bound : Bound s ⟨work, some peer.id⟩ := by
      apply traced.bound_of_peer found
      rw [works work member, (take_fd peer.conn data).1 c taken, same]
    rw [Bound, ports_updateConn]
    exact bound

theorem writeOnce (traced : Traced s) {i : ℕ} {item : Item} {buffer : Bytes} {left : List Bytes}
    (found : s.workers[i]? = some (.sending item (buffer :: left))) (answer : WriteAnswer) :
    Traced (s.writeOnce i item buffer left answer) := by
  unfold Server.writeOnce
  split
  next peer more reachable =>
    have moved : Traced (s.setWorker i (.sending item (buffer.drop (min (more + 1) buffer.length) :: left))) :=
      traced.setWorker found (List.Subset.refl _)
    have origin := traced.items item (mem_carried_of_worker found List.mem_cons_self) _ (mem_ports reachable) rfl
    refine ⟨moved.distinct, moved.nonneg, moved.items, ?_⟩
    intro delivery member
    rcases List.mem_append.mp member with old | new
    · exact traced.routed delivery old
    · rw [List.mem_singleton.mp new]
      exact origin
  next => exact traced
  next => exact traced.setWorker found (List.Subset.refl _)

theorem pop (traced : Traced s) {i : ℕ} {item : Item} {queue : List Item} (queued : s.queue = item :: queue)
    (rest : Handler) : Traced ({ s with queue }.setWorker i (.handling item rest)) := by
  have held : item ∈ carried s := by
    rw [carried, queued]
    exact List.mem_cons_self
  refine traced.keep (List.Sublist.refl _) ?_ rfl
  intro other member
  rcases mem_carried_setWorker member with before | new
  · rcases List.mem_append.mp before with waiting | working
    · rw [carried, queued]
      exact List.mem_append_left _ (List.mem_cons_of_mem _ waiting)
    · exact List.mem_append_right _ working
  · rw [List.mem_singleton.mp new]
    exact held

/-- Every step of a run without reuse keeps the invariant. -/
theorem step (traced : Traced s) {e : Server.Event} (fresh : FreshDescriptor s e)
    (stepped : Server.machine.step s e = some next) : Traced next := by
  cases e with
  | accept =>
    cases stepped
    exact traced.acceptConn fresh
  | recv fd data =>
    obtain ⟨peer, found, received⟩ := Option.bind_eq_some_iff.mp stepped
    cases (Option.ite_none_right_eq_some.mp received).2
    exact traced.recvData found data
  | hangup fd =>
    cases (Option.ite_none_right_eq_some.mp stepped).2
    exact traced.closeConn fd
  | datagram data =>
    cases (Option.ite_none_right_eq_some.mp stepped).2
    apply traced.push
    intro port member impossible
    have nonneg := traced.nonneg port member
    rw [impossible] at nonneg
    exact absurd nonneg (show ¬ (0 : ℤ) ≤ -1 by decide)
  | pop i =>
    simp only [Server.machine, Server.step] at stepped
    split at stepped
    next item queue _ queued =>
      cases stepped
      exact traced.pop queued _
    next => cases stepped
  | act i =>
    simp only [Server.machine, Server.step] at stepped
    split at stepped
    next item rest found =>
      obtain ⟨⟨shared, left⟩, -, rfl⟩ := Option.map_eq_some_iff.mp stepped
      have moved : Traced (s.setWorker i (.handling item left)) := traced.setWorker found (List.Subset.refl _)
      exact ⟨moved.distinct, moved.nonneg, moved.items, moved.routed⟩
    next => cases stepped
  | reply i =>
    simp only [Server.machine, Server.step] at stepped
    split at stepped
    next item r found =>
      cases stepped
      exact traced.setWorker found (List.Subset.refl _)
    next => cases stepped
  | write i answer =>
    simp only [Server.machine, Server.step] at stepped
    split at stepped
    next item found =>
      cases stepped
      exact traced.setWorker found (List.nil_subset _)
    next item left found =>
      cases stepped
      exact traced.setWorker found (List.Subset.refl _)
    next item buffer left _ found =>
      cases stepped
      exact traced.writeOnce found answer
    next => cases stepped

end Traced

section Reading

/-- After a complete frame the connection waits for the next header. -/
theorem fullFrame_settled (c : Conn) : fullFrame (fullFrame c).1 = ((fullFrame c).1, []) := by
  by_cases complete : 4 ≤ c.headerRead ∧ c.payloadLen ≤ c.payloadRead
  · simp [fullFrame, complete, handleFrame]
  · simp [fullFrame, complete]

/-- Handing a complete frame over before the next `read()`, or right after the last one, is the same. -/
theorem readFromConn_fullFrame (c : Conn) (unread : Bytes) (answers : List Answer) :
    readFromConn c unread answers =
      { readFromConn (fullFrame c).1 unread answers with
        pushed := (fullFrame c).2 ++ (readFromConn (fullFrame c).1 unread answers).pushed } := by
  cases answers with
  | nil => simp only [readFromConn, fullFrame_settled, List.append_nil]
  | cons answer answers =>
    simp only [readFromConn, fullFrame_settled]
    split
    · simp only [List.append_nil]
    · simp only [List.append_nil]
    · simp only [List.append_nil]
    · split
      · simp only [List.append_nil]
      · simp only [List.nil_append]

theorem foldl_push (s : Server) (id : ℕ) (works : List Work) :
    works.foldl (fun s work => s.push ⟨work, some id⟩) s =
      { s with queue := works.foldl (fun queue work => pushBounded queue ⟨work, some id⟩) s.queue } := by
  induction works generalizing s with
  | nil => rfl
  | cons work works ih => rw [List.foldl_cons, ih]; rfl

theorem peerAt_closeConn (s : Server) (fd : ℤ) : (s.closeConn fd).peerAt fd = none := by
  simp [Server.peerAt, Server.closeConn]

theorem peerAt_updateConn {s : Server} {fd : ℤ} {peer : Peer} (found : s.peerAt fd = some peer) {c : Conn}
    (same : c.fd = fd) : (s.updateConn c).peerAt fd = some ⟨peer.id, c⟩ := by
  have conn : peer.conn.fd = fd := by simpa using List.find?_some found
  have unmoved : (fun old : Peer => decide (old.conn.fd = fd)) ∘
      (fun old : Peer => if old.conn.fd = c.fd then { old with conn := c } else old) =
        fun old => decide (old.conn.fd = fd) := by
    funext old
    dsimp only [Function.comp]
    split
    next moved => rw [same, moved, same]
    next => rfl
  rw [Server.peerAt, Server.updateConn, List.find?_map, unmoved]
  rw [Server.peerAt] at found
  rw [found, Option.map_some, if_pos (conn.trans same.symm)]

/-- The server gets from `s` to where a call of `read_from_conn` on the connection `id` leaves it: the
same works are in the queue, and the connection is as the call left it, or gone after a result that
is not positive. -/
def Follows (s : Server) (fd : ℤ) (id : ℕ) (call : ReadRun) : Prop :=
  ∃ events next, Server.machine.run s events = some next ∧
    next.queue = call.pushed.foldl (fun queue work => pushBounded queue ⟨work, some id⟩) s.queue ∧
    next.peerAt fd = if call.ret ≤ 0 then none else some ⟨id, call.conn⟩

theorem Follows.hangup {s : Server} {fd : ℤ} {peer : Peer} (found : s.peerAt fd = some peer) {ret : ℤ}
    (ended : ret ≤ 0) (c : Conn) (unread : Bytes) : Follows s fd peer.id ⟨ret, c, unread, []⟩ := by
  refine ⟨[.hangup fd], s.closeConn fd, ?_, rfl, ?_⟩
  · simp only [EventMachine.run_cons, Server.machine, Server.step, found, Option.isSome_some, if_true,
      Option.bind_some, EventMachine.run_nil]
  · rw [if_pos ended]
    exact peerAt_closeConn s fd

theorem Follows.again {s : Server} {fd : ℤ} {peer : Peer} (found : s.peerAt fd = some peer) (unread : Bytes) :
    Follows s fd peer.id ⟨1, peer.conn, unread, []⟩ :=
  ⟨[], s, rfl, rfl, found⟩

/-- A call of `read_from_conn` is a run of the server, one step for each successful `read()`. -/
theorem readFromConn_follows {fd : ℤ} (answers : List Answer) {s : Server} {peer : Peer} {unread : Bytes}
    (found : s.peerAt fd = some peer) (settled : fullFrame peer.conn = (peer.conn, [])) :
    Follows s fd peer.id (readFromConn peer.conn unread answers) := by
  induction answers generalizing s peer unread with
  | nil =>
    rw [readFromConn, settled]
    exact Follows.again found unread
  | cons answer answers ih =>
    have conn : peer.conn.fd = fd := by simpa using List.find?_some found
    simp only [readFromConn, settled]
    split
    next => exact Follows.hangup found le_rfl _ _
    next => exact Follows.again found unread
    next => exact Follows.hangup found (by decide) _ _
    next data result =>
      obtain ⟨positive, bounded, -⟩ := read_data result
      have received : Server.machine.step s (.recv fd data) = some (s.recvData peer data) := by
        simp only [Server.machine, Server.step, found, bind, Option.bind_some, positive, bounded, and_self, if_true]
      cases taken : peer.conn.take data with
      | refused c =>
        have same : c.fd = fd := ((take_fd peer.conn data).2 c taken).trans conn
        refine ⟨[.recv fd data], s.closeConn fd, ?_, rfl, peerAt_closeConn s fd⟩
        rw [EventMachine.run_cons, received, Server.recvData, taken, ← same]
        rfl
      | more c =>
        have same : (fullFrame c).1.fd = fd :=
          (fullFrame_fd c).1.trans (((take_fd peer.conn data).1 c taken).trans conn)
        have moved : s.recvData peer data =
            { s.updateConn (fullFrame c).1 with
              queue := (fullFrame c).2.foldl (fun queue work => pushBounded queue ⟨work, some peer.id⟩) s.queue } := by
          rw [Server.recvData, taken]
          exact foldl_push _ _ _
        have reached : (s.recvData peer data).peerAt fd = some ⟨peer.id, (fullFrame c).1⟩ := by
          rw [moved]
          exact peerAt_updateConn found same
        obtain ⟨events, next, ran, queue, left⟩ :=
          @ih (s.recvData peer data) ⟨peer.id, (fullFrame c).1⟩ (unread.drop data.length) reached (fullFrame_settled c)
        refine ⟨.recv fd data :: events, next, ?_, ?_, ?_⟩
        · rw [EventMachine.run_cons, received]
          exact ran
        · dsimp only
          rw [queue, moved, List.nil_append, readFromConn_fullFrame c, List.foldl_append]
        · simp only [left, readFromConn_fullFrame c]

end Reading

/-- The linked queue that stands behind the list of the server. -/
structure Linked (s : Server) (q : WorkQueue) (nodes : List (ℕ × Work)) : Prop where
  represents : WorkQueueHistory.Represents q nodes
  bound : (nodes.length : ℤ) ≤ queueDepth
  works : nodes.map Prod.snd = s.queue.map Item.work

theorem Linked.push {s : Server} {q : WorkQueue} {nodes : List (ℕ × Work)} (linked : Linked s q nodes) {w : ℕ}
    (fresh : q.heap w = none) (payload : Bytes) (len : ℕ) (peerFd : ℤ) (origin : Option ℕ) :
    ∃ next dropped after, q.reqQueuePush w payload len peerFd = some (next, dropped) ∧
      Linked (s.push ⟨WorkQueue.makeWork payload len peerFd, origin⟩) next after := by
  obtain ⟨next, dropped, after, pushed, represents, bound, works⟩ :=
    linked.represents.reqQueuePush_list linked.bound fresh payload len peerFd
  refine ⟨next, dropped, after, pushed, represents, bound, ?_⟩
  rw [works, linked.works, Server.push, pushBounded, pushBounded, List.length_map, List.map_append]
  split
  · rw [List.map_tail]
    rfl
  · rfl

theorem Linked.pop {s : Server} {q : WorkQueue} {nodes : List (ℕ × Work)} (linked : Linked s q nodes) {item : Item}
    {queue : List Item} (queued : s.queue = item :: queue) :
    ∃ next w rest, q.workerTake = some (next, some (w, item.work)) ∧ Linked { s with queue } next rest := by
  have works := linked.works
  have bound := linked.bound
  obtain ⟨next, took, represents, -⟩ := linked.represents.workerTake
  rw [queued] at works
  obtain ⟨node, rest, rfl, work, others⟩ := List.map_eq_cons_iff.mp works
  rw [List.length_cons] at bound
  refine ⟨next, node.1, rest, ?_, represents, by omega, others⟩
  rw [took, List.head?_cons, ← work]

/-- In a run in which `accept` never hands out a number that a work still carries, every reply reaches
the connection its request came from. -/
theorem freshDescriptor_routed {reserved : List ℤ} {workerCount : ℕ} {events : List Server.Event} {s : Server}
    (fresh : Server.machine.Along FreshDescriptor (.start reserved workerCount) events)
    (reached : Server.machine.run (.start reserved workerCount) events = some s) : Routed s := by
  have traced : Traced s := by
    apply EventMachine.invariant_along Traced _ (Traced.start reserved workerCount) fresh reached
    intro s e next traced fresh stepped
    exact traced.step fresh stepped
  exact traced.routed

/-- A client connects and sends one frame of five bytes. -/
def oneFrame : List Server.Event :=
  [.accept, .recv 6 [0, 0, 0, 5], .recv 6 (literal "\"cmd\"")]

/-- The only worker takes the frame and writes its answer. -/
def oneAnswer : List Server.Event := [.pop 0, .reply 0, .write 0 (.accept 3)]

theorem freshDescriptor_routed_answer : ∃ s,
    Server.machine.run (.start [0, 1, 2, 3, 4, 5] 1) (oneFrame ++ oneAnswer) = some s ∧
      s.wire.map Delivery.target = [0] ∧ Routed s := by
  have fresh : Server.machine.Along FreshDescriptor (.start [0, 1, 2, 3, 4, 5] 1) (oneFrame ++ oneAnswer) := by
    decide
  obtain ⟨s, reached, targets⟩ : ∃ s,
      Server.machine.run (.start [0, 1, 2, 3, 4, 5] 1) (oneFrame ++ oneAnswer) = some s ∧
        s.wire.map Delivery.target = [0] := ⟨_, rfl, rfl⟩
  exact ⟨s, reached, targets, freshDescriptor_routed fresh reached⟩

/-- The client hangs up before a worker has taken its frame, and the next client gets its number: the
answer is written to the second client. -/
theorem reused_descriptor_misrouted : ∃ s bytes,
    Server.machine.run (.start [0, 1, 2, 3, 4, 5] 1) (oneFrame ++ [.hangup 6, .accept] ++ oneAnswer) = some s ∧
      bytes ≠ [] ∧ s.wire = [⟨1, some 0, bytes⟩] ∧ ¬ Routed s := by
  obtain ⟨s, bytes, reached, nonempty, wire⟩ : ∃ s bytes,
      Server.machine.run (.start [0, 1, 2, 3, 4, 5] 1) (oneFrame ++ [.hangup 6, .accept] ++ oneAnswer) = some s ∧
        bytes ≠ [] ∧ s.wire = [⟨1, some 0, bytes⟩] := ⟨_, _, rfl, List.cons_ne_nil _ _, rfl⟩
  refine ⟨s, bytes, reached, nonempty, wire, ?_⟩
  intro routed
  have same := routed ⟨1, some 0, bytes⟩ (by rw [wire]; exact List.mem_singleton_self _)
  exact absurd same (by simp)

end ProcessMonitor.Soundness.ReplyRouting
