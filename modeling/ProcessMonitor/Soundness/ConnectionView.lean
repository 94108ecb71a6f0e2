import ProcessMonitor.Model.Vts.Pipeline
import ProcessMonitor.Soundness.ConnectionInvariant

/-! # The server as one connection sees it

Whatever the server does, seen from one of its connections it is a run of the workers that answer that connection:
the works of the others are somebody else's works in the queue, what their handlers do to the shared state comes from
outside, and a reply that reaches the connection because it has got a number that was in use before is a stray one.
So what is proved of every run of the workers of one connection holds for each connection of the server.
-/

namespace ProcessMonitor.Soundness.ConnectionView

open Machine Machine.Posix Model.Vts ReplyRouting

/-! ## Steps of the server -/

/-- Every step, with the tests it has passed. -/
inductive Moves (s : Server) : Server.Event → Server → Prop
  | accept : Moves s .accept s.acceptConn
  | recv {fd : ℤ} {peer : Peer} (data : Bytes) (found : s.peerAt fd = some peer) :
      Moves s (.recv fd data) (s.recvData peer data)
  | hangup {fd : ℤ} {peer : Peer} (found : s.peerAt fd = some peer) : Moves s (.hangup fd) (s.closeConn fd)
  | datagram (data : Bytes) : Moves s (.datagram data) (s.push ⟨WorkQueue.makeWork data data.length (-1), none⟩)
  | pop {i : ℕ} {item : Item} {queue : List Item} (idle : s.workers[i]? = some .idle)
      (first : s.queue = item :: queue) :
      Moves s (.pop i) ({ s with queue }.setWorker i (.handling item (processOne item.work.payload)))
  | act {i : ℕ} {item : Item} {h rest : Handler} {shared : Shared} (found : s.workers[i]? = some (.handling item h))
      (acted : h.act s.shared = some (shared, rest)) :
      Moves s (.act i) ({ s with shared }.setWorker i (.handling item rest))
  | reply {i : ℕ} {item : Item} {r : Reply} (found : s.workers[i]? = some (.handling item (.reply r))) :
      Moves s (.reply i) (s.setWorker i (.sending item r.segments))
  | done {i : ℕ} {item : Item} (answer : WriteAnswer) (found : s.workers[i]? = some (.sending item [])) :
      Moves s (.write i answer) (s.setWorker i .idle)
  | next {i : ℕ} {item : Item} {left : List Bytes} (answer : WriteAnswer)
      (found : s.workers[i]? = some (.sending item ([] :: left))) :
      Moves s (.write i answer) (s.setWorker i (.sending item left))
  | write {i : ℕ} {item : Item} {buffer : Bytes} {left : List Bytes} (answer : WriteAnswer)
      (found : s.workers[i]? = some (.sending item (buffer :: left))) (unsent : buffer ≠ []) :
      Moves s (.write i answer) (s.writeOnce i item buffer left answer)

theorem moves_of_step {s next : Server} {e : Server.Event} (stepped : s.step e = some next) : Moves s e next := by
  cases e with
  | accept =>
    cases stepped
    exact .accept
  | recv fd data =>
    obtain ⟨peer, found, received⟩ := Option.bind_eq_some_iff.mp stepped
    cases (Option.ite_none_right_eq_some.mp received).2
    exact .recv data found
  | hangup fd =>
    obtain ⟨isOpen, same⟩ := Option.ite_none_right_eq_some.mp stepped
    obtain ⟨peer, found⟩ := Option.isSome_iff_exists.mp isOpen
    cases same
    exact .hangup found
  | datagram data =>
    cases (Option.ite_none_right_eq_some.mp stepped).2
    exact .datagram data
  | pop i =>
    simp only [Server.step] at stepped
    split at stepped
    next item queue idle first =>
      cases stepped
      exact .pop idle first
    next => cases stepped
  | act i =>
    simp only [Server.step] at stepped
    split at stepped
    next item h found =>
      obtain ⟨⟨shared, rest⟩, acted, rfl⟩ := Option.map_eq_some_iff.mp stepped
      exact .act found acted
    next => cases stepped
  | reply i =>
    simp only [Server.step] at stepped
    split at stepped
    next item r found =>
      cases stepped
      exact .reply found
    next => cases stepped
  | write i answer =>
    simp only [Server.step] at stepped
    split at stepped
    next item found =>
      cases stepped
      exact .done answer found
    next item left found =>
      cases stepped
      exact .next answer found
    next item buffer left unsent found =>
      cases stepped
      exact .write answer found fun empty => unsent (by rw [empty])
    next => cases stepped

/-! ## The works and the connections they came from -/

/-- Numbers and connections are matched one to one, and a work carries the number of its connection for as long as
that is open. -/
structure Known (s : Server) : Prop where
  distinct : ((ports s).map Prod.fst).Nodup
  ids : ((ports s).map Prod.snd).Nodup
  earlier : ∀ port ∈ ports s, port.2 < s.accepted
  origins : ∀ item ∈ carried s, ∀ id, item.origin = some id → id < s.accepted
  bound : ∀ item ∈ carried s, ∀ port ∈ ports s, item.origin = some port.2 → item.work.peerFd = port.1

namespace Known

variable {s next : Server} {fd : ℤ} {peer : Peer}

theorem start (reserved : List ℤ) (workerCount : ℕ) : Known (.start reserved workerCount) where
  distinct := List.nodup_nil
  ids := List.nodup_nil
  earlier := by simp [ports, Server.start]
  origins item member := by
    rcases List.mem_append.mp member with queued | held
    · cases queued
    · obtain ⟨worker, among, holds⟩ := List.mem_flatMap.mp held
      rw [List.eq_of_mem_replicate among] at holds
      cases holds
  bound := by simp [ports, Server.start]

/-- Steps that open no connection and bring in no work. -/
theorem keep (known : Known s) (still : (ports next).Sublist (ports s)) (fewer : carried next ⊆ carried s)
    (accepted : next.accepted = s.accepted) : Known next where
  distinct := known.distinct.sublist (still.map Prod.fst)
  ids := known.ids.sublist (still.map Prod.snd)
  earlier port member := accepted ▸ known.earlier port (still.subset member)
  origins item member id sender := accepted ▸ known.origins item (fewer member) id sender
  bound item member port among := known.bound item (fewer member) port (still.subset among)

theorem closeConn (known : Known s) (fd : ℤ) : Known (s.closeConn fd) :=
  known.keep (List.filter_sublist.map _) (List.Subset.refl _) rfl

theorem push (known : Known s) {item : Item} (origin : ∀ id, item.origin = some id → id < s.accepted)
    (bound : ∀ port ∈ ports s, item.origin = some port.2 → item.work.peerFd = port.1) : Known (s.push item) where
  distinct := known.distinct
  ids := known.ids
  earlier := known.earlier
  origins other member := by
    rcases mem_carried_push member with old | rfl
    · exact known.origins other old
    · exact origin
  bound other member := by
    rcases mem_carried_push member with old | rfl
    · exact known.bound other old
    · exact bound

theorem acceptConn (known : Known s) : Known s.acceptConn where
  distinct := by
    rw [ports_acceptConn, List.map_append]
    apply known.distinct.append (List.nodup_singleton _)
    intro fd used new
    rw [List.mem_singleton.mp new] at used
    exact nextFd_unused s used
  ids := by
    rw [ports_acceptConn, List.map_append]
    apply known.ids.append (List.nodup_singleton _)
    intro id used new
    obtain ⟨port, member, rfl⟩ := List.mem_map.mp used
    exact absurd (List.mem_singleton.mp new) (Nat.ne_of_lt (known.earlier port member))
  earlier port member := by
    rw [ports_acceptConn] at member
    rcases List.mem_append.mp member with old | new
    · exact Nat.lt_succ_of_lt (known.earlier port old)
    · rw [List.mem_singleton.mp new]
      exact Nat.lt_succ_self _
  origins item member id sender := Nat.lt_succ_of_lt (known.origins item member id sender)
  bound item member port among sender := by
    rw [ports_acceptConn] at among
    rcases List.mem_append.mp among with old | new
    · exact known.bound item member port old sender
    · -- No work has come from a connection that is only now accepted.
      rw [List.mem_singleton.mp new] at sender
      exact absurd (known.origins item member _ sender) (Nat.lt_irrefl _)

/-- A number leads to the one connection that is open under it. -/
theorem port_unique (known : Known s) (found : s.peerAt fd = some peer) {port : ℤ × ℕ} (member : port ∈ ports s)
    (same : port.1 = fd ∨ port.2 = peer.id) : port = (fd, peer.id) := by
  rcases same with number | id
  · exact List.inj_on_of_nodup_map known.distinct member (mem_ports found) number
  · exact List.inj_on_of_nodup_map known.ids member (mem_ports found) id

/-- The works of one read, which are all of the connection that is read. -/
theorem pushAll {works : List Work} (known : Known s) (member : (fd, peer.id) ∈ ports s)
    (numbers : ∀ work ∈ works, work.peerFd = fd) :
    Known (works.foldl (fun s work => s.push ⟨work, some peer.id⟩) s) := by
  induction works generalizing s with
  | nil => exact known
  | cons work works ih =>
    refine ih (known.push ?_ ?_) member fun other among => numbers other (List.mem_cons_of_mem _ among)
    · rintro id ⟨⟩
      exact known.earlier _ member
    · intro port among sender
      rw [List.inj_on_of_nodup_map known.ids among member (Option.some.inj sender).symm]
      exact numbers work List.mem_cons_self

theorem recvData (known : Known s) (found : s.peerAt fd = some peer) (data : Bytes) :
    Known (s.recvData peer data) := by
  have same : peer.conn.fd = fd := by simpa using List.find?_some found
  unfold Server.recvData
  split
  next c taken => exact known.closeConn c.fd
  next c taken =>
    obtain ⟨-, works⟩ := fullFrame_fd c
    have samePorts := ports_updateConn s (fullFrame c).1
    have updated : Known (s.updateConn (fullFrame c).1) := by
      refine known.keep ?_ (List.Subset.refl _) rfl
      rw [samePorts]
    apply updated.pushAll (samePorts.symm ▸ mem_ports found)
    intro work member
    rw [works work member, (take_fd peer.conn data).1 c taken, same]

theorem step (known : Known s) {e : Server.Event} (stepped : Server.machine.step s e = some next) : Known next := by
  have worked (own : ServerLoop.ofWorker e = true) : Known next := by
    obtain ⟨conns, accepted, -, -, fewer⟩ := ConnectionInvariant.worker_frame own stepped
    refine known.keep ?_ fewer accepted
    rw [ports, conns]
    exact List.Sublist.refl _
  cases moves_of_step stepped with
  | accept => exact known.acceptConn
  | recv data found => exact known.recvData found data
  | hangup found => exact known.closeConn _
  | datagram data => exact known.push (by simp) (by simp)
  | _ => exact worked rfl

end Known

/-! ## The view of one connection -/

section View

variable (id : ℕ)

/-- A work of the connection in the queue is one of its requests, and any other work is none. -/
def Seen (item : Item) (request : Option Request) : Prop :=
  if item.origin = some id then ∃ number, request = some ⟨number, item.work.payload⟩ else request = none

def Answering (worker : Worker) : Prop := ∃ item ∈ heldItems worker, item.origin = some id

/-- A worker and a task are at the same point of the same request. -/
inductive Matches : Worker → Task → Prop
  | handling {item : Item} {rest : Handler} {task : Task} (payload : task.request.payload = item.work.payload)
      (stage : task.stage = .handling rest) : Matches (.handling item rest) task
  | sending {item : Item} {left : List Bytes} {task : Task} (r : Reply)
      (payload : task.request.payload = item.work.payload) (stage : task.stage = .sending r left) :
      Matches (.sending item left) task

/-- Each worker that answers the connection has a task of its own, `place` tells where, and the other tasks have been
finished. -/
structure Placed (workers : List Worker) (tasks : List Task) (place : ℕ → ℕ) : Prop where
  matched : ∀ i worker, workers[i]? = some worker → Answering id worker →
    ∃ task, tasks[place i]? = some task ∧ Matches worker task
  apart : ∀ i j worker other, workers[i]? = some worker → workers[j]? = some other → Answering id worker →
    Answering id other → place i = place j → i = j
  finished : ∀ t task, tasks[t]? = some task →
    (∃ i worker, workers[i]? = some worker ∧ Answering id worker ∧ place i = t) ∨ ∃ r, task.stage = .sending r []

/-- The pipeline is what the server is for the connection. -/
structure Views (s : Server) (p : Pipeline) : Prop where
  shared : p.shared = s.shared
  queue : List.Forall₂ (Seen id) s.queue p.queue
  tasks : ∃ place, Placed id s.workers p.tasks place
  stream : p.stream = (s.wire.filter fun d => d.target = id).flatMap Delivery.bytes
  closed : p.closed = true ↔ id < s.accepted ∧ ∀ port ∈ ports s, port.2 ≠ id

/-- What workers that answer somebody else have written to the connection. -/
def strays (s : Server) : List Bytes :=
  (s.wire.filter fun d => d.target = id ∧ d.origin ≠ some id).map Delivery.bytes

end View

def strayed : Pipeline.Event → Option Bytes
  | .stray bytes => some bytes
  | _ => none

variable {id i : ℕ} {item : Item} {old new : Worker}

theorem answering_handling {rest : Handler} : Answering id (.handling item rest) ↔ item.origin = some id := by
  simp [Answering, heldItems]

theorem answering_sending {left : List Bytes} : Answering id (.sending item left) ↔ item.origin = some id := by
  simp [Answering, heldItems]

theorem not_answering_idle : ¬ Answering id .idle := by
  simp [Answering, heldItems]

namespace Placed

variable {workers : List Worker} {tasks : List Task} {place : ℕ → ℕ}

theorem start (id workerCount : ℕ) (place : ℕ → ℕ) : Placed id (List.replicate workerCount .idle) [] place := by
  have nobody {i : ℕ} {worker : Worker} (found : (List.replicate workerCount Worker.idle)[i]? = some worker) :
      ¬ Answering id worker := by
    rw [List.eq_of_mem_replicate (List.mem_of_getElem? found)]
    exact not_answering_idle
  constructor
  · exact fun _ _ found answering => absurd answering (nobody found)
  · exact fun _ _ _ _ found _ answering => absurd answering (nobody found)
  · simp

/-- A worker has finished, or goes on with something that does not concern the connection. -/
theorem leave (placed : Placed id workers tasks place) (found : workers[i]? = some old)
    (free : Answering id old → ∃ item, old = .sending item []) (other : ¬ Answering id new) :
    Placed id (workers.set i new) tasks place := by
  have older {j : ℕ} {worker : Worker} (present : (workers.set i new)[j]? = some worker)
      (answering : Answering id worker) : workers[j]? = some worker := by
    rcases thread_of_set present with ⟨rfl, rfl⟩ | ⟨_, same⟩
    · exact absurd answering other
    · exact same
  constructor
  · intro j worker present answering
    exact placed.matched j worker (older present answering) answering
  · intro j k worker another first second answering also
    exact placed.apart j k worker another (older first answering) (older second also) answering also
  · intro t task taken
    rcases placed.finished t task taken with ⟨j, worker, among, answering, rfl⟩ | ended
    · by_cases same : i = j
      · -- The worker's own task has nothing left to write.
        subst same
        cases found.symm.trans among
        obtain ⟨item, rfl⟩ := free answering
        obtain ⟨own, taken', _ | ⟨r, payload, stage⟩⟩ := placed.matched i _ found answering
        cases taken.symm.trans taken'
        exact .inr ⟨r, stage⟩
      · exact .inl ⟨j, worker, by rwa [List.getElem?_set_ne same], answering, rfl⟩
    · exact .inr ended

/-- A worker of the connection goes on, and its task with it. -/
theorem move (placed : Placed id workers tasks place) (found : workers[i]? = some old) (answering : Answering id old)
    {task : Task} (still : Answering id new) (goes : Matches new task) :
    Placed id (workers.set i new) (tasks.set (place i) task) place := by
  obtain ⟨before, taken, -⟩ := placed.matched i old found answering
  -- Whoever answers the connection afterwards did so before, at the same place.
  have older {j : ℕ} {worker : Worker} (present : (workers.set i new)[j]? = some worker)
      (answers : Answering id worker) : ∃ earlier, workers[j]? = some earlier ∧ Answering id earlier := by
    rcases thread_of_set present with ⟨rfl, rfl⟩ | ⟨_, same⟩
    · exact ⟨old, found, answering⟩
    · exact ⟨worker, same, answers⟩
  constructor
  · intro j worker present answers
    rcases thread_of_set present with ⟨rfl, rfl⟩ | ⟨different, unmoved⟩
    · exact ⟨task, List.getElem?_set_self (List.getElem?_eq_some_iff.mp taken).1, goes⟩
    · obtain ⟨other, atPlace, alike⟩ := placed.matched j worker unmoved answers
      have elsewhere : place i ≠ place j := fun equal =>
        different (placed.apart i j old worker found unmoved answering answers equal)
      exact ⟨other, by rwa [List.getElem?_set_ne elsewhere], alike⟩
  · intro j k worker another first second answers also
    obtain ⟨worker', first', answers'⟩ := older first answers
    obtain ⟨another', second', also'⟩ := older second also
    exact placed.apart j k worker' another' first' second' answers' also'
  · intro t other present
    rcases thread_of_set present with ⟨rfl, rfl⟩ | ⟨different, unmoved⟩
    · exact .inl ⟨i, new, List.getElem?_set_self (List.getElem?_eq_some_iff.mp found).1, still, rfl⟩
    · rcases placed.finished t other unmoved with ⟨j, worker, among, answers, rfl⟩ | ended
      · have apart : i ≠ j := fun same => different (by rw [same])
        exact .inl ⟨j, worker, by rwa [List.getElem?_set_ne apart], answers, rfl⟩
      · exact .inr ended

/-- A worker takes a request of the connection, which becomes a task behind the others. -/
theorem take (placed : Placed id workers tasks place) (found : workers[i]? = some old) (idle : ¬ Answering id old)
    {task : Task} (takes : Answering id new) (goes : Matches new task) :
    Placed id (workers.set i new) (tasks ++ [task]) (Function.update place i tasks.length) := by
  -- The tasks of the others are before the new one, at the places where they were.
  have within {j : ℕ} {worker : Worker} (present : workers[j]? = some worker) (answers : Answering id worker) :
      place j < tasks.length := by
    obtain ⟨other, atPlace, -⟩ := placed.matched j worker present answers
    exact (List.getElem?_eq_some_iff.mp atPlace).1
  have unmoved {j : ℕ} (different : i ≠ j) : Function.update place i tasks.length j = place j :=
    Function.update_of_ne (Ne.symm different) _ _
  constructor
  · intro j worker present answers
    rcases thread_of_set present with ⟨rfl, rfl⟩ | ⟨different, same⟩
    · exact ⟨task, by simp, goes⟩
    · obtain ⟨other, atPlace, alike⟩ := placed.matched j worker same answers
      refine ⟨other, ?_, alike⟩
      rw [unmoved different, List.getElem?_append_left (within same answers)]
      exact atPlace
  · intro j k worker another first second answers also equal
    rcases thread_of_set first with ⟨rfl, rfl⟩ | ⟨here, atJ⟩ <;>
      rcases thread_of_set second with ⟨rfl, rfl⟩ | ⟨there, atK⟩
    · rfl
    · rw [Function.update_self, unmoved there] at equal
      exact absurd (within atK also) (equal ▸ Nat.lt_irrefl _)
    · rw [Function.update_self, unmoved here] at equal
      exact absurd (within atJ answers) (equal ▸ Nat.lt_irrefl _)
    · rw [unmoved here, unmoved there] at equal
      exact placed.apart j k worker another atJ atK answers also equal
  · intro t other present
    rcases thread_of_concat present with ⟨rfl, rfl⟩ | ⟨_, earlier⟩
    · have inside := (List.getElem?_eq_some_iff.mp found).1
      exact .inl ⟨i, new, List.getElem?_set_self inside, takes, Function.update_self _ _ _⟩
    · rcases placed.finished t other earlier with ⟨j, worker, among, answers, rfl⟩ | ended
      · have different : i ≠ j := by
          rintro rfl
          cases found.symm.trans among
          exact idle answers
        exact .inl ⟨j, worker, by rwa [List.getElem?_set_ne different], answers, unmoved different⟩
      · exact .inr ended

end Placed

variable {s next : Server} {p after : Pipeline} {fd : ℤ} {peer : Peer}

theorem mem_ports_closeConn {port : ℤ × ℕ} : port ∈ ports (s.closeConn fd) ↔ port ∈ ports s ∧ port.1 ≠ fd := by
  simp only [ports, Server.closeConn, List.mem_map, List.mem_filter, decide_eq_true_eq]
  constructor
  · rintro ⟨peer, ⟨member, different⟩, rfl⟩
    exact ⟨⟨peer, member, rfl⟩, different⟩
  · rintro ⟨⟨peer, member, rfl⟩, different⟩
    exact ⟨peer, ⟨member, different⟩, rfl⟩

theorem forall₂_pushBounded {α β : Type*} {related : α → β → Prop} {items : List α} {others : List β}
    (pairs : List.Forall₂ related items others) {a : α} {b : β} (last : related a b) :
    List.Forall₂ related (pushBounded items a) (pushBounded others b) := by
  rw [pushBounded, pushBounded, ← pairs.length_eq]
  refine List.rel_append ?_ (.cons last .nil)
  split
  · cases pairs with
    | nil => exact .nil
    | cons _ rest => exact rest
  · exact pairs

namespace Views

theorem start (id : ℕ) (reserved : List ℤ) (workerCount : ℕ) :
    Views id (.start reserved workerCount) .start where
  shared := rfl
  queue := .nil
  tasks := ⟨fun _ => 0, .start id workerCount _⟩
  stream := rfl
  closed := by simp [Pipeline.start, Server.start]

theorem isOpen (views : Views id s p) {port : ℤ × ℕ} (member : port ∈ ports s) (own : port.2 = id) :
    p.closed = false :=
  Bool.eq_false_iff.mpr fun closed => (views.closed.mp closed).2 port member own

/-- Where the number of a work leads to another connection, its own one is closed. -/
theorem isClosed (views : Views id s p) (known : Known s) (member : item ∈ carried s) (own : item.origin = some id)
    (reached : s.peerAt item.work.peerFd = some peer) (elsewhere : peer.id ≠ id) : p.closed = true := by
  refine views.closed.mpr ⟨known.origins item member id own, fun port among same => elsewhere ?_⟩
  have number := known.bound item member port among (same ▸ own)
  rw [← same, known.port_unique reached among (.inl number.symm)]

/-- A worker has finished, or goes on with something that does not concern the connection. -/
theorem leave (views : Views id s p) (found : s.workers[i]? = some old)
    (free : Answering id old → ∃ item, old = .sending item []) (other : ¬ Answering id new) :
    Views id (s.setWorker i new) p := by
  obtain ⟨place, placed⟩ := views.tasks
  exact ⟨views.shared, views.queue, ⟨place, placed.leave found free other⟩, views.stream, views.closed⟩

/-- A worker that answers somebody else. -/
theorem elsewhere (views : Views id s p) (found : s.workers[i]? = some old) (before : ¬ Answering id old)
    (other : ¬ Answering id new) : ∃ place, Placed id (s.workers.set i new) p.tasks place :=
  (views.leave found (fun answering => absurd answering before) other).tasks

/-- A worker of the connection has a task, and where the two go on together the others are not concerned. -/
theorem task (views : Views id s p) (found : s.workers[i]? = some old) (answering : Answering id old) :
    ∃ t task, p.tasks[t]? = some task ∧ Matches old task ∧ ∀ {new changed}, Answering id new → Matches new changed →
      ∃ place, Placed id (s.workers.set i new) (p.tasks.set t changed) place := by
  obtain ⟨place, placed⟩ := views.tasks
  obtain ⟨task, taken, same⟩ := placed.matched i old found answering
  exact ⟨place i, task, taken, same, fun still goes => ⟨place, placed.move found answering still goes⟩⟩

theorem goOn (views : Views id s p) {t : ℕ} {changed : Task}
    (moved : ∃ place, Placed id (s.workers.set i new) (p.tasks.set t changed) place) :
    Views id (s.setWorker i new) (p.setTask t changed) :=
  ⟨views.shared, views.queue, moved, views.stream, views.closed⟩

end Views

variable (id) in
/-- The pipeline can go on to what a step of the server leaves for the connection, and what has reached the connection
by mistake in the step is what strays in. -/
def Shown (s next : Server) (p : Pipeline) : Prop :=
  ∃ tape after, Pipeline.machine.run p tape = some after ∧ Views id next after ∧
    strays id next = strays id s ++ tape.filterMap strayed

namespace Shown

theorem still (views : Views id next p) (same : strays id next = strays id s) : Shown id s next p :=
  ⟨[], p, rfl, views, by rw [same, List.filterMap_nil, List.append_nil]⟩

theorem one {event : Pipeline.Event} (moves : p.Moves event after) (views : Views id next after)
    (adds : strays id next = strays id s ++ (strayed event).toList) : Shown id s next p := by
  refine ⟨[event], after, ?_, views, ?_⟩
  · rw [EventMachine.run_cons]
    exact (congrArg (Option.bind · _) (Pipeline.step_of_moves moves)).trans rfl
  · rw [adds]
    cases seen : strayed event <;> simp [seen]

theorem aside (views : Views id s p) (found : s.workers[i]? = some old) (before : ¬ Answering id old)
    (other : ¬ Answering id new) : Shown id s (s.setWorker i new) p :=
  still (views.leave found (fun answering => absurd answering before) other) rfl

theorem trans {middle : Server} (first : Shown id s middle p)
    (second : ∀ after, Views id middle after → Shown id middle next after) : Shown id s next p := by
  obtain ⟨tape, between, ran, views, adds⟩ := first
  obtain ⟨later, final, ranLater, ends, addsLater⟩ := second between views
  refine ⟨tape ++ later, final, ?_, ends, ?_⟩
  · rw [EventMachine.run_append, ran, Option.bind_some, ranLater]
  · rw [addsLater, adds, List.filterMap_append, List.append_assoc]

theorem acceptConn (views : Views id s p) : Shown id s s.acceptConn p := by
  refine still ⟨views.shared, views.queue, views.tasks, views.stream, ?_⟩ rfl
  rw [views.closed, ports_acceptConn]
  simp only [List.mem_append, List.mem_singleton, Server.acceptConn]
  constructor
  · rintro ⟨earlier, gone⟩
    refine ⟨Nat.lt_succ_of_lt earlier, ?_⟩
    rintro port (old | rfl)
    · exact gone port old
    · exact (Nat.ne_of_lt earlier).symm
  · rintro ⟨earlier, gone⟩
    refine ⟨?_, fun port member => gone port (.inl member)⟩
    have different := gone (s.nextFd, s.accepted) (.inr rfl)
    exact Nat.lt_of_le_of_ne (Nat.lt_succ_iff.mp earlier) (Ne.symm different)

theorem closeConn (views : Views id s p) (known : Known s) (found : s.peerAt fd = some peer) :
    Shown id s (s.closeConn fd) p := by
  by_cases own : peer.id = id
  · have isOpen := views.isOpen (mem_ports found) own
    refine one (.close isOpen) ⟨views.shared, views.queue, views.tasks, views.stream, ?_⟩ (List.append_nil _).symm
    refine ⟨fun _ => ⟨own ▸ known.earlier _ (mem_ports found), ?_⟩, fun _ => rfl⟩
    intro port member same
    obtain ⟨among, different⟩ := mem_ports_closeConn.mp member
    rw [known.port_unique found among (.inr (same.trans own.symm))] at different
    exact different rfl
  · refine still ⟨views.shared, views.queue, views.tasks, views.stream, ?_⟩ rfl
    rw [views.closed]
    refine and_congr_right fun _ => ?_
    constructor
    · exact fun gone port member => gone port (mem_ports_closeConn.mp member).1
    · intro gone port member same
      refine gone port (mem_ports_closeConn.mpr ⟨member, fun number => own ?_⟩) same
      rw [← same, known.port_unique found member (.inl number)]

theorem push (item : Item) (views : Views id s p) (isOpen : item.origin = some id → p.closed = false) :
    Shown id s (s.push item) p := by
  by_cases own : item.origin = some id
  · have seen : Seen id item (some ⟨p.received, item.work.payload⟩) := by
      rw [Seen, if_pos own]
      exact ⟨_, rfl⟩
    refine one (.recv item.work.payload (isOpen own)) ?_ (List.append_nil _).symm
    exact ⟨views.shared, forall₂_pushBounded views.queue seen, views.tasks, views.stream, views.closed⟩
  · have seen : Seen id item none := by rw [Seen, if_neg own]
    refine one .other ?_ (List.append_nil _).symm
    exact ⟨views.shared, forall₂_pushBounded views.queue seen, views.tasks, views.stream, views.closed⟩

theorem pushAll (works : List Work) (views : Views id s p) (member : (fd, peer.id) ∈ ports s) :
    Shown id s (works.foldl (fun s work => s.push ⟨work, some peer.id⟩) s) p := by
  induction works generalizing s p with
  | nil => exact still views rfl
  | cons work works ih =>
    apply (push ⟨work, some peer.id⟩ views fun own => views.isOpen member (Option.some.inj own)).trans
    intro after views
    exact ih views member

theorem recvData (views : Views id s p) (known : Known s) (found : s.peerAt fd = some peer) (data : Bytes) :
    Shown id s (s.recvData peer data) p := by
  have number : peer.conn.fd = fd := by simpa using List.find?_some found
  unfold Server.recvData
  split
  next c taken =>
    rw [(take_fd peer.conn data).2 c taken, number]
    exact closeConn views known found
  next c taken =>
    have same := ports_updateConn s (fullFrame c).1
    have updated : Views id (s.updateConn (fullFrame c).1) p :=
      ⟨views.shared, views.queue, views.tasks, views.stream, same.symm ▸ views.closed⟩
    exact (still updated rfl).trans fun after views => pushAll _ views (same.symm ▸ mem_ports found)

theorem pop {queue : List Item} (views : Views id s p) (idle : s.workers[i]? = some .idle)
    (first : s.queue = item :: queue) :
    Shown id s ({ s with queue }.setWorker i (.handling item (processOne item.work.payload))) p := by
  obtain ⟨place, placed⟩ := views.tasks
  have pairs := views.queue
  rw [first] at pairs
  obtain ⟨request, requests, seen, rest, queued⟩ := List.forall₂_cons_left_iff.mp pairs
  rw [Seen] at seen
  split at seen
  next own =>
    obtain ⟨number, rfl⟩ := seen
    refine one (.take _ _ queued) ⟨views.shared, rest, ?_, views.stream, views.closed⟩ (List.append_nil _).symm
    exact ⟨_, placed.take idle not_answering_idle (answering_handling.mpr own) (.handling rfl rfl)⟩
  next other =>
    subst seen
    refine one (.skip _ queued) ⟨views.shared, rest, ?_, views.stream, views.closed⟩ (List.append_nil _).symm
    exact views.elsewhere idle not_answering_idle (answering_handling.not.mpr other)

theorem act {h rest : Handler} {shared : Shared} (views : Views id s p)
    (found : s.workers[i]? = some (.handling item h)) (acted : h.act s.shared = some (shared, rest)) :
    Shown id s ({ s with shared }.setWorker i (.handling item rest)) p := by
  by_cases own : item.origin = some id
  · obtain ⟨t, task, taken, ⟨payload, stage⟩, goes⟩ := views.task found (answering_handling.mpr own)
    have moves := Pipeline.Moves.act t task h rest shared taken stage (views.shared ▸ acted)
    refine one moves ⟨rfl, views.queue, ?_, views.stream, views.closed⟩ (List.append_nil _).symm
    exact goes (answering_handling.mpr own) (.handling payload rfl)
  · refine one (.outside shared) ⟨rfl, views.queue, ?_, views.stream, views.closed⟩ (List.append_nil _).symm
    exact views.elsewhere found (answering_handling.not.mpr own) (answering_handling.not.mpr own)

theorem reply {r : Reply} (views : Views id s p) (found : s.workers[i]? = some (.handling item (.reply r))) :
    Shown id s (s.setWorker i (.sending item r.segments)) p := by
  by_cases own : item.origin = some id
  · obtain ⟨t, task, taken, ⟨payload, stage⟩, goes⟩ := views.task found (answering_handling.mpr own)
    refine one (.reply t task r taken stage) ?_ (List.append_nil _).symm
    exact views.goOn (goes (answering_sending.mpr own) (.sending r payload rfl))
  · exact aside views found (answering_handling.not.mpr own) (answering_sending.not.mpr own)

/-- The buffer is at its end, and the next one comes. -/
theorem nextBuffer {left : List Bytes} (views : Views id s p)
    (found : s.workers[i]? = some (.sending item ([] :: left))) :
    Shown id s (s.setWorker i (.sending item left)) p := by
  by_cases own : item.origin = some id
  · obtain ⟨t, task, taken, _ | ⟨r, payload, stage⟩, goes⟩ := views.task found (answering_sending.mpr own)
    refine one (.next t task r left .interrupted taken stage) ?_ (List.append_nil _).symm
    exact views.goOn (goes (answering_sending.mpr own) (.sending r payload rfl))
  · exact aside views found (answering_sending.not.mpr own) (answering_sending.not.mpr own)

section Write

variable {buffer : Bytes} {left : List Bytes}

/-- A `write()` that fails, or finds the number closed. -/
theorem fault (views : Views id s p) (found : s.workers[i]? = some (.sending item (buffer :: left)))
    (unsent : buffer ≠ []) : Shown id s (s.setWorker i (.sending item left)) p := by
  by_cases own : item.origin = some id
  · obtain ⟨t, task, taken, _ | ⟨r, payload, stage⟩, goes⟩ := views.task found (answering_sending.mpr own)
    refine one (.write t task r buffer left .fault taken stage unsent) ?_ (List.append_nil _).symm
    exact views.goOn (goes (answering_sending.mpr own) (.sending r payload rfl))
  · exact aside views found (answering_sending.not.mpr own) (answering_sending.not.mpr own)

/-- Bytes that a connection accepts. Where the worker answers another connection than that one, they stray in there,
and its own connection is closed. -/
theorem accepts (more : ℕ) (views : Views id s p) (known : Known s)
    (found : s.workers[i]? = some (.sending item (buffer :: left))) (unsent : buffer ≠ [])
    (reached : s.peerAt item.work.peerFd = some peer) :
    Shown id s { s.setWorker i (.sending item (buffer.drop (min (more + 1) buffer.length) :: left)) with
      wire := s.wire ++ [⟨peer.id, item.origin, buffer.take (min (more + 1) buffer.length)⟩] } p := by
  by_cases own : item.origin = some id
  · obtain ⟨t, task, taken, _ | ⟨r, payload, stage⟩, goes⟩ := views.task found (answering_sending.mpr own)
    have moves := Pipeline.Moves.write t task r buffer left (.accept more) taken stage unsent
    rw [Pipeline.writeOnce] at moves
    by_cases here : peer.id = id
    · rw [if_neg (by simp [views.isOpen (mem_ports reached) here])] at moves
      refine one moves ⟨views.shared, views.queue, ?_, ?_, views.closed⟩ ?_
      · exact goes (answering_sending.mpr own) (.sending r payload rfl)
      · simp [views.stream, here, List.filter_append]
      · simp [strays, own, strayed, List.filter_append]
    · have member : item ∈ carried s := mem_carried_of_worker found List.mem_cons_self
      rw [if_pos (views.isClosed known member own reached here)] at moves
      refine one moves ⟨views.shared, views.queue, ?_, ?_, views.closed⟩ ?_
      · exact goes (answering_sending.mpr own) (.sending r payload rfl)
      · simp [Pipeline.setTask, views.stream, here, List.filter_append]
      · simp [strays, own, strayed, List.filter_append]
  · have elsewhere {rest : List Bytes} : ∃ place, Placed id (s.workers.set i (.sending item rest)) p.tasks place :=
      views.elsewhere found (answering_sending.not.mpr own) (answering_sending.not.mpr own)
    by_cases here : peer.id = id
    · have isOpen := views.isOpen (mem_ports reached) here
      have moves := Pipeline.Moves.stray (buffer.take (min (more + 1) buffer.length)) isOpen
      refine one moves ⟨views.shared, views.queue, elsewhere, ?_, views.closed⟩ ?_
      · simp [views.stream, here, List.filter_append]
      · simp [strays, own, here, strayed, List.filter_append]
    · refine still ⟨views.shared, views.queue, elsewhere, ?_, views.closed⟩ ?_
      · simp [views.stream, here, List.filter_append]
      · simp [strays, here, List.filter_append]

theorem writeOnce (answer : WriteAnswer) (views : Views id s p) (known : Known s)
    (found : s.workers[i]? = some (.sending item (buffer :: left))) (unsent : buffer ≠ []) :
    Shown id s (s.writeOnce i item buffer left answer) p := by
  unfold Server.writeOnce
  split
  next peer more reached => exact accepts more views known found unsent reached
  next => exact still views rfl
  next => exact fault views found unsent

end Write

/-- Whatever the server does next, the connection sees steps of its workers. -/
theorem step {e : Server.Event} (views : Views id s p) (known : Known s)
    (stepped : Server.machine.step s e = some next) : Shown id s next p := by
  cases moves_of_step stepped with
  | accept => exact acceptConn views
  | recv data found => exact recvData views known found data
  | hangup found => exact closeConn views known found
  | datagram data => exact push _ views (by simp)
  | pop idle first => exact pop views idle first
  | act found acted => exact act views found acted
  | reply found => exact reply views found
  | done answer found => exact still (views.leave found (fun _ => ⟨_, rfl⟩) not_answering_idle) rfl
  | next answer found => exact nextBuffer views found
  | write answer found unsent => exact writeOnce answer views known found unsent

end Shown

/-- In every run of the server, each connection sees a run of its own workers: with the same shared state, its works
in the queue and in the hands of the workers, and the bytes put on it. What strays in are exactly the writes to it of
workers that answer others. -/
theorem connection_view {reserved : List ℤ} {workerCount : ℕ} {es : List Server.Event} {final : Server}
    (id : ℕ) (reached : Server.machine.run (.start reserved workerCount) es = some final) :
    ∃ tape p, Pipeline.machine.run .start tape = some p ∧ Views id final p ∧
      tape.filterMap strayed = strays id final := by
  obtain ⟨tape, p, ran, ⟨known, views⟩, shown⟩ := Server.machine.run_simulates
    (fun s p => Known s ∧ Views id s p) (strays id) strayed
    (fun s p e next related stepped =>
      let ⟨tape, after, ran, views, adds⟩ := Shown.step related.2 related.1 stepped
      ⟨tape, after, ran, ⟨related.1.step stepped, views⟩, adds⟩)
    ⟨.start reserved workerCount, .start id reserved workerCount⟩ reached
  exact ⟨tape, p, ran, views, shown.symm⟩

/-- The second connection gets the number of the first, whose frame is still in the queue. -/
theorem connection_view_reused : ∃ final tape p bytes,
    Server.machine.run (.start [0, 1, 2, 3, 4, 5] 1) (oneFrame ++ [.hangup 6, .accept] ++ oneAnswer) = some final ∧
      Pipeline.machine.run .start tape = some p ∧ Views 1 final p ∧ bytes ≠ [] ∧ p.stream = bytes ∧
      tape.filterMap strayed = [bytes] := by
  obtain ⟨final, bytes, reached, nonempty, wire⟩ : ∃ final bytes,
      Server.machine.run (.start [0, 1, 2, 3, 4, 5] 1) (oneFrame ++ [.hangup 6, .accept] ++ oneAnswer) = some final ∧
        bytes ≠ [] ∧ final.wire = [⟨1, some 0, bytes⟩] := ⟨_, _, rfl, List.cons_ne_nil _ _, rfl⟩
  obtain ⟨tape, p, ran, views, shown⟩ := connection_view 1 reached
  refine ⟨final, tape, p, bytes, reached, ran, views, nonempty, ?_, ?_⟩
  · simp [views.stream, wire]
  · simp [shown, strays, wire]

end ProcessMonitor.Soundness.ConnectionView
