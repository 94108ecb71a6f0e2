import ProcessMonitor.Model.Vts.WorkerThreads
import ProcessMonitor.Soundness.WorkQueueHistory

/-! # No node is lost and no worker is forgotten

The threads at the request queue are a monitor whose items are the addresses of the linked nodes. Every live node is
in the queue, in the hands of the thread that pushes it, or of the one worker that has taken it, so that
none is freed twice and none is leaked. A worker sleeps only while enough others are awake for what is
queued, and the workers come to rest only with an empty queue.
-/

namespace ProcessMonitor.Soundness.WakeUps

open Machine Machine.Posix Model.Vts WorkQueueHistory

/-- The node that `req_queue_push` has filled and not yet linked. -/
def filled : Monitor.Producer ℕ → List ℕ
  | .entering w | .inside w | .roomy w => [w]
  | _ => []

/-- The node that a worker has taken and not yet freed. -/
def taken : Monitor.Consumer ℕ → List ℕ
  | .leaving w | .busy w => [w]
  | _ => []

/-- The nodes in use. -/
def inUse (s : WorkerThreads) (nodes : List (ℕ × Work)) : List ℕ :=
  nodes.map Prod.fst ++ (filled s.pusher ++ s.workers.flatMap taken)

/-- The threads over the list of the linked nodes. -/
def monitor (s : WorkerThreads) (nodes : List (ℕ × Work)) : Monitor ℕ :=
  ⟨nodes.map Prod.fst, s.qlock, s.pusher, s.workers⟩

/-- The `if(qlen >= QUEUE_DEPTH)` block, on the list. -/
def room {α : Type*} (items : List α) : List α := if queueDepth ≤ items.length then items.tail else items

theorem length_room {α : Type*} (items : List α) : (room items).length ≤ items.length := by
  rw [room]
  split
  · rw [List.length_tail]
    exact Nat.sub_le _ _
  · exact Nat.le_refl _

theorem map_room {α β : Type*} (f : α → β) (items : List α) : (room items).map f = room (items.map f) := by
  rw [room, room, List.length_map]
  split
  · rw [List.map_tail]
  · rfl

/-- Making room frees at most the oldest node. -/
theorem dropOldest_owned {q next : WorkQueue} {nodes : List (ℕ × Work)} {others : List ℕ} {dropped : Option Work}
    (represents : Represents q nodes) (bound : (nodes.length : ℤ) ≤ queueDepth)
    (owned : Owned q.heap (nodes.map Prod.fst ++ others)) (trimmed : q.dropOldest = some (next, dropped)) :
    Represents next (room nodes) ∧ ((room nodes).length : ℤ) < queueDepth ∧
      Owned next.heap ((room nodes).map Prod.fst ++ others) ∧
      ∀ address ∉ nodes.map Prod.fst, next.heap address = q.heap address := by
  obtain ⟨after, gone, kept, same, keptRep, elsewhere, outcome⟩ := represents.dropOldest bound
  cases trimmed.symm.trans same
  rcases outcome with ⟨short, -, rfl⟩ | ⟨full, old, -, rfl⟩
  · rw [WorkQueue.dropOldest, if_neg (by rw [represents.count]; omega)] at trimmed
    cases trimmed
    rw [room, if_neg (by omega)]
    exact ⟨keptRep, short, owned, elsewhere⟩
  · have freed : next.heap = Function.update q.heap old.1 none := by
      obtain ⟨unlinked, first, -, heap⟩ := represents.unlinkHead
      have head := represents.head
      have overfull : queueDepth ≤ q.qlen := by
        rw [represents.count]
        omega
      rw [List.head?_cons, Option.map_some] at head
      simp only [WorkQueue.dropOldest, if_pos overfull, head, first, Option.map_some] at trimmed
      cases trimmed
      exact congrArg (Function.update · old.1 none) heap
    rw [room, if_pos (Int.le_of_eq full.symm), List.tail_cons]
    refine ⟨keptRep, ?_, ?_, elsewhere⟩
    · rw [List.length_cons] at full
      omega
    · rw [freed]
      exact owned.free

/-- Linking moves a node of the others to the end of the queue. -/
theorem link_owned {q next : WorkQueue} {nodes : List (ℕ × Work)} {others : List ℕ} {w : ℕ} {work : Work}
    (represents : Represents q nodes) (owned : Owned q.heap (nodes.map Prod.fst ++ w :: others))
    (unlinked : q.heap w = some ⟨work, none⟩) (linked : q.link w = some next) :
    Represents next (nodes ++ [(w, work)]) ∧ Owned next.heap ((nodes ++ [(w, work)]).map Prod.fst ++ others) := by
  have outside : w ∉ nodes.map Prod.fst := fun queued =>
    (List.nodup_append.mp owned.distinct).2.2 w queued w List.mem_cons_self rfl
  obtain ⟨after, same, nextRep, live⟩ := represents.link unlinked outside
  cases linked.symm.trans same
  refine ⟨nextRep, ?_⟩
  have moved := owned.congr live
  simpa only [List.map_append, List.map_cons, List.map_nil, List.append_assoc, List.singleton_append] using moved

/-- The linked nodes, and who has which node. -/
structure Tended (s : WorkerThreads) (nodes : List (ℕ × Work)) : Prop where
  represents : Represents s.queue nodes
  bound : (nodes.length : ℤ) ≤ queueDepth
  roomy : ∀ {w}, s.pusher = .roomy w → (nodes.length : ℤ) < queueDepth
  unlinked : ∀ {w}, w ∈ filled s.pusher → ∃ work, s.queue.heap w = some ⟨work, none⟩
  owned : Owned s.queue.heap (inUse s nodes)

theorem tended_start (count : ℕ) : Tended (.start count) [] where
  represents := represents_empty
  bound := by decide
  roomy := nofun
  unlinked := nofun
  owned := by
    have nothing : inUse (.start count) [] = [] := by
      apply List.flatMap_eq_nil_iff.mpr
      intro worker member
      rw [List.eq_of_mem_replicate member]
      rfl
    rw [nothing]
    exact ⟨List.nodup_nil, fun _ => ⟨fun absent => absurd rfl absent, nofun⟩⟩

namespace Tended

variable {s : WorkerThreads} {nodes : List (ℕ × Work)}

/-- The nodes in use, after a worker has moved. -/
theorem inUse_set_perm (s : WorkerThreads) (nodes : List (ℕ × Work)) {i : ℕ} {old : Monitor.Consumer ℕ}
    (found : s.workers[i]? = some old) (new : Monitor.Consumer ℕ) (queue : WorkQueue)
    (qlock : Option Monitor.Owner) :
    (inUse { s with queue, qlock, workers := s.workers.set i new } nodes ++ taken old).Perm
      (inUse s nodes ++ taken new) := by
  simp only [inUse, List.append_assoc]
  exact ((flatMap_set_perm taken found new).append_left _).append_left _

/-- A worker moves and keeps its node, if it has one. -/
theorem move (tended : Tended s nodes) {i : ℕ} {old : Monitor.Consumer ℕ} (found : s.workers[i]? = some old)
    (new : Monitor.Consumer ℕ) (same : taken new = taken old) (qlock : Option Monitor.Owner) :
    Tended { s with qlock, workers := s.workers.set i new } nodes := by
  have moved := inUse_set_perm s nodes found new s.queue qlock
  rw [same] at moved
  exact ⟨tended.represents, tended.bound, tended.roomy, tended.unlinked,
    tended.owned.perm ((List.perm_append_right_iff _).mp moved).symm⟩

/-- `req_queue_push` moves and keeps its node, if it has one, and what is queued. -/
theorem push_on (tended : Tended s nodes) (pusher : Monitor.Producer ℕ) (same : filled pusher = filled s.pusher)
    (away : ∀ w, pusher ≠ .roomy w) (qlock : Option Monitor.Owner) : Tended { s with qlock, pusher } nodes where
  represents := tended.represents
  bound := tended.bound
  roomy here := absurd here (away _)
  unlinked member := tended.unlinked (same ▸ member)
  owned := by
    simp only [inUse, same]
    exact tended.owned

theorem fill (tended : Tended s nodes) {w : ℕ} (idle : s.pusher = .idle) (fresh : s.queue.heap w = none)
    (work : Work) : Tended { s with queue := s.queue.prepare w work, pusher := .entering w } nodes where
  represents := tended.represents.prepare fresh work
  bound := tended.bound
  roomy := nofun
  unlinked member := ⟨work, by rw [List.mem_singleton.mp member]; exact Function.update_self ..⟩
  owned := by
    have grown := tended.owned.alloc fresh ⟨work, none⟩
    simp only [inUse, idle, filled, List.nil_append] at grown
    exact grown.perm List.perm_middle.symm

theorem drop (tended : Tended s nodes) {w : ℕ} (phase : s.pusher = .inside w) {queue : WorkQueue}
    {dropped : Option Work} (trimmed : s.queue.dropOldest = some (queue, dropped)) :
    Tended { s with queue, pusher := .roomy w } (room nodes) := by
  obtain ⟨represents, bound, -, unlinked, owned⟩ := tended
  simp only [inUse, phase] at owned unlinked
  obtain ⟨keptRep, short, after, elsewhere⟩ := dropOldest_owned represents bound owned trimmed
  refine ⟨keptRep, Int.le_of_lt short, fun _ => short, fun member => ?_, after⟩
  have outside := fun queued => (List.nodup_append.mp owned.distinct).2.2 _ queued _ (List.mem_append_left _ member) rfl
  obtain ⟨work, here⟩ := unlinked member
  exact ⟨work, (elsewhere _ outside).trans here⟩

theorem link (tended : Tended s nodes) {w : ℕ} (phase : s.pusher = .roomy w) {work : Work}
    (unlinked : s.queue.heap w = some ⟨work, none⟩) {queue : WorkQueue} (linked : s.queue.link w = some queue) :
    Tended { s with queue, pusher := .added } (nodes ++ [(w, work)]) := by
  obtain ⟨represents, bound, roomy, -, owned⟩ := tended
  simp only [inUse, phase] at owned
  obtain ⟨nextRep, after⟩ := link_owned represents owned unlinked linked
  refine ⟨nextRep, ?_, nofun, nofun, after⟩
  have short := roomy phase
  rw [List.length_append, List.length_singleton]
  omega

theorem take (tended : Tended s nodes) {i w : ℕ} (phase : s.workers[i]? = some .inside) {queue : WorkQueue}
    {work : Work} (took : s.queue.workerTake = some (queue, some (w, work))) :
    ∃ rest, nodes = (w, work) :: rest ∧ queue.heap = s.queue.heap ∧
      Tended { s with queue, workers := s.workers.set i (.leaving w) } rest := by
  obtain ⟨next, same, represents, heap⟩ := tended.represents.workerTake
  cases nodes with
  | nil => cases took.symm.trans same
  | cons node rest =>
    cases took.symm.trans same
    refine ⟨rest, rfl, heap, represents, ?_, ?_, ?_, ?_⟩
    · have bound := tended.bound
      rw [List.length_cons] at bound
      omega
    · intro _ here
      have short := tended.roomy here
      rw [List.length_cons] at short
      omega
    · dsimp only
      rw [heap]
      exact tended.unlinked
    · dsimp only
      rw [heap]
      have moved := inUse_set_perm s rest phase (.leaving w) queue s.qlock
      simp only [taken, List.append_nil] at moved
      exact tended.owned.perm (moved.trans (List.perm_append_singleton _ _)).symm

/-- A worker that finds no node goes to sleep. -/
theorem wait (tended : Tended s nodes) {i : ℕ} (phase : s.workers[i]? = some .inside) {queue : WorkQueue}
    (took : s.queue.workerTake = some (queue, none)) :
    nodes = [] ∧ queue.heap = s.queue.heap ∧
      Tended { s with queue, qlock := none, workers := s.workers.set i .asleep } nodes := by
  obtain ⟨next, same, represents, heap⟩ := tended.represents.workerTake
  cases nodes with
  | cons node rest => cases took.symm.trans same
  | nil =>
    cases took.symm.trans same
    obtain ⟨-, bound, roomy, unlinked, owned⟩ := tended.move phase .asleep rfl none
    refine ⟨rfl, heap, represents, bound, roomy, ?_, ?_⟩
    · dsimp only
      rw [heap]
      exact unlinked
    · dsimp only
      rw [heap]
      exact owned

theorem free (tended : Tended s nodes) {i w : ℕ} (phase : s.workers[i]? = some (.busy w)) :
    Tended { s with queue := s.queue.free w, workers := s.workers.set i .entering } nodes := by
  have moved := inUse_set_perm s nodes phase .entering (s.queue.free w) s.qlock
  simp only [taken, List.append_nil] at moved
  have used := tended.owned.perm (moved.symm.trans (List.perm_append_singleton _ _))
  have others := (List.nodup_cons.mp used.distinct).1
  refine ⟨tended.represents.free fun queued => others (List.mem_append_left _ queued), tended.bound, tended.roomy, ?_,
    used.free⟩
  intro a member
  have different : a ≠ w := fun same =>
    others (same ▸ List.mem_append_right _ (List.mem_append_left _ member))
  obtain ⟨work, here⟩ := tended.unlinked member
  exact ⟨work, (Function.update_of_ne different _ _).trans here⟩

end Tended

/-- A step of the threads is one of the monitor, and keeps account of the nodes. -/
theorem follows {s next : WorkerThreads} {nodes : List (ℕ × Work)} (tended : Tended s nodes)
    {event : WorkerThreads.Event} (moves : WorkerThreads.Moves s event next) :
    ∃ after, Tended next after ∧ (Monitor.Moves room (monitor s nodes) (monitor next after) ∧ event.Inner ∨
      Monitor.Disturbed (monitor s nodes) (monitor next after) ∧ ¬ event.Inner) := by
  cases moves with
  | @push w _ _ _ idle fresh => exact ⟨nodes, tended.fill idle fresh _, .inr ⟨.put w idle, nofun⟩⟩
  | @lock w phase free =>
    exact ⟨nodes, tended.push_on (.inside w) (by rw [phase]; rfl) (fun _ => nofun) _,
      .inl ⟨.lock w phase free, trivial⟩⟩
  | @drop w queue dropped phase trimmed =>
    refine ⟨_, tended.drop phase trimmed, .inl ⟨?_, trivial⟩⟩
    rw [monitor.eq_def _ (room nodes), map_room]
    exact .makeRoom w phase
  | @link w queue phase linked =>
    obtain ⟨work, unlinked⟩ := tended.unlinked (w := w) (by rw [phase]; exact List.mem_cons_self)
    refine ⟨_, tended.link phase unlinked linked, .inl ⟨?_, trivial⟩⟩
    rw [monitor.eq_def _ (nodes ++ _), List.map_append]
    exact .add w phase
  | @signal i phase sleeper =>
    have woken := tended.move sleeper .entering rfl s.qlock
    exact ⟨nodes, woken.push_on .signalled (by rw [phase]; rfl) (fun _ => nofun) _,
      .inl ⟨.signal i phase sleeper, trivial⟩⟩
  | signalNobody phase nobody =>
    exact ⟨nodes, tended.push_on .signalled (by rw [phase]; rfl) (fun _ => nofun) _,
      .inl ⟨.signalNobody phase fun c member same => nobody (same ▸ member), trivial⟩⟩
  | unlock phase =>
    exact ⟨nodes, tended.push_on .idle (by rw [phase]; rfl) (fun _ => nofun) _, .inl ⟨.unlock phase, trivial⟩⟩
  | @enter i phase free => exact ⟨nodes, tended.move phase .inside rfl _, .inl ⟨.enter i phase free, trivial⟩⟩
  | @wait i queue phase took =>
    obtain ⟨rfl, -, after⟩ := tended.wait phase took
    exact ⟨[], after, .inl ⟨.sleep i phase rfl, trivial⟩⟩
  | @take i queue w work phase took =>
    obtain ⟨rest, rfl, -, after⟩ := tended.take phase took
    exact ⟨rest, after, .inl ⟨.take i w _ phase rfl, trivial⟩⟩
  | @leave i w phase => exact ⟨nodes, tended.move phase (.busy w) rfl _, .inl ⟨.leave i w phase, trivial⟩⟩
  | @free i w phase => exact ⟨nodes, tended.free phase, .inl ⟨.finish i w phase, trivial⟩⟩
  | @wakeup i phase => exact ⟨nodes, tended.move phase .entering rfl _, .inr ⟨.wake i phase, nofun⟩⟩

/-- What holds of the threads at any time. -/
def Kept (count : ℕ) (s : WorkerThreads) : Prop :=
  s.workers.length = count ∧ ∃ nodes, Tended s nodes ∧ (monitor s nodes).Sound

theorem length_workers {s next : WorkerThreads} {event : WorkerThreads.Event}
    (moves : WorkerThreads.Moves s event next) : next.workers.length = s.workers.length := by
  cases moves <;> first | rfl | exact List.length_set

theorem kept_step {count : ℕ} (s : WorkerThreads) (event : WorkerThreads.Event) (next : WorkerThreads)
    (kept : Kept count s) (stepped : WorkerThreads.machine.step s event = some next) : Kept count next := by
  obtain ⟨size, nodes, tended, sound⟩ := kept
  have moves := WorkerThreads.moves_of_step stepped
  obtain ⟨after, tendedNext, ⟨moved, -⟩ | ⟨disturbed, -⟩⟩ := follows tended moves
  · exact ⟨(length_workers moves).trans size, after, tendedNext, sound.moves length_room moved⟩
  · exact ⟨(length_workers moves).trans size, after, tendedNext, sound.disturbed disturbed⟩

theorem kept_run {count : ℕ} {events : List WorkerThreads.Event} {s : WorkerThreads}
    (ran : WorkerThreads.machine.run (.start count) events = some s) : Kept count s :=
  EventMachine.invariant (Kept count) kept_step
    ⟨List.length_replicate, [], tended_start count, Monitor.sound_start count⟩ ran

/-- The blocks between the calls of the mutex never fail: what the monitor can do, the threads can do. -/
theorem enabled {s : WorkerThreads} {nodes : List (ℕ × Work)} (tended : Tended s nodes) {m : Monitor ℕ}
    (moves : Monitor.Moves room (monitor s nodes) m) :
    ∃ event : WorkerThreads.Event, event.Inner ∧ s.step event ≠ none := by
  cases moves with
  | lock w phase free =>
    change s.pusher = _ at phase
    change s.qlock = _ at free
    exact ⟨.pusher, trivial, by simp [WorkerThreads.step, WorkerThreads.stepPusher, phase, free]⟩
  | makeRoom w phase =>
    change s.pusher = _ at phase
    obtain ⟨next, dropped, -, trimmed, -⟩ := tended.represents.dropOldest tended.bound
    exact ⟨.pusher, trivial, by simp [WorkerThreads.step, WorkerThreads.stepPusher, phase, trimmed]⟩
  | add w phase =>
    change s.pusher = _ at phase
    have owned := tended.owned
    simp only [inUse, phase, filled] at owned
    obtain ⟨work, here⟩ := tended.unlinked (w := w) (by rw [phase]; exact List.mem_cons_self)
    have outside : w ∉ nodes.map Prod.fst := fun queued =>
      (List.nodup_append.mp owned.distinct).2.2 w queued w List.mem_cons_self rfl
    obtain ⟨next, linked, -⟩ := tended.represents.link here outside
    exact ⟨.pusher, trivial, by simp [WorkerThreads.step, WorkerThreads.stepPusher, phase, linked]⟩
  | signal i phase sleeper =>
    change s.pusher = _ at phase
    change s.workers[i]? = _ at sleeper
    exact ⟨.signal (some i), trivial, by simp [WorkerThreads.step, WorkerThreads.stepSignal, phase, sleeper]⟩
  | signalNobody phase nobody =>
    change s.pusher = _ at phase
    have awake : .asleep ∉ s.workers := fun member => nobody _ member rfl
    exact ⟨.signal none, trivial, by simp [WorkerThreads.step, WorkerThreads.stepSignal, phase, awake]⟩
  | unlock phase =>
    change s.pusher = _ at phase
    exact ⟨.pusher, trivial, by simp [WorkerThreads.step, WorkerThreads.stepPusher, phase]⟩
  | enter i phase free =>
    change s.workers[i]? = _ at phase
    change s.qlock = _ at free
    exact ⟨.worker i, trivial, by simp [WorkerThreads.step, WorkerThreads.stepWorker, phase, free]⟩
  | sleep i phase _ | take i _ _ phase _ =>
    change s.workers[i]? = _ at phase
    obtain ⟨next, took, -⟩ := tended.represents.workerTake
    exact ⟨.worker i, trivial, by simp [WorkerThreads.step, WorkerThreads.stepWorker, phase, took]⟩
  | leave i w phase | finish i w phase =>
    change s.workers[i]? = _ at phase
    exact ⟨.worker i, trivial, by simp [WorkerThreads.step, WorkerThreads.stepWorker, phase]⟩

/-- Whatever the scheduler does, the live nodes are those in the queue, the one that is being pushed and those that a
worker has taken, and no node is two of these. -/
theorem nodes_accounted {count : ℕ} {events : List WorkerThreads.Event} {s : WorkerThreads}
    (ran : WorkerThreads.machine.run (.start count) events = some s) :
    ∃ nodes, Chain s.queue.heap s.queue.qhead nodes ∧ s.queue.qlen = nodes.length ∧
      Owned s.queue.heap (inUse s nodes) := by
  obtain ⟨-, nodes, tended, -⟩ := kept_run ran
  exact ⟨nodes, tended.represents.chain, tended.represents.count, tended.owned⟩

/-- A push is under way, and a worker has a node that was pushed before. -/
def pushAndTake : List WorkerThreads.Event :=
  [.push 16 [123] 1 5, .pusher, .pusher, .pusher, .signal none, .pusher, .worker 1, .push 32 [125] 1 6, .worker 1]

theorem nodes_accounted_taken : ∃ s, WorkerThreads.machine.run (.start workerCount) pushAndTake = some s ∧
    s.pusher = .entering 32 ∧ s.workers[1]? = some (.leaving 16) ∧
    ∃ nodes, Chain s.queue.heap s.queue.qhead nodes ∧ s.queue.qlen = nodes.length ∧
      Owned s.queue.heap (inUse s nodes) := by
  have ran : ∃ s, WorkerThreads.machine.run (.start workerCount) pushAndTake = some s ∧
      s.pusher = .entering 32 ∧ s.workers[1]? = some (.leaving 16) := ⟨_, rfl, rfl, rfl⟩
  obtain ⟨s, ran, pushing, taking⟩ := ran
  exact ⟨s, ran, pushing, taking, nodes_accounted ran⟩

/-- No wake-up is lost: as long as a worker waits, the queued works are no more than the workers on their way to
the queue, and one more between the linking of a work and its signal. -/
theorem sleepers_covered {count : ℕ} {events : List WorkerThreads.Event} {s : WorkerThreads}
    {nodes : List (ℕ × Work)} (ran : WorkerThreads.machine.run (.start count) events = some s)
    (queued : Chain s.queue.heap s.queue.qhead nodes) (asleep : .asleep ∈ s.workers) :
    nodes.length ≤ tally Monitor.Consumer.ready s.workers + s.pusher.owes := by
  obtain ⟨-, others, tended, sound⟩ := kept_run ran
  have covered := sound.woken (Nat.pos_iff_ne_zero.mp (le_tally Monitor.Consumer.sleeps asleep))
  rw [queued.unique tended.represents.chain]
  rwa [monitor, List.length_map] at covered

/-- Two workers, of which one has found nothing, and a request that is linked and not yet signalled. -/
def sleepThenPush : List WorkerThreads.Event :=
  [.worker 0, .worker 0, .push 16 [123] 1 5, .pusher, .pusher, .pusher]

theorem sleepers_covered_pushed : ∃ (s : WorkerThreads) (nodes : List (ℕ × Work)),
    WorkerThreads.machine.run (.start 2) sleepThenPush = some s ∧ .asleep ∈ s.workers ∧ s.pusher = .added ∧
    nodes = [(16, ⟨[123], 1, 5⟩)] ∧
    nodes.length ≤ tally Monitor.Consumer.ready s.workers + s.pusher.owes := by
  have ran : ∃ s, WorkerThreads.machine.run (.start 2) sleepThenPush = some s ∧ .asleep ∈ s.workers ∧
      s.pusher = .added ∧ s.queue.qhead = some 16 ∧ s.queue.heap 16 = some ⟨⟨[123], 1, 5⟩, none⟩ :=
    ⟨_, rfl, List.mem_cons_self, rfl, rfl, rfl⟩
  obtain ⟨s, ran, asleep, added, first, last⟩ := ran
  refine ⟨s, _, ran, asleep, added, rfl, sleepers_covered ran ?_ asleep⟩
  rw [first]
  exact .cons last .nil

/-- The steps that the threads can still take without a new request and without a wake-up for no reason. -/
def stepsLeft (s : WorkerThreads) : ℕ :=
  4 * s.queue.qlen.toNat + tally Monitor.Consumer.left s.workers + s.pusher.left

theorem left_monitor {s : WorkerThreads} {nodes : List (ℕ × Work)} (tended : Tended s nodes) :
    (monitor s nodes).left = stepsLeft s := by
  rw [Monitor.left, monitor, stepsLeft, List.length_map, tended.represents.count, Int.toNat_natCast]

theorem stepsLeft_lt {count : ℕ} (s : WorkerThreads) (event : WorkerThreads.Event) (next : WorkerThreads)
    (kept : Kept count s) (inner : event.Inner) (stepped : WorkerThreads.machine.step s event = some next) :
    stepsLeft next < stepsLeft s := by
  obtain ⟨-, nodes, tended, -⟩ := kept
  obtain ⟨after, tendedNext, ⟨moved, -⟩ | ⟨-, outer⟩⟩ := follows tended (WorkerThreads.moves_of_step stepped)
  · rw [← left_monitor tended, ← left_monitor tendedNext]
    exact Monitor.left_lt length_room moved
  · exact absurd inner outer

/-- All requests are done: nothing is queued or allocated, and all workers wait. -/
structure Done (s : WorkerThreads) : Prop where
  queue : s.queue.qhead = none
  heap : ∀ address, s.queue.heap address = none
  pusher : s.pusher = .idle
  workers : ∀ worker ∈ s.workers, worker = .asleep

theorem Tended.done {s : WorkerThreads} {nodes : List (ℕ × Work)} (tended : Tended s nodes)
    (atRest : (monitor s nodes).AtRest) : Done s := by
  obtain ⟨items, producer, consumers⟩ := atRest
  change nodes.map Prod.fst = [] at items
  change s.pusher = .idle at producer
  have nothing : inUse s nodes = [] := by
    rw [inUse, items, producer]
    apply List.flatMap_eq_nil_iff.mpr
    intro worker member
    rw [consumers worker member]
    rfl
  refine ⟨?_, fun address => ?_, producer, consumers⟩
  · rw [tended.represents.head, List.map_eq_nil_iff.mp items]
    rfl
  · by_contra live
    have member := (tended.owned.live address).mp live
    rw [nothing] at member
    cases member

/-- If there is a worker, then left to themselves, without wake-ups that nobody signalled, the threads come to an end,
after at most `stepsLeft` steps and in whatever order they take them, and where they end all requests are done. -/
theorem works_drained {count : ℕ} (staffed : 0 < count) {events more : List WorkerThreads.Event}
    {s t : WorkerThreads} (ran : WorkerThreads.machine.run (.start count) events = some s)
    (inner : ∀ event ∈ more, event.Inner) (went : WorkerThreads.machine.run s more = some t) :
    more.length ≤ stepsLeft s ∧ ((∀ event : WorkerThreads.Event, event.Inner → t.step event = none) → Done t) := by
  have kept := kept_run ran
  refine ⟨?_, fun stuck => ?_⟩
  · have := EventMachine.length_add_le stepsLeft (fun s e next held _ => kept_step s e next held) stepsLeft_lt
      kept inner went
    omega
  · obtain ⟨size, nodes, tended, sound⟩ := EventMachine.invariant (Kept count) kept_step kept went
    refine tended.done (sound.atRest ?_ fun m (moves : Monitor.Moves room _ m) => ?_)
    · exact List.ne_nil_of_length_pos (by rw [monitor, size]; exact staffed)
    · obtain ⟨event, isInner, goes⟩ := enabled tended moves
      exact goes (stuck event isInner)

/-- One worker and one request, which the worker takes and finishes before it waits. -/
def oneRequest : List WorkerThreads.Event :=
  [.pusher, .pusher, .pusher, .signal none, .pusher, .worker 0, .worker 0, .worker 0, .worker 0, .worker 0, .worker 0]

theorem works_drained_one : ∃ s t, WorkerThreads.machine.run (.start 1) [.push 16 [123] 1 5] = some s ∧
    WorkerThreads.machine.run s oneRequest = some t ∧ oneRequest.length ≤ stepsLeft s ∧ Done t := by
  have ran : ∃ s t, WorkerThreads.machine.run (.start 1) [.push 16 [123] 1 5] = some s ∧
      WorkerThreads.machine.run s oneRequest = some t ∧ t.pusher = .idle ∧ t.workers = [.asleep] :=
    ⟨_, _, rfl, rfl, rfl, rfl⟩
  obtain ⟨s, t, ran, went, idle, asleep⟩ := ran
  have inner : ∀ event ∈ oneRequest, event.Inner := by
    simp [oneRequest, WorkerThreads.Event.Inner]
  obtain ⟨bound, done⟩ := works_drained Nat.one_pos ran inner went
  refine ⟨s, t, ran, went, bound, done fun event isInner => ?_⟩
  cases event with
  | pusher => simp [WorkerThreads.step, WorkerThreads.stepPusher, idle]
  | signal woken => simp [WorkerThreads.step, WorkerThreads.stepSignal, idle]
  | worker i =>
    cases i with
    | zero => simp [WorkerThreads.step, WorkerThreads.stepWorker, asleep]
    | succ i => simp [WorkerThreads.step, WorkerThreads.stepWorker, asleep]
  | push => exact absurd isInner id
  | wakeup => exact absurd isInner id

end ProcessMonitor.Soundness.WakeUps
