import ProcessMonitor.Soundness.WakeUps

/-! # The critical sections are atomic

The other models of the queue take a whole critical section as one step. Here is why they may: every run of the
threads, step by step between the calls of the mutex, has the same effect as a run of whole sections. A push counts
where its node is linked, a dequeue where the node is unlinked, and the end of a work where its node is freed.
Only a push that has made room and not yet linked its node is ahead of its section, and then it has the
mutex, so that no worker is at the queue.
-/

namespace ProcessMonitor.Soundness.AtomicSections

open Machine Machine.Posix Model.Vts WorkQueueHistory WakeUps

/-- The works that the calls of `req_queue_push` bring, in their order. -/
def pushes (events : List WorkerThreads.Event) : List Work :=
  events.filterMap fun
    | .push _ payload len peerFd => some (WorkQueue.makeWork payload len peerFd)
    | _ => none

/-- The work that is filled in and not yet linked. -/
def pending (s : WorkerThreads) : List Work :=
  (filled s.pusher).filterMap fun w => (s.queue.heap w).map Cell.value

/-- A push that has made room. -/
def trimmed : Monitor.Producer ℕ → Bool
  | .roomy _ => true
  | _ => false

/-- A whole push, with an account of the nodes. -/
theorem push_owned {q : WorkQueue} {nodes : List (ℕ × Work)} {others : List ℕ} {w : ℕ}
    (represents : Represents q nodes) (bound : (nodes.length : ℤ) ≤ queueDepth)
    (owned : Owned q.heap (nodes.map Prod.fst ++ others)) (fresh : q.heap w = none) (payload : Bytes) (len : ℕ)
    (peerFd : ℤ) :
    ∃ next dropped, q.reqQueuePush w payload len peerFd = some (next, dropped) ∧
      Represents next (room nodes ++ [(w, WorkQueue.makeWork payload len peerFd)]) ∧
      Owned next.heap ((room nodes ++ [(w, WorkQueue.makeWork payload len peerFd)]).map Prod.fst ++ others) := by
  have outside := represents.outside fresh
  have filledRep := represents.prepare fresh (WorkQueue.makeWork payload len peerFd)
  have filledOwned := (owned.alloc fresh ⟨WorkQueue.makeWork payload len peerFd, none⟩).perm List.perm_middle.symm
  obtain ⟨trimmed, dropped, -, made, -⟩ := filledRep.dropOldest bound
  obtain ⟨trimmedRep, -, trimmedOwned, elsewhere⟩ := dropOldest_owned filledRep bound filledOwned made
  have unlinked : trimmed.heap w = some ⟨WorkQueue.makeWork payload len peerFd, none⟩ :=
    (elsewhere w outside).trans (Function.update_self ..)
  have away : w ∉ (room nodes).map Prod.fst := fun queued =>
    (List.nodup_append.mp trimmedOwned.distinct).2.2 w queued w List.mem_cons_self rfl
  obtain ⟨next, linked, -⟩ := trimmedRep.link unlinked away
  refine ⟨next, dropped, ?_, link_owned trimmedRep trimmedOwned unlinked linked⟩
  simp only [WorkQueue.reqQueuePush, WorkQueue.enqueue, made, bind, Option.bind_some, linked]

/-- The threads `s` are where the whole sections have taken `q`, or ahead by the room that a push has made. -/
structure Lags (s : WorkerThreads) (q : QueueSystem) (works : List Work) (nodes before : List (ℕ × Work)) : Prop where
  tended : Tended s nodes
  sound : (monitor s nodes).Sound
  sections : Represents q.queue before
  bound : (before.length : ℤ) ≤ queueDepth
  same : nodes = if trimmed s.pusher then room before else before
  owned : Owned q.queue.heap (before.map Prod.fst ++ q.taken)
  hands : q.taken.Perm (s.workers.flatMap taken)
  fresh : ∀ w ∈ filled s.pusher, q.queue.heap w = none
  made : ∀ w ∈ filled s.pusher, ∃ payload len peerFd,
    s.queue.heap w = some ⟨WorkQueue.makeWork payload len peerFd, none⟩
  pushed : works = q.pushed ++ pending s

theorem lags_start (count : ℕ) : Lags (.start count) .start [] [] [] where
  tended := tended_start count
  sound := Monitor.sound_start count
  sections := represents_empty
  bound := by decide
  same := rfl
  owned := ⟨List.nodup_nil, fun _ => ⟨fun absent => absurd rfl absent, nofun⟩⟩
  hands := by
    apply List.Perm.of_eq
    symm
    apply List.flatMap_eq_nil_iff.mpr
    intro worker member
    rw [List.eq_of_mem_replicate member]
    rfl
  fresh := nofun
  made := nofun
  pushed := rfl

namespace Lags

variable {s next : WorkerThreads} {q : QueueSystem} {works : List Work} {nodes before after : List (ℕ × Work)}

/-- A step that is no section. -/
theorem stutter (lags : Lags s q works nodes before) (tended : Tended next after) (sound : (monitor next after).Sound)
    (same : after = if trimmed next.pusher then room before else before) (node : filled next.pusher = filled s.pusher)
    (cells : ∀ w ∈ filled s.pusher, next.queue.heap w = s.queue.heap w)
    (hands : (s.workers.flatMap taken).Perm (next.workers.flatMap taken)) : Lags next q works after before where
  tended := tended
  sound := sound
  sections := lags.sections
  bound := lags.bound
  same := same
  owned := lags.owned
  hands := lags.hands.trans hands
  fresh w member := lags.fresh w (node ▸ member)
  made w member := by
    rw [node] at member
    rw [cells w member]
    exact lags.made w member
  pushed := by
    have kept : pending next = pending s := by
      rw [pending, pending, node]
      apply List.filterMap_congr
      intro w member
      rw [cells w member]
    rw [kept]
    exact lags.pushed

/-- A worker moves and keeps its node, if it has one. -/
theorem hands_set {i : ℕ} {old new : Monitor.Consumer ℕ} (found : s.workers[i]? = some old)
    (same : taken new = taken old) : (s.workers.flatMap taken).Perm ((s.workers.set i new).flatMap taken) := by
  have moved := flatMap_set_perm taken found new
  rw [same] at moved
  exact ((List.perm_append_right_iff _).mp moved).symm

theorem push (lags : Lags s q works nodes before) {w : ℕ} (idle : s.pusher = .idle) (unused : s.queue.heap w = none)
    (payload : Bytes) (len : ℕ) (peerFd : ℤ)
    (sound : (monitor { s with pusher := .entering w } nodes).Sound) :
    Lags { s with queue := s.queue.prepare w (WorkQueue.makeWork payload len peerFd), pusher := .entering w } q
      (works ++ [WorkQueue.makeWork payload len peerFd]) nodes before where
  tended := lags.tended.fill idle unused _
  sound := sound
  sections := lags.sections
  bound := lags.bound
  same := by
    have same := lags.same
    rw [idle] at same
    exact same
  owned := lags.owned
  hands := lags.hands
  fresh other member := by
    cases List.mem_singleton.mp member
    by_contra live
    have used := (lags.owned.live w).mp live
    have same := lags.same
    rw [idle] at same
    have outside : w ∉ inUse s nodes := fun inside => (lags.tended.owned.live w).mpr inside unused
    rw [same, inUse, idle] at outside
    apply outside
    rcases List.mem_append.mp used with queued | held
    · exact List.mem_append_left _ queued
    · exact List.mem_append_right _ (lags.hands.mem_iff.mp held)
  made other member := by
    cases List.mem_singleton.mp member
    exact ⟨payload, len, peerFd, Function.update_self ..⟩
  pushed := by
    have before := lags.pushed
    rw [pending, idle] at before
    simp only [pending, filled, WorkQueue.prepare, List.filterMap_cons, Function.update_self, Option.map_some,
      List.filterMap_nil] at before ⊢
    rw [before, List.append_nil]

/-- The section of a push takes effect where its node is linked. -/
theorem link (lags : Lags s q works nodes before) {w : ℕ} (phase : s.pusher = .roomy w) {queue : WorkQueue}
    (linked : s.queue.link w = some queue) :
    ∃ call q' after, q.step call = some q' ∧ Tended { s with queue, pusher := .added } after ∧
      ((monitor { s with queue, pusher := .added } after).Sound →
        Lags { s with queue, pusher := .added } q' works after after) := by
  have filling : w ∈ filled s.pusher := by
    rw [phase]
    exact List.mem_cons_self
  obtain ⟨payload, len, peerFd, unlinked⟩ := lags.made w filling
  have fresh := lags.fresh w filling
  obtain ⟨after, dropped, pushed, sections, owned⟩ :=
    push_owned lags.sections lags.bound lags.owned fresh payload len peerFd
  have same := lags.same
  rw [phase, trimmed, if_pos rfl] at same
  have tended := lags.tended.link phase unlinked linked
  have works_ := lags.pushed
  simp only [pending, phase, filled, List.filterMap_cons, unlinked, Option.map_some, List.filterMap_nil] at works_
  rw [same] at tended
  refine ⟨.push w payload len peerFd,
    { q with
      queue := after
      pushed := q.pushed ++ [WorkQueue.makeWork payload len peerFd]
      dropped := q.dropped ++ dropped.toList }, _, ?_, tended,
    fun sound => ⟨tended, sound, sections, tended.bound, rfl, owned, lags.hands, by simp [filled], by simp [filled],
      ?_⟩⟩
  · rw [QueueSystem.step, if_pos fresh, pushed, Option.map_some]
  · rw [works_]
    exact (List.append_nil _).symm

/-- The section of a worker takes effect where it unlinks the node. While it has the mutex, no push is ahead. -/
theorem take (lags : Lags s q works nodes before) {i w : ℕ} (phase : s.workers[i]? = some .inside)
    {queue : WorkQueue} {work : Work} (took : s.queue.workerTake = some (queue, some (w, work))) :
    ∃ call q' after, q.step call = some q' ∧
      Tended { s with queue, workers := s.workers.set i (.leaving w) } after ∧
      ((monitor { s with queue, workers := s.workers.set i (.leaving w) } after).Sound →
        Lags { s with queue, workers := s.workers.set i (.leaving w) } q' works after after) := by
  have level : trimmed s.pusher = false := by
    have mine := (lags.sound.held.consumerHolds phase).mp rfl
    cases pushing : s.pusher with
    | roomy =>
      have theirs := lags.sound.held.producerHolds.mp (by rw [monitor, pushing]; rfl)
      rw [mine] at theirs
      cases theirs
    | _ => rfl
  have same := lags.same
  rw [level, if_neg Bool.false_ne_true] at same
  obtain ⟨rest, first, heap, tended⟩ := lags.tended.take phase took
  rw [same] at first
  have sections := lags.sections
  have owned := lags.owned
  rw [first] at sections owned
  obtain ⟨next, dequeued, nextRep, nextHeap⟩ := sections.workerTake
  refine ⟨.dequeue, { q with queue := next, taken := q.taken ++ [w], dequeued := q.dequeued ++ [work] }, rest, ?_,
    tended, fun sound => ⟨tended, sound, nextRep, ?_, ?_, ?_, ?_, ?_, ?_, ?_⟩⟩
  · rw [QueueSystem.step, dequeued]
    rfl
  · exact tended.bound
  · dsimp only
    rw [level]
    rfl
  · dsimp only
    rw [nextHeap]
    apply owned.perm
    rw [List.map_cons, List.cons_append, ← List.append_assoc]
    exact (List.perm_append_singleton _ _).symm
  · have moved := flatMap_set_perm taken phase (.leaving w)
    simp only [taken, List.append_nil] at moved
    exact (lags.hands.append_right [w]).trans moved.symm
  · dsimp only
    rw [nextHeap]
    exact lags.fresh
  · dsimp only
    rw [heap]
    exact lags.made
  · rw [pending]
    dsimp only
    rw [heap]
    exact lags.pushed

/-- The end of a work. -/
theorem free (lags : Lags s q works nodes before) {i w : ℕ} (phase : s.workers[i]? = some (.busy w)) :
    ∃ call q', q.step call = some q' ∧
      ((monitor { s with queue := s.queue.free w, workers := s.workers.set i .entering } nodes).Sound →
        Lags { s with queue := s.queue.free w, workers := s.workers.set i .entering } q' works nodes before) := by
  have moved := flatMap_set_perm taken phase .entering
  simp only [taken, List.append_nil] at moved
  have held : w ∈ q.taken := lags.hands.mem_iff.mpr (moved.mem_iff.mp (by simp))
  have tended := lags.tended.free phase
  have others : ∀ a ∈ filled s.pusher, a ≠ w := by
    rintro a member rfl
    have live := (lags.owned.live a).mpr (List.mem_append_right _ held)
    exact live (lags.fresh a member)
  have cells : ∀ a ∈ filled s.pusher, (s.queue.free w).heap a = s.queue.heap a := fun a member =>
    Function.update_of_ne (others a member) _ _
  have owned : Owned q.queue.heap (w :: (before.map Prod.fst ++ q.taken.erase w)) := by
    apply lags.owned.perm
    exact ((List.perm_cons_erase held).append_left _).trans List.perm_middle
  have apart := (List.nodup_cons.mp owned.distinct).1
  refine ⟨.finish w, { q with queue := q.queue.free w, taken := q.taken.erase w }, ?_,
    fun sound => ⟨tended, sound, lags.sections.free fun queued => apart (List.mem_append_left _ queued), lags.bound,
      lags.same, owned.free, ?_, ?_, ?_, ?_⟩⟩
  · rw [QueueSystem.step, if_pos held]
  · have erased := lags.hands.erase w
    have shorter := (moved.symm.trans (List.perm_append_singleton _ _)).erase w
    rw [List.erase_cons_head] at shorter
    exact erased.trans shorter
  · intro a member
    exact (Function.update_of_ne (others a member) _ _).trans (lags.fresh a member)
  · intro a member
    dsimp only
    rw [cells a member]
    exact lags.made a member
  · have kept : pending { s with queue := s.queue.free w, workers := s.workers.set i .entering } = pending s := by
      apply List.filterMap_congr
      intro a member
      dsimp only
      rw [cells a member]
    rw [kept]
    exact lags.pushed

end Lags

/-- Every step of the threads is no section or one. -/
theorem lags_step {s next : WorkerThreads} {q : QueueSystem} {works : List Work} {nodes before : List (ℕ × Work)}
    (lags : Lags s q works nodes before) {event : WorkerThreads.Event} (moves : WorkerThreads.Moves s event next) :
    ∃ calls q' nodes before, QueueSystem.machine.run q calls = some q' ∧
      Lags next q' (works ++ pushes [event]) nodes before := by
  obtain ⟨after, tended, monitored⟩ := follows lags.tended moves
  have sound : (monitor next after).Sound := by
    rcases monitored with ⟨moved, -⟩ | ⟨disturbed, -⟩
    · exact lags.sound.moves length_room moved
    · exact lags.sound.disturbed disturbed
  have level := lags.same
  -- where the queue stays as it is, so do its nodes
  have kept (same : next.queue = s.queue) : after = nodes := by
    have chain := tended.represents.chain
    rw [same] at chain
    exact chain.unique lags.tended.represents.chain
  -- a step that is no section leaves `q` where it is
  have stay (silent : pushes [event] = []) (lags : Lags next q works after before) :
      ∃ calls q' nodes before, QueueSystem.machine.run q calls = some q' ∧
        Lags next q' (works ++ pushes [event]) nodes before := by
    refine ⟨[], q, after, before, rfl, ?_⟩
    rw [silent, List.append_nil]
    exact lags
  have leap {call : QueueSystem.Event} {q' : QueueSystem} {nodes before : List (ℕ × Work)}
      (silent : pushes [event] = []) (called : q.step call = some q') (lags : Lags next q' works nodes before) :
      ∃ calls q' nodes before, QueueSystem.machine.run q calls = some q' ∧
        Lags next q' (works ++ pushes [event]) nodes before := by
    refine ⟨[call], q', nodes, before, ?_, ?_⟩
    · rw [EventMachine.run_cons]
      exact Option.bind_eq_some_iff.mpr ⟨q', called, rfl⟩
    · rw [silent, List.append_nil]
      exact lags
  cases moves with
  | push idle fresh =>
    obtain rfl := tended.represents.chain.unique (lags.tended.fill idle fresh _).represents.chain
    exact ⟨[], q, _, before, rfl, lags.push idle fresh _ _ _ sound⟩
  | lock phase free =>
    obtain rfl := kept rfl
    rw [phase] at level
    exact stay rfl (lags.stutter tended sound level (by rw [phase]; rfl) (fun _ _ => rfl) (.refl _))
  | @drop w queue _ phase trimmed =>
    obtain rfl := tended.represents.chain.unique (lags.tended.drop phase trimmed).represents.chain
    rw [phase] at level
    refine stay rfl
      (lags.stutter tended sound (congrArg room level) (by rw [phase]; rfl) (fun a member => ?_) (.refl _))
    obtain ⟨-, -, -, elsewhere⟩ :=
      dropOldest_owned lags.tended.represents lags.tended.bound lags.tended.owned trimmed
    apply elsewhere
    intro queued
    exact (List.nodup_append.mp lags.tended.owned.distinct).2.2 a queued a (List.mem_append_left _ member) rfl
  | link phase linked =>
    obtain ⟨call, q', linkedNodes, called, linkedTended, follow⟩ := lags.link phase linked
    obtain rfl := tended.represents.chain.unique linkedTended.represents.chain
    exact leap rfl called (follow sound)
  | signal phase sleeper =>
    obtain rfl := kept rfl
    rw [phase] at level
    exact stay rfl (lags.stutter tended sound level (by rw [phase]; rfl) (fun _ _ => rfl)
      (Lags.hands_set sleeper rfl))
  | signalNobody phase nobody =>
    obtain rfl := kept rfl
    rw [phase] at level
    exact stay rfl (lags.stutter tended sound level (by rw [phase]; rfl) (fun _ _ => rfl) (.refl _))
  | unlock phase =>
    obtain rfl := kept rfl
    rw [phase] at level
    exact stay rfl (lags.stutter tended sound level (by rw [phase]; rfl) (fun _ _ => rfl) (.refl _))
  | enter phase free | wakeup phase | leave phase =>
    obtain rfl := kept rfl
    exact stay rfl (lags.stutter tended sound level rfl (fun _ _ => rfl) (Lags.hands_set phase rfl))
  | wait phase took =>
    obtain ⟨-, heap, waiting⟩ := lags.tended.wait phase took
    obtain rfl := tended.represents.chain.unique waiting.represents.chain
    refine stay rfl (lags.stutter tended sound level rfl (fun a _ => ?_) (Lags.hands_set phase rfl))
    exact congrFun heap a
  | take phase took =>
    obtain ⟨call, q', rest, called, takenTended, follow⟩ := lags.take phase took
    obtain rfl := tended.represents.chain.unique takenTended.represents.chain
    exact leap rfl called (follow sound)
  | free phase =>
    obtain rfl := tended.represents.chain.unique (lags.tended.free phase).represents.chain
    obtain ⟨call, q', called, follow⟩ := lags.free phase
    exact leap rfl called (follow sound)

theorem lags_run {s t : WorkerThreads} {q : QueueSystem} {works : List Work} {nodes before : List (ℕ × Work)}
    (lags : Lags s q works nodes before) {events : List WorkerThreads.Event}
    (ran : WorkerThreads.machine.run s events = some t) :
    ∃ calls q' nodes before, QueueSystem.machine.run q calls = some q' ∧
      Lags t q' (works ++ pushes events) nodes before := by
  induction events generalizing s q works nodes before with
  | nil =>
    cases ran
    refine ⟨[], q, nodes, before, rfl, ?_⟩
    rw [pushes, List.filterMap_nil, List.append_nil]
    exact lags
  | cons event events ih =>
    obtain ⟨next, stepped, rest⟩ := Option.bind_eq_some_iff.mp ran
    obtain ⟨first, middle, _, _, ranFirst, lagsNext⟩ := lags_step lags (WorkerThreads.moves_of_step stepped)
    obtain ⟨second, last, after, behind, ranSecond, lagsLast⟩ := ih lagsNext rest
    refine ⟨first ++ second, last, after, behind, ?_, ?_⟩
    · rw [EventMachine.run_append, ranFirst, Option.bind_some, ranSecond]
    · rw [List.append_assoc, pushes, pushes, ← List.filterMap_append] at lagsLast
      exact lagsLast

/-- Every run of the threads at the queue has the effect of a run of whole critical sections: the same works have been
pushed, up to the one that is filled in and not linked, the workers hold the same nodes, and unless a push is in
the middle of its section the same nodes are linked in the same order. -/
theorem sections_atomic {count : ℕ} {events : List WorkerThreads.Event} {s : WorkerThreads}
    (ran : WorkerThreads.machine.run (.start count) events = some s) :
    ∃ calls q, QueueSystem.machine.run .start calls = some q ∧ pushes events = q.pushed ++ pending s ∧
      q.taken.Perm (s.workers.flatMap taken) ∧
      (s.qlock ≠ some .producer →
        ∃ nodes, Chain s.queue.heap s.queue.qhead nodes ∧ Chain q.queue.heap q.queue.qhead nodes) := by
  obtain ⟨calls, q, nodes, before, called, lags⟩ := lags_run (lags_start count) ran
  refine ⟨calls, q, called, lags.pushed, lags.hands, fun away => ⟨nodes, lags.tended.represents.chain, ?_⟩⟩
  have level : trimmed s.pusher = false := by
    cases pushing : s.pusher with
    | roomy => exact absurd (lags.sound.held.producerHolds.mp (by rw [monitor, pushing]; rfl)) away
    | _ => rfl
  rw [lags.same, level]
  exact lags.sections.chain

theorem sections_atomic_taken : ∃ s, WorkerThreads.machine.run (.start workerCount) pushAndTake = some s ∧
    s.qlock = some (.consumer 1) ∧ ∃ calls q, QueueSystem.machine.run .start calls = some q ∧
      [⟨[123], 1, 5⟩, ⟨[125], 1, 6⟩] = q.pushed ++ pending s ∧
      ∃ nodes, Chain s.queue.heap s.queue.qhead nodes ∧ Chain q.queue.heap q.queue.qhead nodes := by
  have ran : ∃ s, WorkerThreads.machine.run (.start workerCount) pushAndTake = some s ∧
      s.qlock = some (.consumer 1) := ⟨_, rfl, rfl⟩
  obtain ⟨s, ran, locked⟩ := ran
  obtain ⟨calls, q, called, pushed, -, linked⟩ := sections_atomic ran
  exact ⟨s, ran, locked, calls, q, called, pushed, linked (by rw [locked]; nofun)⟩

end ProcessMonitor.Soundness.AtomicSections
