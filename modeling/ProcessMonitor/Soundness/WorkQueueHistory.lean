import ProcessMonitor.Model.Vts.WorkQueue

/-! # Accounting for every request handed to the workers

The linked representation is related to the list of queued works once, for each critical section.
The history invariant then says where every pushed item is: the items removed so far, each tagged
with how it left, followed by the items still queued, are exactly the pushed items in order.
Dequeues and drops both take the first node, so no argument about schedules is needed.
-/

namespace ProcessMonitor.Soundness.WorkQueueHistory

open Machine Machine.Posix Model.Vts

/-- `qtail` is the last node of the chain from `qhead`, and `qlen` counts its nodes. -/
structure Represents (q : WorkQueue) (nodes : List (ℕ × Work)) : Prop where
  chain : Chain q.heap q.qhead nodes
  tail : q.qtail = nodes.getLast?.map Prod.fst
  count : q.qlen = nodes.length

theorem represents_empty : Represents .empty [] := ⟨.nil, rfl, rfl⟩

theorem Represents.head {q : WorkQueue} {nodes : List (ℕ × Work)} (represents : Represents q nodes) :
    q.qhead = nodes.head?.map Prod.fst := by
  have chain := represents.chain
  generalize q.qhead = first at chain
  cases chain with
  | nil => rfl
  | cons => rfl

/-- Unlinking at `qhead` removes exactly the oldest work and touches no node. -/
theorem Represents.unlinkHead {q : WorkQueue} {node : ℕ × Work} {rest : List (ℕ × Work)}
    (represents : Represents q (node :: rest)) :
    ∃ next, q.unlinkHead node.1 = some (next, node.2) ∧ Represents next rest ∧
      next.heap = q.heap := by
  obtain ⟨chain, tail, count⟩ := represents
  generalize q.qhead = first at chain
  cases chain with
  | @cons w cell _ read chain =>
    refine ⟨⟨q.heap, cell.next, if cell.next = none then none else q.qtail, q.qlen - 1⟩, ?_, ⟨chain, ?_, ?_⟩, rfl⟩
    · simp only [WorkQueue.unlinkHead, read, Option.map_some]
    · cases rest with
      | nil =>
        generalize cell.next = next at chain
        cases chain
        rfl
      | cons second rest =>
        have linked : cell.next ≠ none := by
          intro null
          rw [null] at chain
          cases chain
        simp only [if_neg linked, tail, List.getLast?_cons_cons]
    · simp only [count, List.length_cons]
      omega

theorem Represents.free {q : WorkQueue} {w : ℕ} {nodes : List (ℕ × Work)}
    (represents : Represents q nodes) (outside : w ∉ nodes.map Prod.fst) :
    Represents (q.free w) nodes :=
  ⟨represents.chain.update outside none, represents.tail, represents.count⟩

/-- A free address is on no chain. -/
theorem Represents.outside {q : WorkQueue} {w : ℕ} {nodes : List (ℕ × Work)}
    (represents : Represents q nodes) (fresh : q.heap w = none) : w ∉ nodes.map Prod.fst := by
  intro member
  obtain ⟨node, nodeMember, rfl⟩ := List.mem_map.mp member
  exact represents.chain.live node nodeMember fresh

theorem Represents.prepare {q : WorkQueue} {w : ℕ} {nodes : List (ℕ × Work)}
    (represents : Represents q nodes) (fresh : q.heap w = none) (work : Work) :
    Represents (q.prepare w work) nodes :=
  ⟨represents.chain.update (represents.outside fresh) _, represents.tail, represents.count⟩

/-- Linking a prepared node makes it the last one, and frees nothing. -/
theorem Represents.link {q : WorkQueue} {w : ℕ} {work : Work} {nodes : List (ℕ × Work)}
    (represents : Represents q nodes) (prepared : q.heap w = some ⟨work, none⟩)
    (outside : w ∉ nodes.map Prod.fst) :
    ∃ next, q.link w = some next ∧ Represents next (nodes ++ [(w, work)]) ∧
      ∀ address, next.heap address = none ↔ q.heap address = none := by
  obtain ⟨chain, tail, count⟩ := represents
  have head := Represents.head ⟨chain, tail, count⟩
  cases nodes with
  | nil =>
    rw [List.head?_nil, Option.map_none] at head
    refine ⟨⟨q.heap, some w, some w, q.qlen + 1⟩, ?_, ⟨?_, rfl, ?_⟩, fun _ => Iff.rfl⟩
    · simp only [WorkQueue.link, head]
    · exact Chain.cons prepared .nil
    · simp [count]
  | cons node nodes =>
    rw [List.head?_cons, Option.map_some] at head
    obtain ⟨last, atLast⟩ : ∃ last, (node :: nodes).getLast? = some last :=
      ⟨_, List.getLast?_eq_some_getLast (List.cons_ne_nil _ _)⟩
    rw [atLast, Option.map_some] at tail
    obtain ⟨cell, readLast⟩ := Option.ne_none_iff_exists'.mp
      (chain.live last (List.mem_of_getLast? atLast))
    refine ⟨⟨Function.update q.heap last.1 (some ⟨cell.value, some w⟩), q.qhead, some w, q.qlen + 1⟩,
      ?_, ⟨?_, ?_, ?_⟩, ?_⟩
    · simp only [WorkQueue.link, head, tail, readLast, bind, Option.bind_some]
    · exact chain.concat (by rw [atLast, Option.map_some]) readLast prepared outside
    · rw [List.getLast?_concat, Option.map_some]
    · simp only [count, List.length_append, List.length_cons, List.length_nil]
      omega
    · intro address
      by_cases same : address = last.1
      · rw [same]
        simp [readLast]
      · simp only [Function.update_of_ne same]

/-- The full queue gives up its oldest work; any other queue gives up nothing. -/
theorem Represents.dropOldest {q : WorkQueue} {nodes : List (ℕ × Work)}
    (represents : Represents q nodes) (bound : (nodes.length : ℤ) ≤ queueDepth) :
    ∃ next dropped kept, q.dropOldest = some (next, dropped) ∧ Represents next kept ∧
      (∀ address, address ∉ nodes.map Prod.fst → next.heap address = q.heap address) ∧
      ((nodes.length : ℤ) < queueDepth ∧ dropped = none ∧ kept = nodes ∨
        (nodes.length : ℤ) = queueDepth ∧ ∃ old, dropped = some old.2 ∧ nodes = old :: kept) := by
  have count := represents.count
  have head := represents.head
  cases nodes with
  | nil =>
    refine ⟨q, none, [], ?_, represents, fun _ _ => rfl, .inl ⟨by decide, rfl, rfl⟩⟩
    rw [WorkQueue.dropOldest, if_neg (by rw [count]; decide)]
  | cons old kept =>
    rw [List.head?_cons, Option.map_some] at head
    by_cases full : ((old :: kept).length : ℤ) < queueDepth
    · refine ⟨q, none, old :: kept, ?_, represents, fun _ _ => rfl, .inl ⟨full, rfl, rfl⟩⟩
      rw [WorkQueue.dropOldest, if_neg (by omega)]
    · have distinct := represents.chain.nodup
      simp only [List.map_cons, List.nodup_cons] at distinct
      obtain ⟨unlinked, unlinkedEq, unlinkedRep, unlinkedHeap⟩ := represents.unlinkHead
      refine ⟨unlinked.free old.1, some old.2, kept, ?_, unlinkedRep.free distinct.1, ?_,
        .inr ⟨by omega, old, rfl, rfl⟩⟩
      · simp only [WorkQueue.dropOldest, if_pos (show queueDepth ≤ q.qlen by omega), head, unlinkedEq,
          Option.map_some]
      · intro address elsewhere
        simp only [List.map_cons, List.mem_cons, not_or] at elsewhere
        simp only [WorkQueue.free, Function.update_of_ne elsewhere.1, unlinkedHeap]

/-- What a push does, said once: it appends its own work, and it discards the oldest one exactly
when it finds the queue full. -/
theorem Represents.reqQueuePush {q : WorkQueue} {nodes : List (ℕ × Work)} {w : ℕ}
    (represents : Represents q nodes) (bound : (nodes.length : ℤ) ≤ queueDepth)
    (fresh : q.heap w = none) (payload : Bytes) (len : ℕ) (peerFd : ℤ) :
    ∃ next dropped kept, q.reqQueuePush w payload len peerFd = some (next, dropped) ∧
      Represents next (kept ++ [(w, WorkQueue.makeWork payload len peerFd)]) ∧
      (∀ address, address ∉ nodes.map Prod.fst → q.heap address ≠ none → next.heap address ≠ none) ∧
      ((nodes.length : ℤ) < queueDepth ∧ dropped = none ∧ kept = nodes ∨
        (nodes.length : ℤ) = queueDepth ∧ ∃ old, dropped = some old.2 ∧ nodes = old :: kept) := by
  have outside := represents.outside fresh
  obtain ⟨shorter, dropped, kept, droppedEq, keptRep, sameHeap, outcome⟩ :=
    (represents.prepare fresh (WorkQueue.makeWork payload len peerFd)).dropOldest bound
  have included : kept.map Prod.fst ⊆ nodes.map Prod.fst := by
    rcases outcome with ⟨-, -, rfl⟩ | ⟨-, old, -, rfl⟩
    · exact List.Subset.refl _
    · exact List.subset_cons_self _ _
  have prepared : shorter.heap w = some ⟨WorkQueue.makeWork payload len peerFd, none⟩ := by
    rw [sameHeap w outside]
    exact Function.update_self ..
  obtain ⟨next, linked, nextRep, sameLive⟩ := keptRep.link prepared (fun member => outside (included member))
  refine ⟨next, dropped, kept, ?_, nextRep, ?_, outcome⟩
  · simp only [WorkQueue.reqQueuePush, WorkQueue.enqueue, droppedEq, bind, Option.bind_some, linked]
  · intro address elsewhere live freed
    have gone := (sameLive address).mp freed
    rw [sameHeap address elsewhere] at gone
    have different : address ≠ w := fun same => live (same ▸ fresh)
    exact live (by simpa only [WorkQueue.prepare, Function.update_of_ne different] using gone)

/-- A dequeue takes the oldest work, or waits on an empty queue. -/
theorem Represents.workerTake {q : WorkQueue} {nodes : List (ℕ × Work)}
    (represents : Represents q nodes) :
    ∃ next, q.workerTake = some (next, nodes.head?) ∧ Represents next nodes.tail ∧
      next.heap = q.heap := by
  have head := represents.head
  cases nodes with
  | nil =>
    rw [List.head?_nil, Option.map_none] at head
    exact ⟨q, by simp only [WorkQueue.workerTake, head, List.head?_nil], represents, rfl⟩
  | cons node nodes =>
    rw [List.head?_cons, Option.map_some] at head
    obtain ⟨next, unlinked, after, sameHeap⟩ := represents.unlinkHead
    refine ⟨next, ?_, after, sameHeap⟩
    simp only [WorkQueue.workerTake, head, unlinked, Option.map_some, List.head?_cons]

/-- On the list of works, a push is `pushBounded`. -/
theorem Represents.reqQueuePush_list {q : WorkQueue} {nodes : List (ℕ × Work)} {w : ℕ} (represents : Represents q nodes)
    (bound : (nodes.length : ℤ) ≤ queueDepth) (fresh : q.heap w = none) (payload : Bytes) (len : ℕ) (peerFd : ℤ) :
    ∃ next dropped after, q.reqQueuePush w payload len peerFd = some (next, dropped) ∧ Represents next after ∧
      (after.length : ℤ) ≤ queueDepth ∧ after.map Prod.snd =
        pushBounded (nodes.map Prod.snd) (WorkQueue.makeWork payload len peerFd) := by
  obtain ⟨next, dropped, kept, pushed, after, -, outcome⟩ := represents.reqQueuePush bound fresh payload len peerFd
  refine ⟨next, dropped, _, pushed, after, ?_⟩
  rw [pushBounded, List.length_map, List.map_append, List.length_append]
  rcases outcome with ⟨room, -, rfl⟩ | ⟨full, old, -, rfl⟩
  · rw [if_neg (by omega)]
    exact ⟨by push_cast; simp only [List.length_singleton]; omega, rfl⟩
  · rw [if_pos (by omega)]
    rw [List.length_cons] at full
    exact ⟨by push_cast at full ⊢; simp only [List.length_singleton]; omega, rfl⟩

/-- Where a pushed item is now. -/
inductive Fate
  | dequeued
  | dropped
  | queued
deriving DecidableEq, Repr

/-- The items with one fate, in the order they were pushed. -/
def withFate (fate : Fate) (items : List (Fate × Work)) : List Work :=
  (items.filter fun item => item.1 = fate).map Prod.snd

theorem withFate_append (fate : Fate) (items more : List (Fate × Work)) :
    withFate fate (items ++ more) = withFate fate items ++ withFate fate more := by
  simp only [withFate, List.filter_append, List.map_append]

private theorem withFate_map (fate tag : Fate) (works : List Work) :
    withFate fate (works.map fun work => (tag, work)) = if tag = fate then works else [] := by
  induction works with
  | nil => simp [withFate]
  | cons work works ih =>
    simp only [withFate, List.map_cons, List.filter_cons] at ih ⊢
    by_cases same : tag = fate
    · simp_all
    · simp_all

/-- The history of a queue: `removed` left it, oldest first, and `nodes` are still there. -/
structure Accounts (s : QueueSystem) (nodes : List (ℕ × Work)) (removed : List (Fate × Work)) :
    Prop where
  represents : Represents s.queue nodes
  bound : (nodes.length : ℤ) ≤ queueDepth
  pushed : s.pushed = removed.map Prod.snd ++ nodes.map Prod.snd
  dequeued : s.dequeued = withFate .dequeued removed
  dropped : s.dropped = withFate .dropped removed
  gone : withFate .queued removed = []
  takenLive : ∀ w ∈ s.taken, s.queue.heap w ≠ none ∧ w ∉ nodes.map Prod.fst
  takenDistinct : s.taken.Nodup

theorem accounts_start : Accounts .start [] [] where
  represents := represents_empty
  bound := by decide
  pushed := rfl
  dequeued := rfl
  dropped := rfl
  gone := rfl
  takenLive := by simp [QueueSystem.start]
  takenDistinct := List.nodup_nil

/-- A push at a fresh address always goes through, drops at most the oldest work, and only when
exactly `QUEUE_DEPTH` are queued. Its own work is then the newest one. -/
theorem Accounts.push {s : QueueSystem} {nodes : List (ℕ × Work)} {removed : List (Fate × Work)}
    (accounts : Accounts s nodes removed) {w : ℕ} (fresh : s.queue.heap w = none)
    (payload : Bytes) (len : ℕ) (peerFd : ℤ) :
    ∃ next kept, s.step (.push w payload len peerFd) = some next ∧
      next.dequeued = s.dequeued ∧
      ((nodes.length : ℤ) < queueDepth ∧ next.dropped = s.dropped ∧ kept = nodes ∧
          Accounts next (kept ++ [(w, WorkQueue.makeWork payload len peerFd)]) removed ∨
        (nodes.length : ℤ) = queueDepth ∧ ∃ old, nodes = old :: kept ∧
          next.dropped = s.dropped ++ [old.2] ∧
          Accounts next (kept ++ [(w, WorkQueue.makeWork payload len peerFd)])
            (removed ++ [(.dropped, old.2)])) := by
  obtain ⟨queue, dropped, kept, pushedEq, nextRep, stillLive, outcome⟩ :=
    accounts.represents.reqQueuePush accounts.bound fresh payload len peerFd
  set work := WorkQueue.makeWork payload len peerFd with workDef
  have notTaken : ∀ x ∈ s.taken, x ≠ w := by
    rintro x member rfl
    exact (accounts.takenLive x member).1 fresh
  refine ⟨⟨queue, s.taken, s.pushed ++ [work], s.dequeued, s.dropped ++ dropped.toList⟩, kept, ?_, rfl, ?_⟩
  · simp only [QueueSystem.step, if_pos fresh, pushedEq, Option.map_some, ← workDef]
  rcases outcome with ⟨room, rfl, rfl⟩ | ⟨full, old, rfl, rfl⟩
  · refine .inl ⟨room, List.append_nil _, rfl, nextRep, ?_, ?_, accounts.dequeued, ?_, accounts.gone, ?_,
      accounts.takenDistinct⟩
    · simp only [List.length_append, List.length_cons, List.length_nil]
      omega
    · simp only [accounts.pushed, List.map_append, List.append_assoc, List.map_cons, List.map_nil]
    · rw [accounts.dropped]
      exact List.append_nil _
    · intro x member
      refine ⟨stillLive x (accounts.takenLive x member).2 (accounts.takenLive x member).1, ?_⟩
      simp only [List.map_append, List.map_cons, List.map_nil, List.mem_append, List.mem_singleton, not_or]
      exact ⟨(accounts.takenLive x member).2, notTaken x member⟩
  · refine .inr ⟨full, old, rfl, rfl, nextRep, ?_, ?_, ?_, ?_, ?_, ?_, accounts.takenDistinct⟩
    · simp only [List.length_append, List.length_cons, List.length_nil] at full ⊢
      omega
    · simp only [accounts.pushed, List.map_append, List.append_assoc, List.map_cons, List.map_nil,
        List.cons_append, List.nil_append]
    · rw [withFate_append, accounts.dequeued]
      exact (List.append_nil _).symm
    · rw [withFate_append, accounts.dropped]
      rfl
    · rw [withFate_append, accounts.gone]
      rfl
    · intro x member
      have outside := (accounts.takenLive x member).2
      refine ⟨stillLive x outside (accounts.takenLive x member).1, ?_⟩
      simp only [List.map_cons, List.mem_cons, not_or] at outside
      simp only [List.map_append, List.map_cons, List.map_nil, List.mem_append, List.mem_singleton, not_or]
      exact ⟨outside.2, notTaken x member⟩

/-- A dequeue always goes through and hands out the oldest work, if there is one. -/
theorem Accounts.dequeue {s : QueueSystem} {nodes : List (ℕ × Work)} {removed : List (Fate × Work)}
    (accounts : Accounts s nodes removed) :
    ∃ next, s.step .dequeue = some next ∧ next.dropped = s.dropped ∧
      next.dequeued = s.dequeued ++ (nodes.head?.map Prod.snd).toList ∧
      Accounts next nodes.tail
        (removed ++ (nodes.head?.map fun node => (Fate.dequeued, node.2)).toList) := by
  obtain ⟨queue, takeEq, nextRep, sameHeap⟩ := accounts.represents.workerTake
  refine ⟨⟨queue, s.taken ++ (nodes.head?.map Prod.fst).toList, s.pushed,
    s.dequeued ++ (nodes.head?.map Prod.snd).toList, s.dropped⟩, ?_, rfl, rfl, ?_⟩
  · simp only [QueueSystem.step, takeEq, Option.map_some]
  cases nodes with
  | nil =>
    simp only [List.head?_nil, Option.map_none, Option.toList_none, List.append_nil, List.tail_nil]
    exact ⟨nextRep, accounts.bound, accounts.pushed, accounts.dequeued, accounts.dropped, accounts.gone,
      fun w member => ⟨sameHeap ▸ (accounts.takenLive w member).1, by simp⟩, accounts.takenDistinct⟩
  | cons node nodes =>
    have distinct := accounts.represents.chain.nodup
    simp only [List.map_cons, List.nodup_cons] at distinct
    have live := accounts.represents.chain.live node (List.mem_cons_self ..)
    have bound := accounts.bound
    simp only [List.head?_cons, Option.map_some, Option.toList_some, List.tail_cons]
    refine ⟨nextRep, ?_, ?_, ?_, ?_, ?_, ?_, ?_⟩
    · simp only [List.length_cons] at bound
      omega
    · simp only [accounts.pushed, List.map_append, List.map_cons, List.map_nil, List.append_assoc,
        List.cons_append, List.nil_append]
    · rw [withFate_append, accounts.dequeued]
      rfl
    · rw [withFate_append, accounts.dropped]
      exact (List.append_nil _).symm
    · rw [withFate_append, accounts.gone]
      rfl
    · intro w member
      rcases List.mem_append.mp member with member | member
      · have facts := accounts.takenLive w member
        simp only [List.map_cons, List.mem_cons, not_or] at facts
        exact ⟨sameHeap ▸ facts.1, facts.2.2⟩
      · rw [List.mem_singleton.mp member]
        exact ⟨sameHeap ▸ live, distinct.1⟩
    · refine List.Nodup.append accounts.takenDistinct (List.nodup_singleton _) ?_
      intro w taken first
      rw [List.mem_singleton.mp first] at taken
      exact (accounts.takenLive node.1 taken).2 (List.mem_cons_self ..)

/-- Freeing a processed node is invisible to the queue. -/
theorem Accounts.finish {s next : QueueSystem} {nodes : List (ℕ × Work)}
    {removed : List (Fate × Work)} (accounts : Accounts s nodes removed) {w : ℕ}
    (step : s.step (.finish w) = some next) :
    Accounts next nodes removed ∧ next.dequeued = s.dequeued ∧ next.dropped = s.dropped := by
  simp only [QueueSystem.step] at step
  split_ifs at step with member
  cases step
  refine ⟨⟨accounts.represents.free (accounts.takenLive w member).2, accounts.bound, accounts.pushed,
    accounts.dequeued, accounts.dropped, accounts.gone, ?_, accounts.takenDistinct.erase w⟩, rfl, rfl⟩
  intro x stays
  have facts := accounts.takenLive x (List.mem_of_mem_erase stays)
  refine ⟨?_, facts.2⟩
  have different : x ≠ w := by
    rintro rfl
    exact accounts.takenDistinct.not_mem_erase stays
  simpa only [WorkQueue.free, Function.update_of_ne different] using facts.1

/-- Every run can be accounted for. -/
theorem accounts_of_run {events : List QueueSystem.Event} {s : QueueSystem}
    (run : QueueSystem.machine.run .start events = some s) :
    ∃ nodes removed, Accounts s nodes removed := by
  refine EventMachine.invariant (fun s => ∃ nodes removed, Accounts s nodes removed) ?_
    ⟨[], [], accounts_start⟩ run
  rintro s event next ⟨nodes, removed, accounts⟩ step
  cases event with
  | push w payload len peerFd =>
    have fresh : s.queue.heap w = none := by
      by_contra live
      simp [QueueSystem.machine, QueueSystem.step, live] at step
    obtain ⟨next', kept, stepped, -, ⟨-, -, -, after⟩ | ⟨-, old, -, -, after⟩⟩ :=
      accounts.push fresh payload len peerFd
    · cases stepped.symm.trans step
      exact ⟨_, _, after⟩
    · cases stepped.symm.trans step
      exact ⟨_, _, after⟩
  | dequeue =>
    obtain ⟨next', stepped, -, -, after⟩ := accounts.dequeue
    cases stepped.symm.trans step
    exact ⟨_, _, after⟩
  | finish w => exact ⟨_, _, (accounts.finish step).1⟩

/-- What holds of the queue and its history in one state: `nodes` is the list reachable from
`qhead`, every pushed item has one fate, and the next removal can only be the oldest item. -/
structure Conserves (s : QueueSystem) (nodes : List (ℕ × Work)) : Prop where
  reachable : Chain s.queue.heap s.queue.qhead nodes
  length : s.queue.qlen = nodes.length
  range : 0 ≤ s.queue.qlen ∧ s.queue.qlen ≤ queueDepth
  last : s.queue.qtail = nodes.getLast?.map Prod.fst
  nullTogether : s.queue.qtail = none ↔ s.queue.qhead = none
  merge : ∃ items : List (Fate × Work), items.map Prod.snd = s.pushed ∧
    withFate .dequeued items = s.dequeued ∧ withFate .dropped items = s.dropped ∧
    withFate .queued items = nodes.map Prod.snd
  removal : ∀ event next, s.step event = some next →
    next.dequeued = s.dequeued ∧ next.dropped = s.dropped ∨
    ∃ oldest rest, nodes = oldest :: rest ∧
      (event = .dequeue ∧ next.dequeued = s.dequeued ++ [oldest.2] ∧ next.dropped = s.dropped ∨
        ∃ w payload len peerFd, event = .push w payload len peerFd ∧ s.queue.qlen = queueDepth ∧
          next.dequeued = s.dequeued ∧ next.dropped = s.dropped ++ [oldest.2] ∧ w ≠ oldest.1 ∧
          Chain next.queue.heap next.queue.qhead
            (rest ++ [(w, WorkQueue.makeWork payload len peerFd)]))
  enabled : (s.step .dequeue).isSome ∧ ∀ w payload len peerFd, s.queue.heap w = none →
    (s.step (.push w payload len peerFd)).isSome

private theorem Accounts.merge {s : QueueSystem} {nodes : List (ℕ × Work)}
    {removed : List (Fate × Work)} (accounts : Accounts s nodes removed) :
    ∃ items : List (Fate × Work), items.map Prod.snd = s.pushed ∧
      withFate .dequeued items = s.dequeued ∧ withFate .dropped items = s.dropped ∧
      withFate .queued items = nodes.map Prod.snd := by
  refine ⟨removed ++ (nodes.map Prod.snd).map fun work => (Fate.queued, work), ?_, ?_, ?_, ?_⟩
  · rw [accounts.pushed, List.map_append, List.map_map]
    simp [Function.comp_def]
  · rw [withFate_append, withFate_map, accounts.dequeued]
    exact List.append_nil _
  · rw [withFate_append, withFate_map, accounts.dropped]
    exact List.append_nil _
  · rw [withFate_append, withFate_map, accounts.gone]
    rfl

private theorem Accounts.removal {s : QueueSystem} {nodes : List (ℕ × Work)}
    {removed : List (Fate × Work)} (accounts : Accounts s nodes removed)
    (event : QueueSystem.Event) (next : QueueSystem) (step : s.step event = some next) :
    next.dequeued = s.dequeued ∧ next.dropped = s.dropped ∨
    ∃ oldest rest, nodes = oldest :: rest ∧
      (event = .dequeue ∧ next.dequeued = s.dequeued ++ [oldest.2] ∧ next.dropped = s.dropped ∨
        ∃ w payload len peerFd, event = .push w payload len peerFd ∧ s.queue.qlen = queueDepth ∧
          next.dequeued = s.dequeued ∧ next.dropped = s.dropped ++ [oldest.2] ∧ w ≠ oldest.1 ∧
          Chain next.queue.heap next.queue.qhead
            (rest ++ [(w, WorkQueue.makeWork payload len peerFd)])) := by
  cases event with
  | push w payload len peerFd =>
    have fresh : s.queue.heap w = none := by
      by_contra live
      simp [QueueSystem.step, live] at step
    have outside := accounts.represents.outside fresh
    obtain ⟨next', kept, stepped, kept', outcome⟩ := accounts.push fresh payload len peerFd
    cases stepped.symm.trans step
    rcases outcome with ⟨-, same, -, -⟩ | ⟨full, old, rfl, dropped, after⟩
    · exact .inl ⟨kept', same⟩
    · refine .inr ⟨old, kept, rfl, .inr ⟨w, payload, len, peerFd, rfl, ?_, kept', dropped, ?_,
        after.represents.chain⟩⟩
      · rw [accounts.represents.count, full]
      · rintro rfl
        exact outside (List.mem_cons_self ..)
  | dequeue =>
    obtain ⟨next', stepped, dropped, dequeued, -⟩ := accounts.dequeue
    cases stepped.symm.trans step
    cases nodes with
    | nil => exact .inl ⟨dequeued.trans (List.append_nil _), dropped⟩
    | cons oldest rest => exact .inr ⟨oldest, rest, rfl, .inl ⟨rfl, dequeued, dropped⟩⟩
  | finish w => exact .inl (accounts.finish step).2

/-- The request queue neither loses, duplicates, nor reorders work, and drops only its oldest
item, only on a push that finds it full; this holds after any sequence of pushes, dequeues, and
completions by any number of threads. -/
theorem requestQueue_conserves {events : List QueueSystem.Event} {s : QueueSystem}
    (run : QueueSystem.machine.run .start events = some s) : ∃ nodes, Conserves s nodes := by
  obtain ⟨nodes, removed, accounts⟩ := accounts_of_run run
  have count := accounts.represents.count
  have head := accounts.represents.head
  have bound := accounts.bound
  refine ⟨nodes, accounts.represents.chain, count, ⟨by omega, by omega⟩, accounts.represents.tail, ?_,
    accounts.merge, accounts.removal, ?_, ?_⟩
  · rw [accounts.represents.tail, head]
    cases nodes with
    | nil => exact Iff.rfl
    | cons node nodes => simp
  · obtain ⟨next, stepped, -⟩ := accounts.dequeue
    rw [stepped]
    rfl
  · intro w payload len peerFd fresh
    obtain ⟨next, kept, stepped, -⟩ := accounts.push fresh payload len peerFd
    rw [stepped]
    rfl

/-- Two requests, one of them taken and finished. -/
theorem requestQueue_conserves_two_pushes : ∃ s,
    QueueSystem.machine.run .start
      [.push 16 [123, 125] 2 5, .push 32 [48] 1 (-1), .dequeue, .finish 16] = some s ∧
    s.dequeued = [⟨[123, 125], 2, 5⟩] ∧ ∃ nodes, Conserves s nodes := by
  have ran : ∃ s, QueueSystem.machine.run .start
      [.push 16 [123, 125] 2 5, .push 32 [48] 1 (-1), .dequeue, .finish 16] = some s ∧
      s.dequeued = [⟨[123, 125], 2, 5⟩] := ⟨_, rfl, rfl⟩
  obtain ⟨s, run, dequeued⟩ := ran
  exact ⟨s, run, dequeued, requestQueue_conserves run⟩

end ProcessMonitor.Soundness.WorkQueueHistory
