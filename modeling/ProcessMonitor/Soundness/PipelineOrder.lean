import ProcessMonitor.Soundness.ReplyStream

/-! # The order in which pipelined requests take effect

The queue hands the frames of a connection out in the order they came in, but two workers can hold two
of them at once, and then nothing orders what they do. Where a request is only taken once those before
it have been answered, effects and replies follow the order of the frames.
-/

namespace ProcessMonitor.Soundness.PipelineOrder

open Machine Machine.Posix Model.Vts ReplyStream ReplyText

/-- The whole reply has been passed to `write()`. -/
def Finished (task : Task) : Prop :=
  match task.stage with
  | .sending _ [] => True
  | _ => False

instance : DecidablePred Finished := fun task => by
  unfold Finished
  split <;> infer_instance

/-- The next step of the task is a `write()` call. -/
def Writing (task : Task) : Prop :=
  match task.stage with
  | .sending _ ((_ :: _) :: _) => True
  | _ => False

instance : DecidablePred Writing := fun task => by
  unfold Writing
  split <;> infer_instance

/-- The whole frame is on the connection. -/
def Sent (task : Task) : Prop := ∃ r left, task.stage = .sending r left ∧ task.put = framing.frame r.text

/-- The registry calls come in the order of the frames, and the reply at place `k` of the stream is the
one to frame `k`. -/
structure InOrder (p : Pipeline) : Prop where
  applied : (p.applied.map Prod.fst).Pairwise (· ≤ ·)
  answered : ∃ n part, p.stream = (p.tasks.take n).flatMap frameOf ++ part ∧
    (∀ k < n, ∃ task, p.tasks[k]? = some task ∧ task.request.number = k ∧ Sent task) ∧
    (part = [] ∨ ∃ task, p.tasks[n]? = some task ∧ task.request.number = n ∧
      part <+: frameOf task ∧ part ≠ frameOf task)

/-- A request of the connection is taken only when all those taken before are finished, is not dropped
from a full queue, no `write()` fails or comes after the connection has been closed, and none of an earlier
connection's workers writes to it. -/
def InTurn (p : Pipeline) : Pipeline.Event → Prop
  | .pop => (∃ request ∈ p.queue.head?, request ≠ none) → ∀ task ∈ p.tasks, Finished task
  | .recv _ | .other => queueDepth ≤ p.queue.length → ∀ request ∈ p.queue.head?, request = none
  | .write i answer => (∃ task ∈ p.tasks[i]?, Writing task) → answer ≠ .fault ∧ p.closed = false
  | .stray _ => False
  | _ => True

instance (p : Pipeline) : DecidablePred (InTurn p)
  | .pop => inferInstanceAs (Decidable (_ → _))
  | .recv _ | .other => inferInstanceAs (Decidable (_ → _))
  | .write _ _ => inferInstanceAs (Decidable (_ → _ ∧ _))
  | .stray _ => .isFalse not_false
  | .close | .outside _ | .act _ | .reply _ => .isTrue trivial

/-- The numbers of the requests that are still in the queue. -/
def waiting (queue : List (Option Request)) : List ℕ := (queue.filterMap id).map Request.number

structure Ordered (p : Pipeline) : Prop where
  numbers : p.tasks.map (fun task => task.request.number) ++ waiting p.queue = List.range p.received
  progress : ∀ task ∈ p.tasks, Progress task ∧ task.failed = false
  earlier : ∀ task ∈ p.tasks.dropLast, Finished task
  stream : p.stream = p.tasks.flatMap Task.put
  sorted : (p.applied.map Prod.fst).Pairwise (· ≤ ·)
  begun : ∀ n ∈ p.applied.map Prod.fst, n < p.tasks.length

theorem ordered_start : Ordered .start where
  numbers := rfl
  progress _ member := nomatch member
  earlier _ member := nomatch member
  stream := rfl
  sorted := .nil
  begun _ member := nomatch member

variable {p : Pipeline}

theorem Ordered.number (ordered : Ordered p) {i : ℕ} {task : Task} (found : p.tasks[i]? = some task) :
    task.request.number = i := by
  have bound := (List.getElem?_eq_some_iff.mp found).1
  have same : (p.tasks.map fun task => task.request.number)[i]? = (List.range p.received)[i]? := by
    rw [← ordered.numbers, List.getElem?_append_left (by rwa [List.length_map])]
  rw [List.getElem?_map, found, Option.map_some] at same
  obtain ⟨_, place⟩ := List.getElem?_eq_some_iff.mp same.symm
  exact place.symm.trans (List.getElem_range _)

/-- Only the task taken last can be unfinished. -/
theorem Ordered.last_of_unfinished (ordered : Ordered p) {i : ℕ} {task : Task} (found : p.tasks[i]? = some task)
    (unfinished : ¬ Finished task) : ∃ front, p.tasks = front ++ [task] ∧ i = front.length := by
  obtain ⟨bound, same⟩ := List.getElem?_eq_some_iff.mp found
  rcases List.eq_nil_or_concat p.tasks with empty | ⟨front, last, tasks⟩
  · rw [empty] at bound
    exact absurd bound (Nat.not_lt_zero i)
  rw [List.concat_eq_append] at tasks
  refine ⟨front, ?_⟩
  rw [tasks] at found bound
  rw [List.length_append, List.length_singleton] at bound
  rcases Nat.lt_or_eq_of_le (Nat.le_of_lt_succ bound) with inner | rfl
  · rw [List.getElem?_append_left inner] at found
    exact absurd (ordered.earlier task (by rw [tasks, List.dropLast_concat]; exact List.mem_of_getElem? found))
      unfinished
  · rw [List.getElem?_concat_length] at found
    exact ⟨Option.some.inj found ▸ tasks, rfl⟩

/-- The task taken last moves on: it puts a piece on the connection, or makes a registry call. -/
theorem Ordered.move (ordered : Ordered p) {i : ℕ} {task new : Task} (found : p.tasks[i]? = some task)
    (unfinished : ¬ Finished task) (progress : Progress new) (request : new.request = task.request)
    (unfailed : new.failed = false) {piece : Bytes} (put : new.put = task.put ++ piece)
    (calls : List RegistryCall) (shared : Shared) :
    Ordered { p with
      shared
      tasks := p.tasks.set i new
      applied := p.applied ++ calls.map fun call => (task.request.number, call)
      stream := p.stream ++ piece } := by
  have number := ordered.number found
  obtain ⟨front, tasks, rfl⟩ := ordered.last_of_unfinished found unfinished
  have replaced : p.tasks.set front.length new = front ++ [new] := by
    rw [tasks, List.set_append_right _ _ (Nat.le_refl _), Nat.sub_self]
    rfl
  have older (n : ℕ) (member : n ∈ p.applied.map Prod.fst) : n ≤ front.length := by
    have := ordered.begun n member
    rw [tasks, List.length_append, List.length_singleton] at this
    omega
  have added (n : ℕ) (member : n ∈ (calls.map fun call => (task.request.number, call)).map Prod.fst) :
      n = front.length := by
    obtain ⟨_, inCalls, rfl⟩ := List.mem_map.mp member
    obtain ⟨_, _, rfl⟩ := List.mem_map.mp inCalls
    exact number
  constructor
  · have numbers := ordered.numbers
    rw [tasks] at numbers
    simpa only [replaced, List.map_append, List.map_singleton, request] using numbers
  · intro other member
    rw [replaced] at member
    rcases List.mem_append.mp member with inFront | last
    · exact ordered.progress other (tasks ▸ List.mem_append_left _ inFront)
    · rw [List.mem_singleton.mp last]
      exact ⟨progress, unfailed⟩
  · intro other member
    have earlier := ordered.earlier
    rw [tasks, List.dropLast_concat] at earlier
    rw [replaced, List.dropLast_concat] at member
    exact earlier other member
  · have stream := ordered.stream
    rw [tasks, List.flatMap_append, List.flatMap_singleton] at stream
    simp only [replaced, stream, List.flatMap_append, List.flatMap_singleton, put, List.append_assoc]
  · rw [List.map_append, List.pairwise_append]
    refine ⟨ordered.sorted, ?_, ?_⟩
    · exact List.pairwise_of_forall_mem_list fun a first b second => by rw [added a first, added b second]
    · intro a first b second
      rw [added b second]
      exact older a first
  · intro n member
    rw [List.map_append] at member
    rw [replaced, List.length_append, List.length_singleton, Nat.lt_succ_iff]
    rcases List.mem_append.mp member with first | second
    exacts [older n first, (added n second).le]

theorem Ordered.take (ordered : Ordered p) {request : Request} {queue : List (Option Request)}
    (head : p.queue = some request :: queue) (finished : ∀ task ∈ p.tasks, Finished task) :
    Ordered (p.takeRequest request queue) where
  numbers := by
    have numbers := ordered.numbers
    rw [head] at numbers
    simpa [Pipeline.takeRequest, waiting] using numbers
  progress task member := by
    rcases List.mem_append.mp member with older | new
    · exact ordered.progress task older
    · rw [List.mem_singleton.mp new]
      exact ⟨⟨processOne_ends request.payload, rfl⟩, rfl⟩
  earlier task member := by
    rw [Pipeline.takeRequest, List.dropLast_concat] at member
    exact finished task member
  stream := by
    rw [Pipeline.takeRequest, List.flatMap_append, List.flatMap_singleton, ← ordered.stream]
    exact (List.append_nil _).symm
  sorted := ordered.sorted
  begun n member := by
    rw [Pipeline.takeRequest, List.length_append]
    exact Nat.lt_add_right 1 (ordered.begun n member)

/-- A push that drops none of the connection's requests. -/
theorem waiting_pushBounded {queue : List (Option Request)} (item : Option Request)
    (kept : queueDepth ≤ queue.length → ∀ request ∈ queue.head?, request = none) :
    waiting (pushBounded queue item) = waiting queue ++ waiting [item] := by
  have append (front back : List (Option Request)) : waiting (front ++ back) = waiting front ++ waiting back := by
    rw [waiting, List.filterMap_append, List.map_append, waiting, waiting]
  rw [pushBounded, append]
  split
  next full =>
    cases queue with
    | nil => rfl
    | cons request rest =>
      rw [kept full request rfl]
      rfl
  next => rfl

theorem Ordered.push (ordered : Ordered p) (item : Option Request) {received : ℕ}
    (kept : queueDepth ≤ p.queue.length → ∀ request ∈ p.queue.head?, request = none)
    (numbered : List.range p.received ++ waiting [item] = List.range received) :
    Ordered { p.push item with received } where
  numbers := by
    change p.tasks.map (fun task => task.request.number) ++ waiting (pushBounded p.queue item) = List.range received
    rw [waiting_pushBounded item kept, ← List.append_assoc, ordered.numbers, numbered]
  progress := ordered.progress
  earlier := ordered.earlier
  stream := ordered.stream
  sorted := ordered.sorted
  begun := ordered.begun

theorem ordered_step (p : Pipeline) (event : Pipeline.Event) (next : Pipeline) (ordered : Ordered p)
    (inTurn : InTurn p event) (success : p.step event = some next) : Ordered next := by
  have reached {task : Task} {i : ℕ} (found : p.tasks[i]? = some task) : Progress task ∧ task.failed = false :=
    ordered.progress task (List.mem_of_getElem? found)
  -- a step of a task without a byte and without a registry call
  have still {i : ℕ} {task new : Task} (found : p.tasks[i]? = some task) (unfinished : ¬ Finished task)
      (progress : Progress new) (request : new.request = task.request) (unfailed : new.failed = false)
      (put : new.put = task.put) : Ordered (p.setTask i new) := by
    have moved := ordered.move found unfinished progress request unfailed (put.trans (List.append_nil _).symm) []
      p.shared
    simp only [List.map_nil, List.append_nil] at moved
    exact moved
  cases Pipeline.moves_of_step success with
  | recv payload => exact ordered.push _ inTurn List.range_succ.symm
  | other => exact ordered.push _ inTurn (List.append_nil _)
  | close | outside =>
    exact ⟨ordered.numbers, ordered.progress, ordered.earlier, ordered.stream, ordered.sorted, ordered.begun⟩
  | stray bytes => exact absurd inTurn not_false
  | skip queue head =>
    refine ⟨?_, ordered.progress, ordered.earlier, ordered.stream, ordered.sorted, ordered.begun⟩
    have numbers := ordered.numbers
    rw [head] at numbers
    exact numbers
  | take request queue head =>
    refine ordered.take head (inTurn ⟨some request, ?_, nofun⟩)
    rw [head]
    rfl
  | act i task rest after shared found handling acted =>
    have moved := ordered.move found (by simp only [Finished, handling, not_false_eq_true])
      ((reached found).1.act handling acted) rfl (reached found).2 (List.append_nil _).symm
      rest.registryCall?.toList shared
    simp only [List.append_nil] at moved
    exact moved
  | reply i task r found handling =>
    exact still found (by simp only [Finished, handling, not_false_eq_true]) ((reached found).1.reply handling) rfl
      (reached found).2 rfl
  | next i task r left answer found sending =>
    exact still found (by simp only [Finished, sending, not_false_eq_true]) ((reached found).1.next sending) rfl
      (reached found).2 rfl
  | write i task r buffer left answer found sending unsent =>
    have writing : Writing task := by
      obtain ⟨c, rest, rfl⟩ := List.exists_cons_of_ne_nil unsent
      simp only [Writing, sending]
    obtain ⟨succeeds, isOpen⟩ := inTurn ⟨task, found, writing⟩
    cases answer with
    | accept more =>
      have moved := ordered.move found (by simp only [Finished, sending, not_false_eq_true])
        ((reached found).1.accept sending (reached found).2 (min (more + 1) buffer.length)) rfl (reached found).2 rfl []
        p.shared
      simp only [List.map_nil, List.append_nil] at moved
      simp only [Pipeline.writeOnce, isOpen, Bool.false_eq_true, if_false]
      exact moved
    | interrupted => exact ordered
    | fault => exact absurd rfl succeeds

theorem sent_of_finished {task : Task} (progress : Progress task) (unfailed : task.failed = false)
    (finished : Finished task) : Sent task := by
  cases stage : task.stage with
  | handling => simp only [Finished, stage] at finished
  | sending r left =>
    cases left with
    | cons => simp only [Finished, stage] at finished
    | nil =>
      simp only [Progress, stage, List.flatten_nil, List.append_nil] at progress
      exact ⟨r, [], stage, progress.2 unfailed⟩

theorem Sent.put_eq {task : Task} (sent : Sent task) : task.put = frameOf task := by
  obtain ⟨r, left, stage, put⟩ := sent
  rw [put, frameOf, stage]

/-- All frames are on the connection, or all but the one of the task taken last. -/
theorem Ordered.all_sent_or_last (ordered : Ordered p) :
    (∀ task ∈ p.tasks, Sent task) ∨
      ∃ front task, p.tasks = front ++ [task] ∧ (∀ other ∈ front, Sent other) ∧ ¬ Sent task := by
  by_cases all : ∀ task ∈ p.tasks, Sent task
  · exact .inl all
  right
  push Not at all
  obtain ⟨task, member, unsent⟩ := all
  obtain ⟨progress, unfailed⟩ := ordered.progress task member
  obtain ⟨i, found⟩ := List.mem_iff_getElem?.mp member
  obtain ⟨front, tasks, -⟩ := ordered.last_of_unfinished found
    fun finished => unsent (sent_of_finished progress unfailed finished)
  refine ⟨front, task, tasks, ?_, unsent⟩
  intro other inFront
  obtain ⟨progress, unfailed⟩ := ordered.progress other (tasks ▸ List.mem_append_left _ inFront)
  apply sent_of_finished progress unfailed
  apply ordered.earlier
  rwa [tasks, List.dropLast_concat]

theorem Ordered.inOrder (ordered : Ordered p) : InOrder p := by
  refine ⟨ordered.sorted, ?_⟩
  have frames {tasks : List Task} (sent : ∀ task ∈ tasks, Sent task) : tasks.flatMap Task.put = tasks.flatMap frameOf :=
    List.flatMap_congr fun task member => (sent task member).put_eq
  rcases ordered.all_sent_or_last with all | ⟨front, task, tasks, earlier, unsent⟩
  · refine ⟨p.tasks.length, [], ?_, ?_, .inl rfl⟩
    · rw [List.take_length, List.append_nil, ordered.stream, frames all]
    · intro k bound
      have found := List.getElem?_eq_getElem bound
      exact ⟨p.tasks[k], found, ordered.number found, all _ (List.getElem_mem bound)⟩
  · have found : p.tasks[front.length]? = some task := by rw [tasks, List.getElem?_concat_length]
    obtain ⟨progress, -⟩ := ordered.progress task (List.mem_of_getElem? found)
    refine ⟨front.length, task.put, ?_, ?_, ?_⟩
    · rw [ordered.stream, tasks, List.take_left, List.flatMap_append, List.flatMap_singleton, frames earlier]
    · intro k bound
      have found : p.tasks[k]? = some front[k] := by
        rw [tasks, List.getElem?_append_left bound, List.getElem?_eq_getElem bound]
      exact ⟨front[k], found, ordered.number found, earlier _ (List.getElem_mem bound)⟩
    · cases stage : task.stage with
      | handling rest => exact .inl (progress.put_eq_nil stage)
      | sending r left =>
        right
        simp only [Progress, stage] at progress
        refine ⟨task, found, ordered.number found, ?_, ?_⟩
        · rw [frameOf, stage]
          exact progress.1
        · rw [frameOf, stage]
          exact fun whole => unsent ⟨r, left, stage, whole⟩

/-- Two rooms created one after the other, the second request waiting in the queue. -/
def inTurnRun : List Pipeline.Event :=
  [.recv (literal "\x7b\"cmd\":\"create\",\"target\":\"room\",\"name\":\"a\"\x7d"),
    .recv (literal "\x7b\"cmd\":\"create\",\"target\":\"room\",\"name\":\"b\"\x7d"),
    .pop, .act 0, .reply 0, .write 0 (.accept 3), .write 0 (.accept 0), .write 0 (.accept 99), .write 0 (.accept 0),
    .pop, .act 1, .reply 1, .write 1 (.accept 3)]

/-- Two workers take a creation and the deletion of the same room, and the deletion comes first. -/
def overtakingRun : List Pipeline.Event :=
  [.recv (literal "\x7b\"cmd\":\"create\",\"target\":\"room\",\"name\":\"a\"\x7d"),
    .recv (literal "\x7b\"cmd\":\"delete\",\"target\":\"room\",\"name\":\"a\"\x7d"),
    .pop, .pop, .act 1, .act 0]

end ProcessMonitor.Soundness.PipelineOrder
