import ProcessMonitor.Machine.Core.Assembly
import ProcessMonitor.Model.Vts.Pipeline
import ProcessMonitor.Soundness.ReplyText

/-! # The reply stream of a connection

A reply is a frame that a worker puts on the connection with several `write()` calls, without a lock
and without looking at what `write_full` returned. The stream is a sequence of whole frames only as
long as no `write()` falls into the frame of another worker, follows one that failed, or was meant for
an earlier connection that had the same descriptor number.
-/

namespace ProcessMonitor.Soundness.ReplyStream

open Machine Machine.Posix Model.Vts ReplyText

/-! ## What is on the stream -/

/-- The frame a task has to put on the connection, once its reply is known. -/
def frameOf (task : Task) : Bytes :=
  match task.stage with
  | .handling _ => []
  | .sending r _ => framing.frame r.text

/-- A field of the task with a number, empty where there is none. -/
def field (f : Task → Bytes) (tasks : List Task) (i : ℕ) : Bytes := (tasks[i]?).elim [] f

theorem field_of_found {f : Task → Bytes} {tasks : List Task} {i : ℕ} {task : Task} (found : tasks[i]? = some task) :
    field f tasks i = f task := by rw [field, found]; rfl

theorem field_set (f : Task → Bytes) {tasks : List Task} {i : ℕ} {task : Task} (found : tasks[i]? = some task)
    (new : Task) : field f (tasks.set i new) = Function.update (field f tasks) i (f new) := by
  have bound := (List.getElem?_eq_some_iff.mp found).1
  funext j
  rcases eq_or_ne j i with rfl | other
  · rw [Function.update_self, field, List.getElem?_set_self bound]
    rfl
  · rw [Function.update_of_ne other, field, List.getElem?_set_ne other.symm, field]

theorem field_set_same (f : Task → Bytes) {tasks : List Task} {i : ℕ} {task new : Task}
    (found : tasks[i]? = some task) (same : f new = f task) : field f (tasks.set i new) = field f tasks := by
  rw [field_set f found, same, ← field_of_found (f := f) found, Function.update_eq_self]

theorem field_concat (f : Task → Bytes) (tasks : List Task) {new : Task} (empty : f new = []) :
    field f (tasks ++ [new]) = field f tasks := by
  funext j
  rcases Nat.lt_trichotomy j tasks.length with older | rfl | beyond
  · rw [field, List.getElem?_append_left older, field]
  · rw [field, List.getElem?_concat_length, field, List.getElem?_eq_none (Nat.le_refl _)]
    exact empty
  · have short : (tasks ++ [new]).length ≤ j := by rwa [List.length_append]
    rw [field, List.getElem?_eq_none short, field, List.getElem?_eq_none (Nat.le_of_lt beyond)]

/-- The task is sending this reply, or has done so. -/
def Answers (p : Pipeline) (i : ℕ) (r : Reply) : Prop :=
  ∃ task left, p.tasks[i]? = some task ∧ task.stage = .sending r left

/-- The frames of the replies of some tasks, then at most a proper part of the frame of one more. -/
def Framed (p : Pipeline) : Prop :=
  ∃ (whole : List (ℕ × Reply)) (part : Bytes),
    p.stream = whole.flatMap (fun sent => framing.frame sent.2.text) ++ part ∧
    (whole.map Prod.fst).Nodup ∧ (∀ sent ∈ whole, Answers p sent.1 sent.2) ∧
    (part = [] ∨ ∃ i r, Answers p i r ∧ i ∉ whole.map Prod.fst ∧
      part <+: framing.frame r.text ∧ part ≠ framing.frame r.text)

/-- All of the frame is on the connection, or none of it. -/
def Settled (task : Task) : Prop := task.put = [] ∨ task.put = frameOf task

instance : DecidablePred Settled := fun _ => inferInstanceAs (Decidable (_ ∨ _))

/-- A `write()` that puts bytes on the connection comes from a task of the connection none of whose calls has failed,
while no other frame is there in part. -/
def Undisturbed (p : Pipeline) : Pipeline.Event → Prop
  | .write i (.accept _) =>
    p.closed = false → (∀ task ∈ p.tasks[i]?, task.failed = false) ∧
      ∀ j < p.tasks.length, j ≠ i → ∀ task ∈ p.tasks[j]?, Settled task
  | .stray _ => False
  | _ => True

instance (p : Pipeline) : DecidablePred (Undisturbed p)
  | .write _ (.accept _) => inferInstanceAs (Decidable (_ → _ ∧ _))
  | .stray _ => .isFalse not_false
  | .write _ .interrupted | .write _ .fault | .recv _ | .close | .other | .outside _ | .pop | .act _ | .reply _ =>
    .isTrue trivial

/-- How far a task is: what it has put is a part of its frame, and unless a call has failed the rest is
what it still has to write. -/
def Progress (task : Task) : Prop :=
  match task.stage with
  | .handling rest => Ends Fits rest ∧ task.put = []
  | .sending r left =>
    task.put <+: framing.frame r.text ∧ (task.failed = false → task.put ++ left.flatten = framing.frame r.text)

namespace Progress

variable {task : Task} {r : Reply} {left : List Bytes}

theorem put_eq_nil {rest : Handler} (progress : Progress task) (handling : task.stage = .handling rest) :
    task.put = [] := by
  simp only [Progress, handling] at progress
  exact progress.2

theorem act {rest next : Handler} {s t : Shared} (progress : Progress task) (handling : task.stage = .handling rest)
    (acted : rest.act s = some (t, next)) : Progress { task with stage := .handling next } := by
  simp only [Progress, handling] at progress
  exact ⟨progress.1.act acted, progress.2⟩

theorem reply (progress : Progress task) (handling : task.stage = .handling (.reply r)) :
    Progress { task with stage := .sending r r.segments } := by
  simp only [Progress, handling] at progress
  simp only [Progress, progress.2, List.nil_append]
  exact ⟨List.nil_prefix, fun _ => segments_flatten progress.1⟩

theorem next (progress : Progress task) (sending : task.stage = .sending r ([] :: left)) :
    Progress { task with stage := .sending r left } := by
  simp only [Progress, sending] at progress
  exact ⟨progress.1, progress.2⟩

theorem accept {buffer : Bytes} (progress : Progress task) (sending : task.stage = .sending r (buffer :: left))
    (unfailed : task.failed = false) (n : ℕ) :
    Progress { task with stage := .sending r (buffer.drop n :: left), put := task.put ++ buffer.take n } := by
  simp only [Progress, sending] at progress
  have cut : task.put ++ buffer.take n ++ (buffer.drop n ++ left.flatten) = framing.frame r.text := by
    rw [List.append_assoc, ← List.append_assoc (buffer.take n), List.take_append_drop, ← List.flatten_cons,
      progress.2 unfailed]
  exact ⟨⟨_, cut⟩, fun _ => cut⟩

/-- What is still to be written no longer matters after a failure. -/
theorem fail {buffers : List Bytes} (progress : Progress task) (sending : task.stage = .sending r left) :
    Progress { task with stage := .sending r buffers, failed := true } := by
  simp only [Progress, sending] at progress
  exact ⟨progress.1, fun kept => nomatch kept⟩

end Progress

structure Sound (p : Pipeline) : Prop where
  progress : ∀ task ∈ p.tasks, Progress task
  assembled : ∃ whole current, Assembled (field frameOf p.tasks) (field Task.put p.tasks) p.stream whole current

theorem sound_start : Sound .start where
  progress _ member := nomatch member
  assembled := ⟨[], 0, Assembled.start _ 0⟩

variable {p : Pipeline}

/-- A step that only moves one task on, without a byte. -/
theorem Sound.setTask (sound : Sound p) {i : ℕ} {task new : Task} (found : p.tasks[i]? = some task)
    (progress : Progress new) (put : new.put = task.put) (frame : task.put ≠ [] → frameOf new = frameOf task) :
    Sound (p.setTask i new) where
  progress other member := by
    rcases List.mem_or_eq_of_mem_set member with older | rfl
    exacts [sound.progress other older, progress]
  assembled := by
    obtain ⟨whole, current, assembled⟩ := sound.assembled
    refine ⟨whole, current, ?_⟩
    change Assembled (field frameOf (p.tasks.set i new)) (field Task.put (p.tasks.set i new)) p.stream whole current
    rw [field_set_same Task.put found put, field_set frameOf found]
    apply assembled.congr_frame
    intro j begun
    rcases eq_or_ne j i with rfl | other
    · rw [field_of_found found] at begun ⊢
      rw [Function.update_self, frame begun]
    · rw [Function.update_of_ne other]

/-- The bytes of one `write()` extend the frame of the task where nothing disturbs it. -/
theorem Sound.accept (sound : Sound p) {i more : ℕ} {task : Task} {r : Reply} {buffer : Bytes} {left : List Bytes}
    (found : p.tasks[i]? = some task) (sending : task.stage = .sending r (buffer :: left)) (unsent : buffer ≠ [])
    (isOpen : p.closed = false) (undisturbed : Undisturbed p (.write i (.accept more))) :
    Sound (p.writeOnce i task r buffer left (.accept more)) := by
  obtain ⟨unfailed, settled⟩ := undisturbed isOpen
  simp only [Pipeline.writeOnce, isOpen, Bool.false_eq_true, if_false]
  have before := sound.progress task (List.mem_of_getElem? found)
  set n := min (more + 1) buffer.length
  have nonempty : buffer.take n ≠ [] := by
    have := List.length_pos_iff.mpr unsent
    rw [← List.length_pos_iff, List.length_take]
    omega
  let new : Task :=
    { task with stage := .sending r (buffer.drop n :: left), put := task.put ++ buffer.take n }
  have after : Progress new := before.accept sending (unfailed task found) n
  have same : frameOf new = frameOf task := by simp only [frameOf, new, sending]
  refine ⟨?_, ?_⟩
  · intro other member
    rcases List.mem_or_eq_of_mem_set member with older | rfl
    exacts [sound.progress other older, after]
  · obtain ⟨done, current, assembled⟩ := sound.assembled
    have frame : field frameOf p.tasks i = framing.frame r.text := by
      rw [field_of_found found, frameOf, sending]
    have alone (j : ℕ) (other : j ≠ i) :
        field Task.put p.tasks j = [] ∨ field Task.put p.tasks j = field frameOf p.tasks j := by
      rcases lt_or_ge j p.tasks.length with bound | beyond
      · have there : p.tasks[j]? = some p.tasks[j] := List.getElem?_eq_getElem bound
        rw [field_of_found there, field_of_found there]
        exact settled j bound other _ there
      · exact .inl (by rw [field, List.getElem?_eq_none beyond]; rfl)
    obtain ⟨done, extended⟩ := assembled.extend (i := i) nonempty
      (by rw [frame, field_of_found found]; exact after.1) alone
    refine ⟨done, i, ?_⟩
    change Assembled (field frameOf (p.tasks.set i new)) (field Task.put (p.tasks.set i new))
      (p.stream ++ buffer.take n) done i
    rw [field_set_same frameOf found same, field_set Task.put found]
    rwa [field_of_found found] at extended

theorem Sound.take (sound : Sound p) (request : Request) (queue : List (Option Request)) :
    Sound (p.takeRequest request queue) where
  progress task member := by
    rcases List.mem_append.mp member with older | new
    · exact sound.progress task older
    · rw [List.mem_singleton.mp new]
      exact ⟨processOne_ends request.payload, rfl⟩
  assembled := by
    obtain ⟨whole, current, assembled⟩ := sound.assembled
    refine ⟨whole, current, ?_⟩
    simp only [Pipeline.takeRequest]
    rwa [field_concat frameOf p.tasks rfl, field_concat Task.put p.tasks rfl]

theorem sound_step (p : Pipeline) (event : Pipeline.Event) (next : Pipeline) (sound : Sound p)
    (undisturbed : Undisturbed p event) (success : p.step event = some next) : Sound next := by
  have reached {task : Task} {i : ℕ} (found : p.tasks[i]? = some task) : Progress task :=
    sound.progress task (List.mem_of_getElem? found)
  cases Pipeline.moves_of_step success with
  | recv | close | other | outside | skip => exact ⟨sound.progress, sound.assembled⟩
  | stray bytes => exact absurd undisturbed not_false
  | take request queue => exact sound.take request queue
  | act i task rest after shared found handling acted =>
    have moved : Sound (p.setTask i { task with stage := .handling after }) :=
      sound.setTask found ((reached found).act handling acted) rfl
        fun begun => absurd ((reached found).put_eq_nil handling) begun
    exact ⟨moved.progress, moved.assembled⟩
  | reply i task r found handling =>
    exact sound.setTask found ((reached found).reply handling) rfl
      fun begun => absurd ((reached found).put_eq_nil handling) begun
  | next i task r left answer found sending =>
    refine sound.setTask found ((reached found).next sending) rfl fun _ => ?_
    simp only [frameOf, sending]
  | write i task r buffer left answer found sending unsent =>
    cases answer with
    | accept more =>
      cases isOpen : p.closed with
      | false => exact sound.accept found sending unsent isOpen undisturbed
      | true =>
        simp only [Pipeline.writeOnce, isOpen, if_true]
        refine sound.setTask found ((reached found).fail sending) rfl fun _ => ?_
        simp only [frameOf, sending]
    | interrupted => exact sound
    | fault =>
      refine sound.setTask found ((reached found).fail sending) rfl fun _ => ?_
      simp only [frameOf, sending]

/-- Who has put something on the connection has a reply to put there. -/
theorem Sound.answers (sound : Sound p) {i : ℕ} (begun : field Task.put p.tasks i ≠ []) :
    ∃ r, Answers p i r ∧ field frameOf p.tasks i = framing.frame r.text ∧
      field Task.put p.tasks i <+: framing.frame r.text := by
  cases found : p.tasks[i]? with
  | none => rw [field, found] at begun; exact absurd rfl begun
  | some task =>
    rw [field_of_found found] at begun ⊢
    rw [field_of_found found]
    have progress := sound.progress task (List.mem_of_getElem? found)
    cases stage : task.stage with
    | handling rest =>
      simp only [Progress, stage] at progress
      exact absurd progress.2 begun
    | sending r left =>
      simp only [Progress, stage] at progress
      exact ⟨r, ⟨task, left, found, stage⟩, by rw [frameOf, stage], progress.1⟩

/-- The frames of tasks as the frames of their replies. -/
theorem frames_of_answers {finished : List ℕ}
    (answered : ∀ i ∈ finished, ∃ r, Answers p i r ∧ field frameOf p.tasks i = framing.frame r.text) :
    ∃ whole : List (ℕ × Reply), whole.map Prod.fst = finished ∧ (∀ sent ∈ whole, Answers p sent.1 sent.2) ∧
      whole.flatMap (fun sent => framing.frame sent.2.text) = finished.flatMap (field frameOf p.tasks) := by
  induction finished with
  | nil => exact ⟨[], rfl, (fun _ member => nomatch member), rfl⟩
  | cons i rest ih =>
    obtain ⟨r, answers, frame⟩ := answered i List.mem_cons_self
    obtain ⟨whole, numbers, all, frames⟩ := ih fun j member => answered j (List.mem_cons_of_mem i member)
    refine ⟨(i, r) :: whole, ?_, ?_, ?_⟩
    · rw [List.map_cons, numbers]
    · intro sent member
      rcases List.mem_cons.mp member with rfl | older
      exacts [answers, all sent older]
    · rw [List.flatMap_cons, List.flatMap_cons, frames, frame]

theorem Sound.framed (sound : Sound p) : Framed p := by
  obtain ⟨whole, current, assembled⟩ := sound.assembled
  obtain ⟨finished, part, distinct, complete, stream, rest⟩ := assembled.split
  obtain ⟨whole, rfl, answers, frames⟩ := frames_of_answers fun i member =>
    (sound.answers (complete i member).2).imp fun _ facts => ⟨facts.1, facts.2.1⟩
  refine ⟨whole, part, stream.trans (by rw [frames]), distinct, answers, ?_⟩
  rcases rest with empty | ⟨i, outside, rfl, begun, unfinished⟩
  · exact .inl empty
  · obtain ⟨r, answers, frame, begins⟩ := sound.answers begun
    exact .inr ⟨i, r, answers, outside, begins, frame ▸ unfinished⟩

/-- In a run in which every `write()` that puts bytes on the connection answers one of its requests, follows no failed
call for the same reply and finds no other reply there in part, the connection carries whole frames, and part of one
more at most. -/
theorem stream_framed {events : List Pipeline.Event} {p : Pipeline}
    (undisturbed : Pipeline.machine.Along Undisturbed .start events)
    (ran : Pipeline.machine.run .start events = some p) : Framed p :=
  (EventMachine.invariant_along Sound sound_step sound_start undisturbed ran).framed

/-- Two requests, the second taken while the reply to the first is sent. -/
def undisturbedRun : List Pipeline.Event :=
  [.recv (literal "\"cmd\""), .recv (literal "\"cmd\""), .pop, .reply 0, .write 0 (.accept 1), .pop, .reply 1,
    .write 0 .interrupted, .write 0 (.accept 1), .write 0 (.accept 0), .write 0 (.accept 99), .write 0 (.accept 0),
    .write 1 (.accept 3)]

theorem stream_framed_two : ∃ p, Pipeline.machine.run .start undisturbedRun = some p ∧
    p.stream.length = 41 ∧ Framed p := by
  obtain ⟨p, ran, length⟩ : ∃ p, Pipeline.machine.run .start undisturbedRun = some p ∧ p.stream.length = 41 :=
    ⟨_, rfl, rfl⟩
  exact ⟨p, ran, length, stream_framed (by decide) ran⟩

/-- Two requests whose workers write their headers before either writes its body. -/
def interleavedRun : List Pipeline.Event :=
  [.recv (literal "\"cmd\""), .recv (literal "\"cmd\""), .pop, .pop, .reply 0, .reply 1,
    .write 0 (.accept 3), .write 1 (.accept 3)]

theorem headers_interleave : ∃ p, Pipeline.machine.run .start interleavedRun = some p ∧
    p.stream = [0, 0, 0, 33, 0, 0, 0, 33] ∧ ¬ Framed p := by
  obtain ⟨p, ran, stream, replies⟩ : ∃ p, Pipeline.machine.run .start interleavedRun = some p ∧
      p.stream = [0, 0, 0, 33, 0, 0, 0, 33] ∧
      p.tasks.map Task.stage = List.replicate 2 (.sending .badRequest [[], Reply.badRequest.text]) :=
    ⟨_, rfl, rfl, rfl⟩
  refine ⟨p, ran, stream, ?_⟩
  have refused {i : ℕ} {r : Reply} (answers : Answers p i r) : r = .badRequest := by
    obtain ⟨task, left, found, sending⟩ := answers
    have member := List.mem_map_of_mem (f := Task.stage) (List.mem_of_getElem? found)
    rw [replies, sending] at member
    exact (Stage.sending.inj (List.eq_of_mem_replicate member)).1
  rintro ⟨whole, part, split, -, answers, rest⟩
  rw [stream] at split
  cases whole with
  | nil =>
    rw [List.flatMap_nil, List.nil_append] at split
    subst split
    rcases rest with empty | ⟨i, r, answer, -, begins, -⟩
    · cases empty
    · rw [refused answer] at begins
      exact absurd begins (by decide)
  | cons sent more =>
    -- a whole frame is longer than all that is there
    have length := congrArg List.length split
    rw [List.flatMap_cons, refused (answers sent List.mem_cons_self), List.append_assoc, List.length_append,
      LengthPrefix.frame_length] at length
    have text : Reply.badRequest.text.length = 33 := rfl
    simp only [text, List.length_cons, List.length_nil] at length
    omega

end ProcessMonitor.Soundness.ReplyStream
