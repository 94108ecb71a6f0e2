import ProcessMonitor.Soundness.CliRetry

/-! # What the exit status of the command-line client says

The client may have sent its command several times, and the server may have executed it several times, but all
executions together do what one does. So if the client exits with 0 its command has taken effect at the server,
however many replies were lost, and what it prints is the reply to the first execution or to a second one. If it
gives up with 4, the command has been executed as if once, or not at all.
-/

namespace ProcessMonitor.Soundness.CliOutcome

open Machine Machine.Posix Model.Vts Model.Cli RoomService CliEncoding ReplyText CliRetry

/-! ## The return value of `send_req` -/

/-- What is left of the command at the server is a number of executions, also if no reply has come. -/
theorem tryAll_keeps {payload : Bytes} (admits : framing.Admits payload.length) {s : Shared} {b : Backlog}
    (repeats : Repeats payload s b) (attempts : List (Attempt Turn)) (lastErr : ℤ) :
    Repeats payload s (tryAll lateEndpoint payload 1024 attempts lastErr b).1 := by
  induction attempts generalizing b lastErr with
  | nil => exact repeats
  | cons a attempts ih =>
    obtain ⟨kept, -⟩ := tryOnce_repeats admits repeats a
    simp only [tryAll]
    split
    · exact kept
    · exact ih kept _

/-- The codes that `send_req` can return. -/
def codes : List ℤ := [eOk, eIo, eTimeout]

theorem eOk_mem : eOk ∈ codes := by decide

theorem eIo_mem : eIo ∈ codes := by decide

theorem eTimeout_mem : eTimeout ∈ codes := by decide

theorem tryOnce_code (payload : Bytes) (a : Attempt Turn) (b : Backlog) :
    (tryOnce lateEndpoint payload 1024 a b).2.1 ∈ codes := by
  rw [tryOnce]
  split
  · exact eIo_mem
  · dsimp only
    split
    · exact eIo_mem
    · split
      · exact eTimeout_mem
      · exact eOk_mem

theorem tryAll_code (payload : Bytes) (attempts : List (Attempt Turn)) {lastErr : ℤ} (code : lastErr ∈ codes)
    (b : Backlog) : (tryAll lateEndpoint payload 1024 attempts lastErr b).2.1 ∈ codes := by
  induction attempts generalizing b lastErr with
  | nil => exact code
  | cons a attempts ih =>
    simp only [tryAll]
    split
    · exact eOk_mem
    · exact ih (tryOnce_code payload a b) _

/-! ## The run -/

/-- The line on standard error when no reply has come. -/
def gaveUp : List Bytes := [literal "ERROR 1100: io\n", literal "ERROR 1101: timeout\n"]

/-- How a run may end that had to do with a request: `server` is the server, `before` its rooms at the start. -/
structure Outcome (S : RoomSet) (before : RoomRegistry) (request : RoomRequest) (ended : CliEnd Backlog) : Prop where
  status : ended.status = 0 ∨ ended.status = 4
  effective : ended.status = 0 →
    Registered ended.server.shared.rooms (S.serve request).1 ∧ Registered ended.server.settled.rooms (S.serve request).1
  printed : ended.status = 0 → ended.err = [] ∧
    (ended.out = (S.serve request).2.text ++ literal "\n" ∨
      ended.out = ((S.serve request).1.serve request).2.text ++ literal "\n")
  allOrNothing : ended.status = 4 → ended.out = [] ∧ ended.err ∈ gaveUp ∧
    (ended.server.settled.rooms = before ∨ Registered ended.server.settled.rooms (S.serve request).1)

/-- The texts that the service answers with are C strings. -/
theorem serve_string (S : RoomSet) (request : RoomRequest) : 0 ∉ (S.serve request).2.text := by
  have all : (S.serve request).2 ∈ [Reply.alreadyExists, .ok, .internalError, .notFound, .showRoom, .badRequest] := by
    cases request with
    | create name =>
      simp only [RoomSet.serve]
      split_ifs <;> simp
    | delete name | check name | describe name =>
      simp only [RoomSet.serve]
      split_ifs <;> simp
    | malformed => simp [RoomSet.serve]
  have strings : ∀ r ∈ [Reply.alreadyExists, .ok, .internalError, .notFound, .showRoom, .badRequest], 0 ∉ r.text := by
    decide +kernel
  exact strings _ all

section Sent

variable {payload : Bytes} {s : Shared} {S : RoomSet} {request : RoomRequest}
  (admits : framing.Admits payload.length) (cli : processOne payload = handleCli payload)
  (registered : Registered s.rooms S)
  (answers : handleCli payload = .reply .badRequest ∧ request = .malformed ∨ Implements (handleCli payload) request)
include cli registered answers

/-- However often the request has been executed, the rooms are those before it or those after one execution. -/
theorem after_rooms (n : ℕ) :
    after payload s n = s ∧ n = 0 ∨ 0 < n ∧ Registered (after payload s n).rooms (S.serve request).1 := by
  rcases Nat.eq_zero_or_pos n with rfl | positive
  · exact .inl ⟨rfl, rfl⟩
  · refine .inr ⟨positive, ?_⟩
    rw [after_eq_once cli registered positive, cli]
    exact (exec_serve answers registered).1

/-- Every reply is that to the first execution, or that to a second one. -/
theorem reply_text (n : ℕ) :
    ((processOne payload).exec (after payload s n)).2 = (S.serve request).2 ∨
      ((processOne payload).exec (after payload s n)).2 = ((S.serve request).1.serve request).2 := by
  rw [cli]
  rcases after_rooms cli registered answers n with ⟨same, -⟩ | ⟨-, executed⟩
  · rw [same]
    exact .inl (exec_serve answers registered).2
  · exact .inr (exec_serve answers executed).2

/-- `send_req` has returned with a reply. -/
theorem finish_answered {b : Backlog} {resp : Bytes} {n : ℕ} (kept : Repeats payload s b) (executed : 0 < b.executed)
    (reply : resp = ((processOne payload).exec (after payload s n)).2.text) :
    Outcome S s.rooms request (finish (b, eOk, resp)) := by
  have served {m : ℕ} (positive : 0 < m) : Registered (after payload s m).rooms (S.serve request).1 :=
    ((after_rooms cli registered answers m).resolve_left fun unserved => positive.ne' unserved.2).2
  rw [finish, if_neg (not_not.mpr rfl)]
  refine ⟨.inl rfl, fun _ => ⟨?_, ?_⟩, fun _ => ⟨rfl, ?_⟩, fun four => by simp at four⟩
  · rw [kept.shared]
    exact served executed
  · rw [kept.settled]
    exact served (Nat.add_pos_left executed _)
  · rw [reply]
    rcases reply_text cli registered answers n with first | second
    · rw [first, cstr_of_nul_free (serve_string _ _)]
      exact .inl rfl
    · rw [second, cstr_of_nul_free (serve_string _ _)]
      exact .inr rfl

/-- `send_req` has given up. -/
theorem finish_failed {b : Backlog} {rc : ℤ} {resp : Bytes} (kept : Repeats payload s b) (code : rc ∈ codes)
    (failed : rc ≠ eOk) : Outcome S s.rooms request (finish (b, rc, resp)) := by
  rw [finish, if_pos failed]
  refine ⟨.inr rfl, fun zero => by simp at zero, fun zero => by simp at zero, fun _ => ⟨rfl, ?_, ?_⟩⟩
  · simp only [codes, List.mem_cons, List.not_mem_nil, or_false] at code
    dsimp only
    rcases code with rfl | rfl | rfl
    · exact absurd rfl failed
    · decide
    · decide
  · rw [kept.settled]
    rcases after_rooms cli registered answers (b.executed + b.waiting.length) with ⟨same, -⟩ | ⟨-, executed⟩
    · exact .inl (congrArg Shared.rooms same)
    · exact .inr executed

include admits

/-- What `main` makes of the return value of `send_req`. -/
theorem finish_outcome (retryMax : ℤ) (attempts : ℕ → Attempt Turn) :
    Outcome S s.rooms request (finish (sendReq lateEndpoint payload 1024 retryMax attempts ⟨s, [], 0⟩)) := by
  have start : Repeats payload s ⟨s, [], 0⟩ := ⟨by simp [Copies], rfl⟩
  have kept := tryAll_keeps admits start (rounds retryMax attempts) eIo
  have code := tryAll_code payload (rounds retryMax attempts) eIo_mem ⟨s, [], 0⟩
  have answered := tryAll_repeats admits start (rounds retryMax attempts) (by decide : eIo ≠ eOk)
  rw [sendReq, ← rounds]
  generalize tryAll lateEndpoint payload 1024 (rounds retryMax attempts) eIo ⟨s, [], 0⟩ = result at kept code answered
  obtain ⟨b, rc, resp⟩ := result
  rcases eq_or_ne rc eOk with rfl | failed
  · obtain ⟨-, executed, reply⟩ := answered rfl
    exact finish_answered cli registered answers kept executed reply
  · exact finish_failed cli registered answers kept code failed

end Sent

/-- The payload of a short command line has all its fields, and the server takes it for the line's operation. -/
theorem payload_answers {line : CommandLine} (targetFree : quote ∉ line.target) (nameFree : quote ∉ line.name)
    (nameFits : line.name.length ≤ 63) (fits : line.cmd.length + line.target.length + line.name.length ≤ 480) :
    handleCli (snprintf 512 line.text).1 = .reply .badRequest ∧
        operation line.cmd line.target line.name = .malformed ∨
      Implements (handleCli (snprintf 512 line.text).1) (operation line.cmd line.target line.name) := by
  rcases cut_cases line with cut | ⟨rest, whole⟩
  · have length := cut.length_le
    rw [snprintf, List.length_take, text_eq, List.length_append, List.length_cons, namedText_length] at length
    omega
  · have fields := fields_of_closed (cmd_known line) targetFree nameFree rest
    rw [whole, handleCli_of_fields (cmd_known line) fields nameFits, operation]
    split
    next => exact handleRoomCommand_implements line.cmd nameFits
    next => exact .inl ⟨rfl, rfl⟩

end ProcessMonitor.Soundness.CliOutcome
