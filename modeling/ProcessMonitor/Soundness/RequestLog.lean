import ProcessMonitor.Soundness.DedupHistory
import ProcessMonitor.Soundness.LogRotation
import ProcessMonitor.Soundness.RequestFields

/-! # One request, one line of the log

`handle_legacy` writes one record for each request, with the text that `json_get_str` takes for the id. The time before
the id has no blank in it and the result behind it has a fixed form, so that what was written is read back from its
line, whatever it is. But it need not be the id that the request has, and a newline in it ends the line, so that what
is behind it can look like a record of its own.
-/

namespace ProcessMonitor.Soundness.RequestLog

open Machine Machine.Posix Model.Vts Delimited

/-- A payload without NUL that `process_one` passes to `handle_legacy`, and the time as text at which the server
comes to it. -/
structure LegacyRequest where
  payload : Bytes
  ts : Bytes
  nulFree : 0 ∉ payload
  legacy : strstr payload (literal "\"cmd\"") = none
  stamp : 10 ∉ ts ∧ 32 ∉ ts

/-- What the server writes for the id: the text that it takes from the payload, and a dash if that is empty. -/
def LegacyRequest.loggedId (r : LegacyRequest) : Bytes :=
  if legacyReqId r.payload = [] then literal "-" else legacyReqId r.payload

/-- The state of the workers, the log, and the requests so far with their replies. -/
structure Serving where
  shared : Shared
  log : VtsLog
  served : List (LegacyRequest × Reply)

namespace Serving

/-- The request runs, and its calls of `log_write_req_result` reach the log. -/
def serve (s : Serving) (r : LegacyRequest) : Serving :=
  let (shared, reply) := (processOne r.payload).exec s.shared
  let calls := shared.logged.drop s.shared.logged.length
  { shared
    log := calls.foldl (fun log call => log.logWriteReqResult r.ts (some call.1) call.2) s.log
    served := s.served ++ [(r, reply)] }

end Serving

/-- The file that `g_logf` is open on, or will be. -/
def content (log : VtsLog) : Bytes := log.ensureLogOpen.1.files.content log.ensureLogOpen.2

/-- The id and the result of a line: what is between ` req_id=` and the last ` result=OK` or ` result=ERR`. -/
def readLine (line : Bytes) : Option (Bytes × Bool) := do
  let found ← strstr line (literal " req_id=")
  let rest := found.drop 8
  if literal " result=OK" <:+ rest then some (rest.take (rest.length - 10), true)
  else if literal " result=ERR" <:+ rest then some (rest.take (rest.length - 11), false)
  else none

/-- The result that a request was answered with. -/
def resultOf : Reply → Option Bool
  | .legacy _ success => some (success ≠ 0)
  | .json .. => none

/-- The line says the request's own id, as the request has it in writing, and its result. -/
def Recorded (line : Bytes) (served : LegacyRequest × Reply) : Prop :=
  ∃ id result, RequestFields.writtenId served.1.payload = some id ∧ resultOf served.2 = some result ∧
    readLine line = some (id, result)

/-- The text is one line for each request, which says the id and the result of the request. -/
def Records (text : Bytes) (served : List (LegacyRequest × Reply)) : Prop :=
  ∃ lines : List Bytes, (∀ line ∈ lines, 10 ∉ line) ∧ text = terminated 10 lines ∧
    List.Forall₂ Recorded lines served

/-! ## The text of a run -/

/-- A request with its result. -/
abbrev Entry := LegacyRequest × ℤ

namespace Entry

/-- A record up to its newline. -/
def line (e : Entry) : Bytes :=
  e.1.ts ++ (literal " req_id=" ++ (e.1.loggedId ++ if e.2 ≠ 0 then literal " result=OK" else literal " result=ERR"))

/-- The request with its reply. -/
def served (e : Entry) : LegacyRequest × Reply := (e.1, .legacy (legacyReqId e.1.payload) e.2)

theorem resultText_eq (e : Entry) : VtsLog.resultText e.1.ts (some e.1.loggedId) e.2 = e.line ++ [10] := by
  simp only [VtsLog.resultText, line, Option.getD_some, List.append_assoc]
  split <;> rfl

end Entry

theorem content_logWriteReqResult (log : VtsLog) (ts : Bytes) (reqId : Option Bytes) (success : ℤ) :
    content (log.logWriteReqResult ts reqId success) = content log ++ VtsLog.resultText ts reqId success := by
  have isOpen : log.ensureLogOpen.1.gLogf = some log.ensureLogOpen.2 := by
    rw [VtsLog.ensureLogOpen]
    split
    next file same => exact same
    next => rfl
  have still : (log.logWriteReqResult ts reqId success).ensureLogOpen =
      (log.logWriteReqResult ts reqId success, log.ensureLogOpen.2) := by
    have same : (log.logWriteReqResult ts reqId success).gLogf = some log.ensureLogOpen.2 := isOpen
    rw [VtsLog.ensureLogOpen, same]
  rw [content, still]
  exact Function.update_self _ _ _

/-- One call of the writer and one reply, with the same result. -/
theorem exec_legacy (r : LegacyRequest) (s : Shared) :
    ∃ res : ℤ, ((processOne r.payload).exec s).1.logged = s.logged ++ [(r.loggedId, res)] ∧
      ((processOne r.payload).exec s).2 = .legacy (legacyReqId r.payload) res := by
  have legacy : processOne r.payload = handleLegacy r.payload := by
    rw [processOne, cstr_of_nul_free r.nulFree]
    exact if_pos r.legacy
  rw [legacy]
  by_cases named : legacyReqId r.payload = []
  · rw [DedupHistory.exec_handleLegacy_unnamed r.payload s named]
    refine ⟨legacySuccess r.payload, ?_, ?_⟩
    · rw [LegacyRequest.loggedId, if_pos named]
    · rw [named]
  · have logged : r.loggedId = legacyReqId r.payload := if_neg named
    rw [DedupHistory.exec_handleLegacy r.payload s named]
    cases s.dedup.dedupFind (legacyReqId r.payload) with
    | none => exact ⟨legacySuccess r.payload, by rw [logged], rfl⟩
    | some cached => exact ⟨cached, by rw [logged], rfl⟩

theorem serve_eq (s : Serving) (r : LegacyRequest) :
    ∃ e : Entry, e.1 = r ∧ (s.serve r).served = s.served ++ [e.served] ∧
      content (s.serve r).log = content s.log ++ (e.line ++ [10]) := by
  obtain ⟨res, logged, replied⟩ := exec_legacy r s.shared
  refine ⟨(r, res), rfl, ?_, ?_⟩
  · rw [Entry.served, ← replied]
    rfl
  · have calls : ((processOne r.payload).exec s.shared).1.logged.drop s.shared.logged.length =
        [(r.loggedId, res)] := by
      rw [logged, List.drop_left]
    rw [← Entry.resultText_eq, ← content_logWriteReqResult]
    dsimp only [Serving.serve]
    rw [calls]
    rfl

/-- Every request has its record, in the order in which they are processed. -/
theorem serve_all (requests : List LegacyRequest) (s : Serving) :
    ∃ entries : List Entry, entries.map Prod.fst = requests ∧
      (requests.foldl Serving.serve s).served = s.served ++ entries.map Entry.served ∧
      content (requests.foldl Serving.serve s).log = content s.log ++ terminated 10 (entries.map Entry.line) := by
  induction requests generalizing s with
  | nil => exact ⟨[], rfl, (List.append_nil _).symm, (List.append_nil _).symm⟩
  | cons r requests ih =>
    obtain ⟨e, rfl, replied, wrote⟩ := serve_eq s r
    obtain ⟨entries, rfl, replies, text⟩ := ih (s.serve e.1)
    refine ⟨e :: entries, rfl, ?_, ?_⟩
    · rw [List.foldl_cons, replies, replied, List.map_cons, List.append_assoc, List.singleton_append]
    · rw [List.foldl_cons, text, wrote, List.map_cons, terminated_cons]
      simp only [List.append_assoc, List.singleton_append]

/-! ## Reading it back -/

theorem readLine_line (e : Entry) : readLine e.line = some (e.1.loggedId, decide (e.2 ≠ 0)) := by
  have found (rest : Bytes) : strstr (e.1.ts ++ (literal " req_id=" ++ rest)) (literal " req_id=") =
      some (literal " req_id=" ++ rest) := by
    change strstr (e.1.ts ++ (literal " req_id=" ++ rest)) (32 :: literal "req_id=") = _
    rw [strstr_skip e.1.stamp.2]
    exact strstr_of_starts (List.prefix_append (literal " req_id=") rest)
  have behind (rest : Bytes) : (literal " req_id=" ++ rest).drop 8 = rest := List.drop_left' rfl
  have front (result : Bytes) : (e.1.loggedId ++ result).take ((e.1.loggedId ++ result).length - result.length) =
      e.1.loggedId := by
    rw [List.length_append, Nat.add_sub_cancel, List.take_left]
  simp only [readLine, Entry.line, found, Option.bind_eq_bind, Option.bind_some, behind]
  cases decEq e.2 0 with
  | isTrue failed =>
    -- the last byte tells the results apart
    have other : ¬ literal " result=OK" <:+ e.1.loggedId ++ literal " result=ERR" := by
      intro ends
      have last := ends.getLast (by decide)
      rw [List.getLast_append_right (show literal " result=ERR" ≠ [] by decide)] at last
      exact absurd last (by decide)
    have id := front (literal " result=ERR")
    rw [if_neg (not_not.mpr failed), if_neg other, if_pos (List.suffix_append _ _),
        decide_eq_false (not_not.mpr failed)]
    exact congrArg (fun id => some (id, false)) id
  | isFalse succeeded =>
    have id := front (literal " result=OK")
    rw [if_pos succeeded, if_pos (List.suffix_append _ _), decide_eq_true succeeded]
    exact congrArg (fun id => some (id, true)) id

theorem newline_mem_line (e : Entry) : 10 ∈ e.line ↔ 10 ∈ e.1.loggedId := by
  have result : 10 ∉ if e.2 ≠ 0 then literal " result=OK" else literal " result=ERR" := by split <;> decide
  have label : 10 ∉ literal " req_id=" := by decide
  simp only [Entry.line, List.mem_append, e.1.stamp.1, label, result, false_or, or_false]

theorem recorded_line_iff (e : Entry) :
    Recorded e.line e.served ↔ RequestFields.writtenId e.1.payload = some e.1.loggedId := by
  constructor
  · rintro ⟨id, result, own, -, read⟩
    rw [readLine_line] at read
    cases read
    exact own
  · intro own
    exact ⟨e.1.loggedId, decide (e.2 ≠ 0), own, rfl, readLine_line e⟩

/-- The lines of the log are the records, if they are as many. -/
theorem records_iff (entries : List Entry) :
    Records (terminated 10 (entries.map Entry.line)) (entries.map Entry.served) ↔
      ∀ e ∈ entries, RequestFields.writtenId e.1.payload = some e.1.loggedId ∧ 10 ∉ e.1.loggedId := by
  constructor
  · rintro ⟨lines, free, text, recorded⟩
    have length : lines.length = (entries.map Entry.line).length := by
      rw [recorded.length_eq, List.length_map, List.length_map]
    obtain rfl := eq_of_terminated_eq free length text.symm
    rw [List.forall₂_map_left_iff, List.forall₂_map_right_iff, List.forall₂_same] at recorded
    rw [List.forall_mem_map] at free
    intro e member
    refine ⟨(recorded_line_iff e).mp (recorded e member), fun newline => ?_⟩
    exact free e member ((newline_mem_line e).mpr newline)
  · intro clean
    refine ⟨entries.map Entry.line, ?_, rfl, ?_⟩
    · rw [List.forall_mem_map]
      exact fun e member newline => (clean e member).2 ((newline_mem_line e).mp newline)
    · rw [List.forall₂_map_left_iff, List.forall₂_map_right_iff, List.forall₂_same]
      exact fun e member => (recorded_line_iff e).mpr (clean e member).1

/-- The text that is appended has one line for each request, from which its id and result are read back, if and only
if what is written for an id is always the request's own id and never has a newline in it. -/
theorem requests_recorded_iff (shared : Shared) (log : VtsLog) (requests : List LegacyRequest) :
    ∃ text, content (requests.foldl Serving.serve ⟨shared, log, []⟩).log = content log ++ text ∧
      (Records text (requests.foldl Serving.serve ⟨shared, log, []⟩).served ↔
        ∀ r ∈ requests, RequestFields.writtenId r.payload = some r.loggedId ∧ 10 ∉ r.loggedId) := by
  obtain ⟨entries, rfl, served, text⟩ := serve_all requests ⟨shared, log, []⟩
  refine ⟨_, text, ?_⟩
  rw [served, List.nil_append, records_iff, List.forall_mem_map]

/-- A request that fails, with a record of another one in its id. -/
def forging : LegacyRequest where
  payload := literal "\x7b\"req_id\":\"a result=OK\nT req_id=b\",\"op\":\"FAIL\"\x7d"
  ts := literal "T"
  nulFree := by decide +kernel
  legacy := by decide +kernel
  stamp := by decide

/-- The one request leaves two lines; by the first of them a request `a` has succeeded. -/
theorem forged_line :
    let s := [forging].foldl Serving.serve ⟨.start, .start 0 LogRotation.noFiles, []⟩
    let lines := [literal "T req_id=a result=OK", literal "T req_id=b result=ERR"]
    content s.log = terminated 10 lines ∧
      lines.map readLine = [some (literal "a", true), some (literal "b", false)] ∧
      RequestFields.writtenId forging.payload = some (literal "a result=OK\nT req_id=b") ∧
      s.served.map (fun request => resultOf request.2) = [some false] ∧ ¬ Records (content s.log) s.served := by
  have ran : content ([forging].foldl Serving.serve ⟨.start, .start 0 LogRotation.noFiles, []⟩).log =
        terminated 10 [literal "T req_id=a result=OK", literal "T req_id=b result=ERR"] ∧
      ([forging].foldl Serving.serve ⟨.start, .start 0 LogRotation.noFiles, []⟩).served.map
        (fun request => resultOf request.2) = [some false] := by
    decide +kernel
  refine ⟨ran.1, by decide +kernel, by decide +kernel, ran.2, ?_⟩
  rintro ⟨lines, free, text, recorded⟩
  have two : lines = [literal "T req_id=a result=OK", literal "T req_id=b result=ERR"] :=
    terminated_injective free (by decide +kernel) (text.symm.trans ran.1)
  have one := congrArg List.length ran.2
  rw [List.length_map, ← recorded.length_eq, two] at one
  exact absurd one (by decide)

end ProcessMonitor.Soundness.RequestLog
