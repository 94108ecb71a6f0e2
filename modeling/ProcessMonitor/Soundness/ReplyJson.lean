import ProcessMonitor.Soundness.ReplyText
import ProcessMonitor.Soundness.RequestFields

/-! # Replies as JSON

A reply is formatted around texts that are not escaped. Of the fixed ones only the mock data of a shown room has
quotes in it. A legacy reply repeats between quotes what the server has taken for the id. The text cannot end the
string it stands in, but it can hold control bytes, half of a character or half of an escape, and it need not be the
id of the request: it is cut, it can come from another member, and where there is none it is `noid`.
-/

namespace ProcessMonitor.Soundness.ReplyJson

open Machine Machine.Posix Machine.Text Model.Vts

/-- What goes out behind the length. -/
def body (r : Reply) : Bytes := (r.segments.drop 1).flatten

theorem body_eq_text {r : Reply} (fits : ReplyText.Fits r) : body r = r.text := by
  rw [body, Reply.segments, snprintf, List.take_of_length_le fits]
  simp [sendLengthPrefixed]

/-- `process_one` takes a request for one of the CLI. -/
def IsCli (payload : Bytes) : Prop := strstr payload (literal "\"cmd\"") ≠ none

instance (payload : Bytes) : Decidable (IsCli payload) := inferInstanceAs (Decidable (_ ≠ _))

/-- An integer code and a message, and data only as a string. -/
def CliShape (members : List (Bytes × Json)) : Prop :=
  ((members.lookup (literal "code")).bind Json.int?).isSome ∧
    ((members.lookup (literal "msg")).bind Json.string?).isSome ∧
    ∀ data ∈ members.lookup (literal "data"), data.string?.isSome

instance (members : List (Bytes × Json)) : Decidable (CliShape members) := inferInstanceAs (Decidable (_ ∧ _ ∧ _))

/-- The id that the request's own text denotes, and a result. -/
def LegacyShape (payload : Bytes) (members : List (Bytes × Json)) : Prop :=
  (∃ id, RequestFields.denotedId payload = some id ∧ members.lookup (literal "req_id") = some (.string id)) ∧
    ∃ result, members.lookup (literal "result") = some (.string result)

/-- A body that a client of the request can read. -/
def WellFormed (payload text : Bytes) : Prop :=
  ∃ members, Json.Denotes text (.object members) ∧
    if IsCli payload then CliShape members else LegacyShape payload members

/-- What the server takes for the id stands for the request's id when it is put between quotes. -/
def Echoed (payload : Bytes) : Prop :=
  IsUtf8 (legacyReqId payload) ∧ ∃ id, RequestFields.denotedId payload = some id ∧
    Json.unescape (legacyReqId payload) = some id

/-- The request shows a room that is registered. -/
def ShowsRoom (payload : Bytes) (rooms : RoomRegistry) : Prop :=
  jsonGetStr payload (literal "cmd") 32 = some (literal "show") ∧
    jsonGetStr payload (literal "target") 32 = some (literal "room") ∧
    ∃ name, jsonGetStr payload (literal "name") 64 = some name ∧ rooms.roomExists name = true

/-! ## Legacy replies -/

/-- A field is cut from between two quotes. -/
theorem quote_not_mem_jsonGetStr {payload key value : Bytes} {outsz : ℕ}
    (found : jsonGetStr payload key outsz = some value) : 34 ∉ value := by
  simp only [jsonGetStr, bind, Option.bind_eq_some_iff] at found
  obtain ⟨_, -, _, -, q1, -, q2, closed, same⟩ := found
  obtain ⟨inner, rest, free, split, rfl⟩ := strchr_some closed
  cases same
  intro member
  have between : (inner ++ quote :: rest).length - (quote :: rest).length = inner.length := by
    rw [List.length_append, Nat.add_sub_cancel]
  rw [split, between] at member
  have within : (if outsz ≤ inner.length then outsz - 1 else inner.length) ≤ inner.length := by
    split <;> omega
  rw [List.take_append_of_le_length within] at member
  exact free (List.mem_of_mem_take member)

theorem quote_not_mem_legacyReqId (payload : Bytes) : 34 ∉ legacyReqId payload := by
  rw [legacyReqId]
  cases found : jsonGetStr payload (literal "req_id") 64 with
  | none => decide
  | some id => exact quote_not_mem_jsonGetStr found

theorem handleLegacy_reply (payload : Bytes) (s : Shared) :
    ∃ res, ((handleLegacy payload).exec s).2 = .legacy (legacyReqId payload) res := by
  by_cases named : legacyReqId payload = []
  · rw [DedupHistory.exec_handleLegacy_unnamed payload s named, named]
    exact ⟨_, rfl⟩
  · rw [DedupHistory.exec_handleLegacy payload s named]
    cases s.dedup.dedupFind (legacyReqId payload) with
    | none => exact ⟨_, rfl⟩
    | some cached => exact ⟨_, rfl⟩

/-- The text after the id and its quote. -/
private def legacyRest (res : ℤ) : Bytes :=
  44 :: 34 :: (literal "result" ++ 34 :: 58 :: 34 :: (literal (if res = 0 then "ERR" else "OK") ++ 34 :: [125]))

private theorem legacy_text (id : Bytes) (res : ℤ) : (Reply.legacy id res).text =
    123 :: 34 :: (literal "req_id" ++ 34 :: 58 :: [34]) ++ (id ++ 34 :: legacyRest res) := by
  have front : literal "\x7b\"req_id\":\"" = 123 :: 34 :: (literal "req_id" ++ 34 :: 58 :: [34]) := by decide
  have middle : literal "\",\"result\":\"" = 34 :: 44 :: 34 :: (literal "result" ++ 34 :: 58 :: [34]) := by decide
  have back : literal "\"\x7d" = 34 :: [125] := by decide
  simp only [Reply.text, front, middle, back, legacyRest, List.append_assoc, List.cons_append, List.nil_append]

private theorem plain_words : (∀ c ∈ literal "req_id", Json.Plain c) ∧ (∀ c ∈ literal "result", Json.Plain c) ∧
    ∀ res : ℤ, ∀ c ∈ literal (if res = 0 then "ERR" else "OK"), Json.Plain c := by
  have all (word : Bytes) (plain : word.all (fun c => decide (Json.Plain c)) = true) : ∀ c ∈ word, Json.Plain c :=
    fun c member => of_decide_eq_true (List.all_eq_true.mp plain c member)
  refine ⟨all _ (by decide), all _ (by decide), fun res => all _ ?_⟩
  split <;> decide

theorem isUtf8_legacy_text (id : Bytes) (res : ℤ) : IsUtf8 (Reply.legacy id res).text ↔ IsUtf8 id := by
  have front : IsAscii (123 :: 34 :: (literal "req_id" ++ 34 :: 58 :: [34])) := by decide
  have back : IsAscii (34 :: legacyRest res) := by
    rw [legacyRest]
    split <;> decide
  rw [legacy_text, isUtf8_between front back]

/-- The object of a legacy reply, from its first member on. -/
private theorem read_legacy (id : Bytes) (res : ℤ) (depth : ℕ) : Json.read (depth + 1) (Reply.legacy id res).text =
    (Json.readMembers depth (34 :: (literal "req_id" ++ 34 :: 58 :: 34 :: (id ++ 34 :: legacyRest res)))).bind
      fun found => if Json.skipSpace found.2 = [] then some (.object found.1) else none := by
  rw [legacy_text, ← Json.read_members]
  simp only [List.cons_append, List.append_assoc, List.nil_append]

/-- What the id stands for is read back with the result. -/
theorem read_legacy_text {id bytes : Bytes} (stands : Json.unescape id = some bytes) (res : ℤ) :
    Json.read 4 (Reply.legacy id res).text = some (.object [(literal "req_id", .string bytes),
      (literal "result", .string (literal (if res = 0 then "ERR" else "OK")))]) := by
  obtain ⟨reqId, result, value⟩ := plain_words
  have last := Json.readMembers_string result (literal (if res = 0 then "ERR" else "OK") ++ 34 :: [125]) 0
  rw [Json.readString_plain (value res), Option.bind_some] at last
  have first := Json.readMembers_string reqId (id ++ 34 :: legacyRest res) 1
  rw [Json.readString_of_unescape stands, Option.bind_some] at first
  rw [read_legacy, first]
  change ((Json.readMembers 2 (34 :: (literal "result" ++ _))).map _).bind _ = _
  rw [last]
  rfl

/-- Whatever a legacy reply is read as, its first member is what the id stands for. -/
theorem members_of_read_legacy {id : Bytes} (unquoted : 34 ∉ id) {res : ℤ} {depth : ℕ} {members : List (Bytes × Json)}
    (success : Json.read depth (Reply.legacy id res).text = some (.object members)) :
    ∃ bytes more, Json.unescape id = some bytes ∧ members = (literal "req_id", .string bytes) :: more := by
  have deep := Json.read_add success 3
  rw [read_legacy] at deep
  obtain ⟨⟨found, rest⟩, read, same⟩ := Option.bind_eq_some_iff.mp deep
  obtain ⟨-, same⟩ := Option.ite_none_right_eq_some.mp same
  cases same
  obtain ⟨bytes, behind, more, string, rfl, followed⟩ := Json.readMembers_string_some plain_words.1 read
  refine ⟨bytes, more, ?_, rfl⟩
  rcases Json.unescape_of_readString unquoted string with ⟨stands, -⟩ | ⟨later, goesOn⟩
  · exact stands
  · -- the next quote ends the string, and neither a comma nor a brace follows it
    cases goesOn
    rcases followed with comma | brace
    · exact absurd rfl comma
    · exact absurd rfl brace

theorem wellFormed_legacy_text_iff {payload : Bytes} (legacy : ¬IsCli payload) (res : ℤ) :
    WellFormed payload (Reply.legacy (legacyReqId payload) res).text ↔ Echoed payload := by
  constructor
  · rintro ⟨members, ⟨encoded, depth, success⟩, shape⟩
    rw [if_neg legacy] at shape
    obtain ⟨⟨id, own, repeated⟩, -⟩ := shape
    obtain ⟨bytes, more, stands, rfl⟩ := members_of_read_legacy (quote_not_mem_legacyReqId payload) success
    rw [List.lookup_cons_self] at repeated
    cases repeated
    exact ⟨(isUtf8_legacy_text _ res).mp encoded, id, own, stands⟩
  · rintro ⟨encoded, id, own, stands⟩
    refine ⟨_, ⟨(isUtf8_legacy_text _ res).mpr encoded, 4, read_legacy_text stands res⟩, ?_⟩
    rw [if_neg legacy]
    exact ⟨⟨id, own, rfl⟩, _, rfl⟩

/-! ## CLI replies -/

/-- The replies that are the same for every request. -/
def fixed : List Reply := [.ok, .badRequest, .notFound, .alreadyExists, .internalError]

theorem answerFound_reply (found : Reply) (name : Bytes) (s : Shared) :
    ((answerFound found name).exec s).2 = if s.rooms.roomExists name then found else .notFound := by
  cases registered : s.rooms.roomExists name <;>
    simp [answerFound, Handler.exec, RegistryCall.run, registered]

private theorem answerFound_fixed {found : Reply} (member : found ∈ fixed) (name : Bytes) (s : Shared) :
    ((answerFound found name).exec s).2 ∈ fixed := by
  rw [answerFound_reply]
  split
  exacts [member, by decide]

theorem handleRoomCommand_reply {cmd : Bytes} (other : cmd ≠ literal "show") (name : Bytes) (s : Shared) :
    ((handleRoomCommand cmd name).exec s).2 ∈ fixed := by
  have ok : Reply.ok ∈ fixed := by decide
  unfold handleRoomCommand
  rw [if_neg other]
  split_ifs
  · simp only [Handler.exec]
    split_ifs <;> decide
  · simp only [Handler.exec]
    split_ifs <;> decide
  · exact answerFound_fixed ok name s
  · exact answerFound_fixed ok name s
  · exact answerFound_fixed ok name s
  · exact (by decide : Reply.badRequest ∈ fixed)

theorem handleRoomCommand_show (name : Bytes) :
    handleRoomCommand (literal "show") name = answerFound .showRoom name := by
  unfold handleRoomCommand
  rw [if_neg (by decide), if_neg (by decide), if_neg (by decide), if_neg (by decide), if_neg (by decide), if_pos rfl]

/-- Only a room that is shown gets a reply of its own. -/
theorem handleCli_reply (payload : Bytes) (s : Shared) :
    ShowsRoom payload s.rooms ∧ ((handleCli payload).exec s).2 = .showRoom ∨
      ¬ShowsRoom payload s.rooms ∧ ((handleCli payload).exec s).2 ∈ fixed := by
  have refused : ((Handler.reply .badRequest).exec s).2 ∈ fixed := (by decide : Reply.badRequest ∈ fixed)
  unfold handleCli
  split
  next cmd target name hasCmd hasTarget hasName =>
    split_ifs with room
    · by_cases show' : cmd = literal "show"
      · subst show' room
        rw [handleRoomCommand_show, answerFound_reply]
        by_cases registered : s.rooms.roomExists name = true
        · exact .inl ⟨⟨hasCmd, hasTarget, name, hasName, registered⟩, if_pos registered⟩
        · refine .inr ⟨?_, by rw [if_neg registered]; decide⟩
          rintro ⟨-, -, shown, same, exists'⟩
          cases hasName.symm.trans same
          exact registered exists'
      · refine .inr ⟨fun shows => ?_, handleRoomCommand_reply show' name s⟩
        exact show' (Option.some.inj (hasCmd.symm.trans shows.1))
    · refine .inr ⟨fun shows => ?_, refused⟩
      exact room (Option.some.inj (hasTarget.symm.trans shows.2.1))
  next missing =>
    refine .inr ⟨?_, refused⟩
    rintro ⟨cmd, target, name, named, -⟩
    exact missing _ _ _ cmd target named

theorem wellFormed_fixed {payload : Bytes} (cli : IsCli payload) {r : Reply} (member : r ∈ fixed) :
    WellFormed payload r.text := by
  have all : fixed.all (fun r => decide (IsAscii r.text) &&
      ((Json.read 4 r.text).bind Json.members?).any fun members => decide (CliShape members)) = true := by
    decide +kernel
  have one := List.all_eq_true.mp all r member
  obtain ⟨ascii, shaped⟩ := Bool.and_eq_true_iff.mp one
  cases read : Json.read 4 r.text with
  | none => simp [read] at shaped
  | some value =>
    cases value with
    | object members =>
      rw [read] at shaped
      refine ⟨members, ⟨(of_decide_eq_true ascii).isUtf8, 4, read⟩, ?_⟩
      rw [if_pos cli]
      exact of_decide_eq_true shaped
    | null | bool | number | string | array => simp [read, Json.members?] at shaped

/-- The data of the reply to `show` ends the string it is put into. -/
theorem not_wellFormed_showRoom (payload : Bytes) : ¬WellFormed payload Reply.showRoom.text := by
  have bytes : Reply.showRoom.text =
      [123, 34, 99, 111, 100, 101, 34, 58, 48, 44, 34, 109, 115, 103, 34, 58, 34, 79, 75, 34, 44, 34, 100, 97,
        116, 97, 34, 58, 34, 123, 34, 114, 111, 111, 109, 34, 58, 34, 100, 117, 109, 109, 121, 34, 125, 34, 125] := by
    decide +kernel
  rintro ⟨members, ⟨-, depth, success⟩, -⟩
  have deep := Json.read_add success 6
  rw [bytes] at deep
  cases deep

theorem cli_wellFormed_iff {buffer : Bytes} (cli : IsCli (cstr buffer)) (s : Shared) :
    WellFormed (cstr buffer) (body ((processOne buffer).exec s).2) ↔ ¬ShowsRoom (cstr buffer) s.rooms := by
  have handled : processOne buffer = handleCli (cstr buffer) := if_neg cli
  rw [body_eq_text ((ReplyText.processOne_ends buffer).exec s), handled]
  rcases handleCli_reply (cstr buffer) s with ⟨shows, reply⟩ | ⟨other, member⟩
  · rw [reply]
    exact iff_of_false (not_wellFormed_showRoom _) (not_not_intro shows)
  · exact iff_of_true (wellFormed_fixed cli member) other

theorem legacy_wellFormed_iff {buffer : Bytes} (legacy : ¬IsCli (cstr buffer)) (s : Shared) :
    WellFormed (cstr buffer) (body ((processOne buffer).exec s).2) ↔ Echoed (cstr buffer) := by
  have handled : processOne buffer = handleLegacy (cstr buffer) := if_pos (not_not.mp legacy)
  obtain ⟨res, reply⟩ := handleLegacy_reply (cstr buffer) s
  rw [body_eq_text ((ReplyText.processOne_ends buffer).exec s), handled, reply]
  exact wellFormed_legacy_text_iff legacy res

/-- A reply is well formed except when it shows a room or repeats a text that does not stand for the request's id. -/
theorem reply_wellFormed_iff (buffer : Bytes) (s : Shared) :
    WellFormed (cstr buffer) (body ((processOne buffer).exec s).2) ↔
      if IsCli (cstr buffer) then ¬ShowsRoom (cstr buffer) s.rooms else Echoed (cstr buffer) := by
  by_cases cli : IsCli (cstr buffer)
  · rw [if_pos cli]
    exact cli_wellFormed_iff cli s
  · rw [if_neg cli]
    exact legacy_wellFormed_iff cli s

def showRequest : Bytes := literal "\x7b\"cmd\":\"show\",\"target\":\"room\",\"name\":\"a\"\x7d"

/-- One room, and nothing else has happened. -/
def oneRoom : Shared := { Shared.start with rooms := (RoomRegistry.start.roomCreate (literal "a")).1 }

theorem showRequest_not_wellFormed :
    0 ∉ showRequest ∧ ¬WellFormed showRequest (body ((processOne showRequest).exec oneRoom).2) := by
  have free : 0 ∉ showRequest := by decide +kernel
  have whole : cstr showRequest = showRequest := cstr_of_nul_free free
  have cli : IsCli (cstr showRequest) := by decide +kernel
  have shows : ShowsRoom (cstr showRequest) oneRoom.rooms := by
    rw [whole]
    exact ⟨by decide +kernel, by decide +kernel, literal "a", by decide +kernel, by decide +kernel⟩
  have broken := (cli_wellFormed_iff cli oneRoom).not.mpr (not_not_intro shows)
  rw [whole] at broken
  exact ⟨free, broken⟩

end ProcessMonitor.Soundness.ReplyJson
