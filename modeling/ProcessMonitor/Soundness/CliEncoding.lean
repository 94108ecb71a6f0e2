import ProcessMonitor.Model.Cli.SystemMonitor
import ProcessMonitor.Soundness.RoomService

/-! # Command lines at the server

The client puts its arguments between quotes without escaping them, and the server looks for a quoted
key, the next colon, and the next two quotes. As long as the target and the name hold no quote, the
payload is a list of quoted words up to the end of the name, and each search stops at the word of its
own field: a target that spells a key is followed by a comma only. A search that has found its value
does not look further, so neither the rest of the payload nor a cut after the name matters, and a cut
before the end of the name leaves no value to find.
-/

namespace ProcessMonitor.Soundness.CliEncoding

open Machine Machine.Posix Model.Vts Model.Cli RoomService

/-! ## The fields of a payload -/

def commands : List Bytes := literal "edit" :: roomCommands

theorem cmd_known (line : CommandLine) : line.cmd ∈ commands := by
  cases line with
  | room cmd target name known => exact List.mem_cons_of_mem _ known
  | edit => exact List.mem_cons_self

/-- A command is short and none of the words that are looked for. -/
theorem command_plain {cmd : Bytes} (known : cmd ∈ commands) :
    cmd ≠ literal "target" ∧ cmd ≠ literal "name" ∧ quote ∉ cmd ∧ cmd.length ≤ 31 := by
  revert cmd
  decide

/-- The words between the quotes, up to the name. -/
def words (cmd target name : Bytes) : List Bytes :=
  [literal "cmd", literal ":", cmd, literal ",", literal "target", literal ":", target, literal ",",
    literal "name", literal ":", name]

theorem namedText_eq (cmd target name : Bytes) :
    namedText cmd target name = joinSegments quote (literal "\x7b" :: words cmd target name) := by
  simp only [namedText, words, joinSegments_cons_cons]
  rfl

theorem namedText_quote (cmd target name : Bytes) :
    namedText cmd target name ++ [quote] = joinSegments quote (literal "\x7b" :: (words cmd target name ++ [[]])) := by
  simp only [namedText, words, joinSegments_cons_cons, List.cons_append, List.nil_append, List.append_assoc]
  rfl

theorem namedText_length (cmd target name : Bytes) :
    (namedText cmd target name).length = 30 + cmd.length + target.length + name.length := by
  have opening : (literal "\x7b\"cmd\":\"").length = 8 := rfl
  have second : (literal "\",\"target\":\"").length = 12 := rfl
  have third : (literal "\",\"name\":\"").length = 10 := rfl
  simp only [namedText, List.length_append, opening, second, third]
  omega

section Fields

variable {cmd target name : Bytes} (known : cmd ∈ commands) (targetFree : quote ∉ target) (nameFree : quote ∉ name)

include known targetFree nameFree

theorem words_free (tail : List Bytes) (tailFree : ∀ segment ∈ tail, quote ∉ segment) :
    ∀ segment ∈ literal "\x7b" :: (words cmd target name ++ tail), quote ∉ segment := by
  simp only [words, List.cons_append, List.nil_append, List.forall_mem_cons]
  exact ⟨by decide, by decide, by decide, (command_plain known).2.2.1, by decide, by decide, by decide, targetFree,
    by decide, by decide, by decide, nameFree, tailFree⟩

/-- Also when the target spells the key, the next colon is the one after the key. -/
theorem jsonField_name (tail : List Bytes) (tailFree : ∀ segment ∈ tail, quote ∉ segment) :
    jsonField (joinSegments quote (literal "\x7b" :: (words cmd target name ++ tail))) (literal "name") =
      valueAfterColon (literal ":" :: name :: tail) := by
  rw [jsonField_joinSegments (by decide) (by decide) _ (words_free known targetFree nameFree tail tailFree)]
  simp only [words, List.cons_append, List.nil_append]
  rw [segmentsFrom_skip (by decide), segmentsFrom_skip (by decide), segmentsFrom_skip (command_plain known).2.1,
    segmentsFrom_skip (by decide), segmentsFrom_skip (by decide), segmentsFrom_skip (by decide)]
  by_cases spelled : target = literal "name"
  · rw [spelled, segmentsFrom_self, Option.bind_some, valueAfterColon_skip (by decide),
      valueAfterColon_skip (by decide), valueAfterColon_skip (by decide)]
  · rw [segmentsFrom_skip spelled, segmentsFrom_skip (by decide), segmentsFrom_self, Option.bind_some,
      valueAfterColon_skip (by decide)]

/-- Once the name is closed all three fields are there, whatever comes after it. -/
theorem fields_of_closed (rest : Bytes) :
    jsonField (namedText cmd target name ++ quote :: rest) (literal "cmd") = some cmd ∧
      jsonField (namedText cmd target name ++ quote :: rest) (literal "target") = some target ∧
      jsonField (namedText cmd target name ++ quote :: rest) (literal "name") = some name := by
  have free := words_free known targetFree nameFree [[]] (by simp)
  rw [List.append_cons, namedText_quote]
  refine ⟨jsonField_append (by decide) ?_ rest, jsonField_append (by decide) ?_ rest,
    jsonField_append (by decide) ?_ rest⟩
  · rw [jsonField_joinSegments (by decide) (by decide) _ free]
    simp only [words, List.cons_append]
    rw [segmentsFrom_self, Option.bind_some, valueAfterColon_skip (by decide)]
    rfl
  · rw [jsonField_joinSegments (by decide) (by decide) _ free]
    simp only [words, List.cons_append]
    rw [segmentsFrom_skip (by decide), segmentsFrom_skip (by decide), segmentsFrom_skip (command_plain known).1,
      segmentsFrom_skip (by decide), segmentsFrom_self, Option.bind_some, valueAfterColon_skip (by decide)]
    rfl
  · rw [jsonField_name known targetFree nameFree [[]] (by simp)]
    rfl

/-- Before that there is no name. -/
theorem name_of_cut {payload : Bytes} (cut : payload <+: namedText cmd target name) :
    jsonField payload (literal "name") = none := by
  obtain ⟨more, whole⟩ := cut
  have unclosed : jsonField (namedText cmd target name) (literal "name") = none := by
    rw [namedText_eq, ← List.append_nil (words cmd target name),
      jsonField_name known targetFree nameFree [] (by simp)]
    rfl
  rw [Option.eq_none_iff_forall_ne_some]
  intro value found
  have longer := jsonField_append (by decide) found more
  rw [whole, unclosed] at longer
  cases longer

end Fields

/-! ## Dispatch -/

theorem processOne_eq_handleCli {payload : Bytes} (string : 0 ∉ payload)
    (starts : literal "\x7b\"cmd\"" <+: payload) : processOne payload = handleCli payload := by
  obtain ⟨more, rfl⟩ := starts
  have located : strstr (literal "\x7b\"cmd\"") (literal "\"cmd\"") = some (literal "\"cmd\"") := by decide
  rw [processOne, cstr_of_nul_free string, strstr_append located]
  rfl

/-- What follows the quote after the name. -/
def afterName : CommandLine → Bytes
  | .room .. => literal "\x7d"
  | .edit _ _ key val =>
    literal ",\"key\":\"" ++ (key ++ (literal "\",\"val\":\"" ++ (val ++ literal "\"\x7d")))

theorem text_eq (line : CommandLine) :
    line.text = namedText line.cmd line.target line.name ++ quote :: afterName line := by
  cases line <;> rfl

theorem text_string {line : CommandLine} (strings : ∀ arg ∈ line.args, 0 ∉ arg) : 0 ∉ line.text := by
  cases line with
  | room cmd target name known =>
    simp only [CommandLine.args, List.forall_mem_cons] at strings
    simp only [CommandLine.text, commandText, namedText, List.mem_append, not_or]
    exact ⟨⟨by decide, strings.1, by decide, strings.2.1, by decide, strings.2.2.1⟩, by decide⟩
  | edit target name key val =>
    simp only [CommandLine.args, List.forall_mem_cons] at strings
    simp only [CommandLine.text, editText, namedText, List.mem_append, not_or]
    exact ⟨⟨by decide, strings.1, by decide, strings.2.1, by decide, strings.2.2.1⟩, by decide,
      strings.2.2.2.2.1, by decide, strings.2.2.2.2.2.1, by decide⟩

/-- Every payload of the client goes to `handle_cli`, also a cut one. -/
theorem dispatched {line : CommandLine} (strings : ∀ arg ∈ line.args, 0 ∉ arg) {outsz : ℕ} (room : 8 ≤ outsz) :
    processOne (snprintf outsz line.text).1 = handleCli (snprintf outsz line.text).1 := by
  apply processOne_eq_handleCli
  · intro member
    exact text_string strings (List.mem_of_mem_take member)
  · have starts : literal "\x7b\"cmd\"" <+: line.text := by
      rw [text_eq, namedText, List.append_assoc]
      exact (by decide : literal "\x7b\"cmd\"" <+: literal "\x7b\"cmd\":\"").trans (List.prefix_append _ _)
    have short : (literal "\x7b\"cmd\"").length ≤ outsz - 1 := by
      have length : (literal "\x7b\"cmd\"").length = 6 := rfl
      omega
    exact List.prefix_take_iff.mpr ⟨starts, short⟩

theorem payload_dispatched {argv : List Bytes} {payload : Bytes} (strings : ∀ arg ∈ argv, 0 ∉ arg)
    (accepted : buildPayload argv 512 = (0, payload)) : processOne payload = handleCli payload := by
  obtain ⟨prog, line, extra, rfl, rfl⟩ := exists_commandLine accepted
  apply dispatched _ (by decide)
  intro arg member
  exact strings arg (List.mem_cons_of_mem prog (List.mem_append_left extra member))

/-- On arguments without quotes that fit their buffers the server's reading of a payload is the
client's command line. -/
theorem decodes_command_line (prog : Bytes) (line : CommandLine) (extra : List Bytes)
    (strings : ∀ arg ∈ line.args, 0 ∉ arg) (targetFree : quote ∉ line.target) (nameFree : quote ∉ line.name)
    (targetFits : line.target.length < 32) (nameFits : line.name.length < 64) (fits : line.text.length < 512) :
    buildPayload (prog :: (line.args ++ extra)) 512 = (0, line.text) ∧
      processOne line.text = handleCli line.text ∧
      jsonGetStr line.text (literal "cmd") 32 = some line.cmd ∧
      jsonGetStr line.text (literal "target") 32 = some line.target ∧
      jsonGetStr line.text (literal "name") 64 = some line.name := by
  have known := cmd_known line
  have whole : (snprintf 512 line.text).1 = line.text := List.take_of_length_le (Nat.le_of_lt_succ fits)
  obtain ⟨cmd, target, name⟩ := fields_of_closed known targetFree nameFree (afterName line)
  rw [← text_eq] at cmd target name
  refine ⟨?_, ?_, ?_, ?_, ?_⟩
  · rw [buildPayload_args, whole]
  · rw [← whole]
    exact dispatched strings (by decide)
  · rw [jsonGetStr_eq _ _ (by decide), cmd, Option.map_some, List.take_of_length_le (command_plain known).2.2.2]
  · rw [jsonGetStr_eq _ _ (by decide), target, Option.map_some, List.take_of_length_le (Nat.le_of_lt_succ targetFits)]
  · rw [jsonGetStr_eq _ _ (by decide), name, Option.map_some, List.take_of_length_le (Nat.le_of_lt_succ nameFits)]

/-- A command line whose arguments spell keys, are empty, or hold the other delimiters. -/
def keyLine : CommandLine := .edit (literal "name") (literal "a:\x7bb,") (literal "cmd") (literal "")

theorem decodes_command_line_keys :
    buildPayload (literal "system-monitor" :: (keyLine.args ++ [])) 512 = (0, keyLine.text) ∧
      processOne keyLine.text = handleCli keyLine.text ∧
      jsonGetStr keyLine.text (literal "cmd") 32 = some (literal "edit") ∧
      jsonGetStr keyLine.text (literal "target") 32 = some (literal "name") ∧
      jsonGetStr keyLine.text (literal "name") 64 = some (literal "a:\x7bb,") :=
  decodes_command_line (literal "system-monitor") keyLine [] (by decide) (by decide) (by decide) (by decide)
    (by decide) (by decide)

/-! ## What a command line does -/

/-- What a command line asks of the service: only rooms can be its target. -/
def operation (cmd target name : Bytes) : RoomRequest :=
  if target = literal "room" then commandOf cmd name else .malformed

/-- The payload is refused and changes nothing, or does to the rooms what the operation does to the
set of names and gets its reply. -/
def Performs (payload cmd target name : Bytes) (s : Shared) (S : RoomSet) : Prop :=
  (((processOne payload).exec s).2 = .badRequest ∧ ((processOne payload).exec s).1.rooms = s.rooms) ∨
    (Registered ((processOne payload).exec s).1.rooms (S.serve (operation cmd target name)).1 ∧
      ((processOne payload).exec s).2 = (S.serve (operation cmd target name)).2)

/-- A handler that is refused or makes its one call does to the rooms what the service does to the set. -/
theorem exec_serve {h : Handler} {request : RoomRequest}
    (answers : h = .reply .badRequest ∧ request = .malformed ∨ Implements h request) {s : Shared} {S : RoomSet}
    (registered : Registered s.rooms S) :
    Registered (h.exec s).1.rooms (S.serve request).1 ∧ (h.exec s).2 = (S.serve request).2 := by
  rcases answers with ⟨refused, malformed⟩ | ⟨call, next, shape, implements⟩
  · rw [refused, malformed]
    exact ⟨registered, rfl⟩
  · obtain ⟨kept, answer⟩ := implements s.rooms S registered
    rw [shape, Handler.exec, answer]
    exact ⟨kept, rfl⟩

theorem handleCli_of_missing {payload : Bytes} (missing : jsonField payload (literal "name") = none) :
    handleCli payload = .reply .badRequest := by
  rw [handleCli, jsonGetStr_eq payload (literal "name") (by decide), missing, Option.map_none]
  split
  next impossible => cases impossible
  next => rfl

/-- With all fields there, a target that had to be cut is no room either. -/
theorem handleCli_of_fields {payload cmd target name : Bytes} (known : cmd ∈ commands)
    (fields : jsonField payload (literal "cmd") = some cmd ∧ jsonField payload (literal "target") = some target ∧
      jsonField payload (literal "name") = some name) (fits : name.length ≤ 63) :
    handleCli payload = if target = literal "room" then handleRoomCommand cmd name else .reply .badRequest := by
  have cut : target.take 31 = literal "room" ↔ target = literal "room" := by
    constructor
    · intro same
      have length : min 31 target.length = 4 := List.length_take.symm.trans (congrArg List.length same)
      rwa [List.take_of_length_le (by omega)] at same
    · rintro rfl
      rfl
  rw [handleCli]
  simp only [jsonGetStr_eq _ _ (by decide : 0 < 32), jsonGetStr_eq _ _ (by decide : 0 < 64), fields.1, fields.2.1,
    fields.2.2, Option.map_some, Nat.reduceSub, List.take_of_length_le (command_plain known).2.2.2,
    List.take_of_length_le fits, cut]

theorem argv_args (prog : Bytes) (line : CommandLine) (extra : List Bytes) :
    (prog :: (line.args ++ extra))[1]? = some line.cmd ∧ (prog :: (line.args ++ extra))[2]? = some line.target ∧
      (prog :: (line.args ++ extra))[3]? = some line.name := by
  cases line <;> exact ⟨rfl, rfl, rfl⟩

/-- The cut of a payload falls before the end of the name, or all fields are whole. -/
theorem cut_cases (line : CommandLine) :
    (snprintf 512 line.text).1 <+: namedText line.cmd line.target line.name ∨
      ∃ rest, (snprintf 512 line.text).1 = namedText line.cmd line.target line.name ++ quote :: rest := by
  rw [snprintf, text_eq]
  by_cases inside : (namedText line.cmd line.target line.name).length < 511
  · right
    obtain ⟨more, left⟩ := Nat.exists_eq_add_of_lt inside
    refine ⟨(afterName line).take more, ?_⟩
    dsimp only
    rw [show 512 - 1 = (namedText line.cmd line.target line.name).length + (more + 1) by omega,
      List.take_length_add_append, List.take_succ_cons]
  · left
    rw [List.take_append_of_le_length (by omega)]
    exact List.take_prefix _ _

/-- A command line whose target and name hold no quote is refused or does exactly what it says, if
its name fits the registry or does not even fit the payload. -/
theorem command_line_performs {argv : List Bytes} {payload cmd target name : Bytes}
    (strings : ∀ arg ∈ argv, 0 ∉ arg) (accepted : buildPayload argv 512 = (0, payload))
    (first : argv[1]? = some cmd) (second : argv[2]? = some target) (third : argv[3]? = some name)
    (targetFree : quote ∉ target) (nameFree : quote ∉ name)
    (fits : name.length ≤ 63 ∨ 480 < cmd.length + target.length + name.length)
    {s : Shared} {S : RoomSet} (registered : Registered s.rooms S) : Performs payload cmd target name s S := by
  have cli := payload_dispatched strings accepted
  obtain ⟨prog, line, extra, rfl, rfl⟩ := exists_commandLine accepted
  obtain ⟨isCmd, isTarget, isName⟩ := argv_args prog line extra
  cases isCmd.symm.trans first
  cases isTarget.symm.trans second
  cases isName.symm.trans third
  have known := cmd_known line
  rw [Performs, cli]
  rcases cut_cases line with cut | ⟨rest, whole⟩
  · left
    rw [handleCli_of_missing (name_of_cut known targetFree nameFree cut)]
    exact ⟨rfl, rfl⟩
  · have short : line.name.length ≤ 63 := by
      have length := congrArg List.length whole
      rw [List.length_append, namedText_length, snprintf, List.length_take, List.length_cons] at length
      omega
    rw [whole, handleCli_of_fields known (fields_of_closed known targetFree nameFree rest) short, operation]
    split
    next isRoom => exact .inr (exec_serve (handleRoomCommand_implements line.cmd short) registered)
    next => exact .inl ⟨rfl, rfl⟩

def createLine : List Bytes := [literal "system-monitor", literal "create", literal "room", literal "cpu_room"]

theorem command_line_performs_create :
    Performs (commandText (literal "create") (literal "room") (literal "cpu_room")) (literal "create")
      (literal "room") (literal "cpu_room") .start .empty := by
  have accepted : buildPayload createLine 512 =
      (0, commandText (literal "create") (literal "room") (literal "cpu_room")) := by decide +kernel
  exact command_line_performs (by decide) accepted rfl rfl rfl (by decide) (by decide) (.inl (by decide))
    Registered.start

/-- A quote in the target gives the payload a second name, which comes first. -/
def quotingLine : List Bytes :=
  [literal "system-monitor", literal "create", literal "room\",\"name\":\"b", literal "a"]

/-- A quote in the name ends it there. -/
def quotedName : Bytes := literal "a\"b"

def quotedLine : List Bytes := [literal "system-monitor", literal "create", literal "room", quotedName]

def longName : Bytes := List.replicate 64 97

/-- A name of 64 bytes is cut to 63. -/
def longLine : List Bytes := [literal "system-monitor", literal "create", literal "room", longName]

/-- The payload creates a room, and none of the name in the command line. -/
theorem not_performs_of_absent {payload name : Bytes}
    (created : ((processOne payload).exec .start).2 = .ok)
    (absent : name ∉ occupied ((processOne payload).exec .start).1.rooms) :
    ¬ Performs payload (literal "create") (literal "room") name .start .empty := by
  rw [Performs, created]
  rintro (⟨refused, -⟩ | ⟨registered, -⟩)
  · cases refused
  · exact absent ((registered.mem_names_iff name).mp (Finset.mem_insert_self name ∅))

/-- A command line for no room creates one, and one for a name that is long or has a quote in it creates a room of
another name. -/
theorem other_room_created :
    (∃ payload, buildPayload quotingLine 512 = (0, payload) ∧
      ¬ Performs payload (literal "create") (literal "room\",\"name\":\"b") (literal "a") .start .empty) ∧
    (∃ payload, buildPayload quotedLine 512 = (0, payload) ∧
      ¬ Performs payload (literal "create") (literal "room") quotedName .start .empty) ∧
    ∃ payload, buildPayload longLine 512 = (0, payload) ∧
      ¬ Performs payload (literal "create") (literal "room") longName .start .empty := by
  refine ⟨⟨(buildPayload quotingLine 512).2, rfl, ?_⟩, ⟨(buildPayload quotedLine 512).2, rfl, ?_⟩,
    ⟨(buildPayload longLine 512).2, rfl, ?_⟩⟩
  · have created : ((processOne (buildPayload quotingLine 512).2).exec .start).2 = .ok := by decide +kernel
    rw [Performs, created]
    rintro (⟨refused, -⟩ | ⟨-, refused⟩)
    · exact absurd refused (by decide)
    · exact absurd refused (by decide)
  · apply not_performs_of_absent
    · decide +kernel
    · decide +kernel
  · apply not_performs_of_absent
    · decide +kernel
    · decide +kernel

end ProcessMonitor.Soundness.CliEncoding
