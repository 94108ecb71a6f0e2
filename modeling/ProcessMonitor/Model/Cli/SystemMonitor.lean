import ProcessMonitor.Machine.Posix.Numeral
import ProcessMonitor.Machine.Posix.Socket
import ProcessMonitor.Model.LocGen.VtsAdapter
import ProcessMonitor.Model.Vts.Protocol

/-! # The command-line client

`build_payload` formats the arguments into a JSON text without escaping anything, cut to its buffer.
`send_req` writes the header and the payload with one `write()` each, gives the attempt up when either
takes fewer bytes than it was given or when the reply does not come in time, and then sends the same
payload again on a new connection. The payload carries no request id.
-/

namespace ProcessMonitor.Model.Cli

open Machine Machine.Posix Vts
open LocGen (Endpoint headerLength recvRest)

/-! ## The payload -/

/-- Both formats of `build_payload` up to the end of the name. -/
def namedText (cmd target name : Bytes) : Bytes :=
  literal "\x7b\"cmd\":\"" ++ (cmd ++ (literal "\",\"target\":\"" ++ (target ++
    (literal "\",\"name\":\"" ++ name))))

def commandText (cmd target name : Bytes) : Bytes := namedText cmd target name ++ literal "\"\x7d"

def editText (cmd target name key val : Bytes) : Bytes :=
  namedText cmd target name ++ (literal "\",\"key\":\"" ++ (key ++ (literal "\",\"val\":\"" ++
    (val ++ literal "\"\x7d"))))

/-- The commands that take a target and a name only. -/
def roomCommands : List Bytes := [literal "create", literal "delete", literal "start", literal "stop", literal "show"]

/-- `build_payload`: its return value and the string it leaves in `out`. -/
def buildPayload (argv : List Bytes) (outsz : ℕ) : ℤ × Bytes :=
  match argv with
  | _ :: cmd :: args =>
    if cmd = literal "help" then (1, [])
    else if cmd ∈ roomCommands then
      match args with
      | target :: name :: _ => (0, (snprintf outsz (commandText cmd target name)).1)
      | _ => (-1, [])
    else if cmd = literal "edit" then
      match args with
      | target :: name :: set :: key :: val :: _ =>
        if set ≠ literal "--set" then (-1, [])
        else (0, (snprintf outsz (editText cmd target name key val)).1)
      | _ => (-1, [])
    else (-1, [])
  | _ => (-1, [])

/-- The arguments of a command line that is accepted, without what may follow them. -/
inductive CommandLine
  | room (cmd : Bytes) (target name : Bytes) (known : cmd ∈ roomCommands)
  | edit (target name key val : Bytes)

namespace CommandLine

def cmd : CommandLine → Bytes
  | room cmd .. => cmd
  | edit .. => literal "edit"

def target : CommandLine → Bytes
  | room _ target .. => target
  | edit target .. => target

def name : CommandLine → Bytes
  | room _ _ name _ => name
  | edit _ name .. => name

/-- From `argv[1]` on. -/
def args : CommandLine → List Bytes
  | room cmd target name _ => [cmd, target, name]
  | edit target name key val => [literal "edit", target, name, literal "--set", key, val]

/-- The text it asks for, before it is cut. -/
def text : CommandLine → Bytes
  | room cmd target name _ => commandText cmd target name
  | edit target name key val => editText (literal "edit") target name key val

end CommandLine

/-- Every command line of either form is accepted, whatever follows. -/
theorem buildPayload_args (prog : Bytes) (line : CommandLine) (extra : List Bytes) (outsz : ℕ) :
    buildPayload (prog :: (line.args ++ extra)) outsz = (0, (snprintf outsz line.text).1) := by
  cases line with
  | room cmd target name known =>
    have other : cmd ≠ literal "help" := by
      rintro rfl
      exact absurd known (by decide)
    simp only [CommandLine.args, List.cons_append, buildPayload, if_neg other, if_pos known, CommandLine.text]
  | edit target name key val =>
    have none : literal "edit" ∉ roomCommands := by decide
    have other : literal "edit" ≠ literal "help" := by decide
    simp only [CommandLine.args, List.cons_append, buildPayload, if_neg other, if_neg none, if_true,
      ne_eq, not_true_eq_false, if_false, CommandLine.text]

/-- No other command line is. -/
theorem exists_commandLine {argv : List Bytes} {outsz : ℕ} {payload : Bytes}
    (accepted : buildPayload argv outsz = (0, payload)) :
    ∃ prog line extra, argv = prog :: (CommandLine.args line ++ extra) ∧ payload = (snprintf outsz line.text).1 := by
  unfold buildPayload at accepted
  split at accepted
  next prog cmd args =>
    split_ifs at accepted with help known edit
    · cases accepted
    · split at accepted
      next target name extra =>
        cases accepted
        exact ⟨prog, .room cmd target name known, extra, rfl, rfl⟩
      next => cases accepted
    · split at accepted
      next target name set key val extra =>
        split_ifs at accepted with other
        · cases accepted
        · cases accepted
          rw [not_not] at other
          exact ⟨prog, .edit target name key val, extra, by rw [edit, other]; rfl, by rw [edit]; rfl⟩
      next => cases accepted
    · cases accepted
  next => cases accepted

/-! ## Sending it -/

/-- `write(fd, &nlen, 4)!=4 || write(fd, payload, len)!=(ssize_t)len`, negated, with the bytes the
socket took. -/
def writeRequest (payload : Bytes) (first second : WriteAnswer) : Bool × Bytes :=
  match write first 4 with
  | none => (false, [])
  | some n =>
    if n ≠ 4 then (false, (storeU32 (htonl payload.length)).take n)
    else match write second payload.length with
      | none => (false, storeU32 (htonl payload.length))
      | some m => (decide (m = payload.length), storeU32 (htonl payload.length) ++ payload.take m)

theorem writeRequest_ok {payload : Bytes} {first second : WriteAnswer}
    (ok : (writeRequest payload first second).1 = true) :
    (writeRequest payload first second).2 = framing.frame payload := by
  simp only [writeRequest] at ok ⊢
  cases header : write first 4 with
  | none => simp [header] at ok
  | some n =>
    simp only [header] at ok ⊢
    split_ifs at ok ⊢ with short
    cases body : write second payload.length with
    | none => simp [body] at ok
    | some m =>
      simp only [body, decide_eq_true_eq] at ok ⊢
      rw [ok, List.take_length]
      rfl

theorem writeRequest_part (payload : Bytes) (first second : WriteAnswer) :
    (writeRequest payload first second).2 <+: framing.frame payload := by
  simp only [writeRequest]
  split
  · exact List.nil_prefix
  · split
    · exact (List.take_prefix _ _).trans (List.prefix_append _ _)
    · split
      · exact List.prefix_append _ _
      · exact (List.prefix_append_right_inj _).mpr (List.take_prefix _ _)

/-- `E_OK`, `E_IO`, and `E_TIMEOUT` -/
def eOk : ℤ := 0

def eIo : ℤ := 1100

def eTimeout : ℤ := 1101

/-- The reply is read into `rspsz` bytes: a longer one is cut, and the connection closed on the rest. -/
def readReply (rspsz : ℕ) (unread : Bytes) : List Answer → Option Bytes
  | [] => none
  | answer :: answers =>
    match Posix.read answer unread 4 with
    | .data header =>
      if header.length ≠ 4 then none
      else
        let rlen := ntohl (loadU32 header)
        recvRest (if rspsz ≤ rlen then rspsz - 1 else rlen) (unread.drop 4) answers
    | _ => none

/-- Both clients take the header from one `read()`. -/
theorem readReply_eq (rspsz : ℕ) (unread : Bytes) (answers : List Answer) :
    readReply rspsz unread answers = (headerLength unread answers).bind fun rlen =>
      recvRest (if rspsz ≤ rlen then rspsz - 1 else rlen) (unread.drop 4) answers.tail := by
  cases answers with
  | nil => rfl
  | cons answer answers =>
    rw [readReply, headerLength]
    cases Posix.read answer unread 4 with
    | data header =>
      by_cases short : header.length ≠ 4
      · simp only [if_pos short, Option.bind_none]
      · simp only [if_neg short, Option.bind_some, List.tail_cons]
    | eof => rfl
    | again => rfl
    | error => rfl

/-- One round of the loop, as the network and the server let it go; `connected` stands for
`getaddrinfo`, `socket`, and `connect` together. -/
structure Attempt (ε : Type*) where
  connected : Bool
  first : WriteAnswer
  second : WriteAnswer
  serving : ε
  reads : List Answer

section Loop

variable {σ ε : Type*} (peer : Endpoint σ ε) (payload : Bytes) (rspsz : ℕ)

/-- The server gets what was written even if the client gives up on the connection. -/
def tryOnce (a : Attempt ε) (s : σ) : σ × ℤ × Bytes :=
  if a.connected = false then (s, eIo, [])
  else
    let (ok, sent) := writeRequest payload a.first a.second
    let (s, unread) := peer.serve s sent a.serving
    if ok = false then (s, eIo, [])
    else match readReply rspsz unread a.reads with
      | none => (s, eTimeout, [])
      | some resp => (s, eOk, resp)

def tryAll : List (Attempt ε) → ℤ → σ → σ × ℤ × Bytes
  | [], lastErr, s => (s, lastErr, [])
  | a :: attempts, _, s =>
    let (s, rc, resp) := tryOnce peer payload rspsz a s
    if rc = eOk then (s, eOk, resp) else tryAll attempts rc s

/-- `send_req`: its return value and the string it leaves in `resp`. The condition
`attempt++ <= retry_max` holds `retry_max + 1` times. -/
def sendReq (retryMax : ℤ) (attempts : ℕ → Attempt ε) (s : σ) : σ × ℤ × Bytes :=
  tryAll peer payload rspsz ((List.range (retryMax + 1).toNat).map attempts) eIo s

end Loop

/-! ## The program -/

/-- `USAGE` -/
def usageText : Bytes :=
  literal "system-monitor create|delete|start|stop|edit|show|help [ARGS]\n" ++
  literal "Examples:\n" ++
  literal " system-monitor create room cpu_room\n" ++
  literal " system-monitor show room cpu_room --via vts\n"

/-- What a run leaves: the server, what is printed to both streams, and the exit status. -/
structure CliEnd (σ : Type*) where
  server : σ
  out : Bytes
  err : Bytes
  status : ℤ

/-- `retry_max`, from the environment variable `VTS_RETRY_MAX`. -/
def retryMax : Option Bytes → ℤ
  | some value => atoi value
  | none => 3

/-- The end of `main`, once `send_req` has returned. -/
def finish {σ : Type*} : σ × ℤ × Bytes → CliEnd σ
  | (s, rc, resp) =>
    if rc ≠ eOk then
      let cause := if rc = eTimeout then literal "timeout" else literal "io"
      ⟨s, [], literal "ERROR " ++ decimal rc.natAbs ++ literal ": " ++ cause ++ literal "\n", 4⟩
    else ⟨s, cstr resp ++ literal "\n", [], 0⟩

def main {σ ε : Type*} (peer : Endpoint σ ε) (argv : List Bytes) (vtsRetryMax : Option Bytes)
    (attempts : ℕ → Attempt ε) (s : σ) : CliEnd σ :=
  let help := usageText ++ literal "\n"
  match argv with
  | _ :: cmd :: _ =>
    if cmd = literal "help" then ⟨s, help, [], 0⟩
    else
      let (r, payload) := buildPayload argv 512
      if r = 1 then ⟨s, help, [], 0⟩
      else if r < 0 then ⟨s, help, literal "ERROR 1001: bad arguments.\n", 3⟩
      else finish (sendReq peer payload 1024 (retryMax vtsRetryMax) attempts s)
  | _ => ⟨s, help, [], 2⟩

/-- An accepted command line is sent. -/
theorem main_of_accepted {σ ε : Type*} (peer : Endpoint σ ε) {argv : List Bytes} {payload : Bytes}
    (accepted : buildPayload argv 512 = (0, payload)) (vtsRetryMax : Option Bytes) (attempts : ℕ → Attempt ε) (s : σ) :
    main peer argv vtsRetryMax attempts s = finish (sendReq peer payload 1024 (retryMax vtsRetryMax) attempts s) := by
  unfold main
  split
  next prog cmd args =>
    have other : cmd ≠ literal "help" := by
      rintro rfl
      cases accepted
    rw [if_neg other, accepted]
    rfl
  next few =>
    obtain ⟨prog, line, extra, rfl, -⟩ := exists_commandLine accepted
    cases line <;> exact absurd rfl (few _ _ _)

end ProcessMonitor.Model.Cli
