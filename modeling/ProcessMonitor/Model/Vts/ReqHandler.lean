import Mathlib.Data.Int.Notation
import ProcessMonitor.Machine.Posix.CString

/-! # Request handlers of the server

The room registry, the deduplication table, and the two request handlers of `req_handler.c`. A
handler runs in some worker thread and touches shared state only inside short critical sections,
so it is a tree with one node for each section: what a worker does between two of them is
local, and a scheduler can interleave other workers exactly there. `Handler.exec` runs a tree
alone; `Handler.act` performs its next section.
-/

namespace ProcessMonitor.Model.Vts

open Machine Machine.Posix

def quote : UInt8 := 34

def colon : UInt8 := 58

/-- `json_get_str`: the text between the two quotes after the first colon after the quoted key, cut
to the caller's buffer. -/
def jsonGetStr (payload key : Bytes) (outsz : ℕ) : Option Bytes := do
  let k ← strstr payload (snprintf 64 (quote :: (key ++ [quote]))).1
  let afterKey ← strchr k colon
  let q1 ← strchr afterKey quote
  let q2 ← strchr q1.tail quote
  let n := q1.tail.length - q2.length
  some (q1.tail.take (if outsz ≤ n then outsz - 1 else n))

/-- The same text before it is cut. -/
def jsonField (payload key : Bytes) : Option Bytes := do
  let k ← strstr payload (snprintf 64 (quote :: (key ++ [quote]))).1
  let afterKey ← strchr k colon
  let q1 ← strchr afterKey quote
  let q2 ← strchr q1.tail quote
  some (q1.tail.take (q1.tail.length - q2.length))

theorem jsonGetStr_eq (payload key : Bytes) {outsz : ℕ} (room : 0 < outsz) :
    jsonGetStr payload key outsz = (jsonField payload key).map (List.take (outsz - 1)) := by
  have cut (n : ℕ) : (if outsz ≤ n then outsz - 1 else n) = min (outsz - 1) n := by split <;> omega
  simp only [jsonGetStr, jsonField, bind, Option.map_bind, Function.comp_def, Option.map_some,
    List.take_take, cut]

/-- The search of `json_get_str` from the quoted key on. -/
def fieldFrom (k : Bytes) : Option Bytes := do
  let afterKey ← strchr k colon
  let q1 ← strchr afterKey quote
  let q2 ← strchr q1.tail quote
  some (q1.tail.take (q1.tail.length - q2.length))

theorem jsonField_eq (payload : Bytes) {key : Bytes} (short : key.length ≤ 61) :
    jsonField payload key = (strstr payload (quote :: (key ++ [quote]))).bind fieldFrom := by
  have whole : (snprintf 64 (quote :: (key ++ [quote]))).1 = quote :: (key ++ [quote]) := by
    apply List.take_of_length_le
    simp only [List.length_cons, List.length_append, List.length_nil]
    omega
  rw [jsonField, whole]
  rfl

theorem fieldFrom_append {k value : Bytes} (found : fieldFrom k = some value) (more : Bytes) :
    fieldFrom (k ++ more) = some value := by
  simp only [fieldFrom, bind, Option.bind_eq_some_iff] at found
  obtain ⟨afterKey, first, q1, second, q2, third, extracted⟩ := found
  obtain ⟨_, rest, _, _, rfl⟩ := strchr_some second
  rw [List.tail_cons] at third extracted
  simp only [fieldFrom, bind, strchr_append first, strchr_append second, Option.bind_some, List.cons_append,
    List.tail_cons, strchr_append third]
  have length : (rest ++ more).length - (q2 ++ more).length = rest.length - q2.length := by
    simp only [List.length_append]
    omega
  rw [length, List.take_append_of_le_length (Nat.sub_le _ _), extracted]

/-- A payload that goes on after the value of a field has the same value there. -/
theorem jsonField_append {payload key value : Bytes} (short : key.length ≤ 61)
    (found : jsonField payload key = some value) (more : Bytes) : jsonField (payload ++ more) key = some value := by
  rw [jsonField_eq _ short] at found ⊢
  obtain ⟨k, located, extracted⟩ := Option.bind_eq_some_iff.mp found
  rw [strstr_append located, Option.bind_some, fieldFrom_append extracted]

/-- Of the texts between the quotes, the one after the first that holds a colon, if a quote ends it. -/
def valueAfterColon : List Bytes → Option Bytes
  | first :: value :: next :: rest =>
    if colon ∈ first then some value else valueAfterColon (value :: next :: rest)
  | _ => none

theorem valueAfterColon_skip {first : Bytes} (free : colon ∉ first) (rest : List Bytes) :
    valueAfterColon (first :: rest) = valueAfterColon rest := by
  match rest with
  | [] => rfl
  | [_] => rfl
  | value :: next :: rest => rw [valueAfterColon, if_neg free]

private theorem fieldFrom_skip {skipped : Bytes} (free : colon ∉ skipped) (text : Bytes) :
    fieldFrom (skipped ++ text) = fieldFrom text := by
  rw [fieldFrom, strchr_skip free, fieldFrom]

private theorem fieldFrom_colon {skipped : Bytes} (free : quote ∉ skipped) (text : Bytes) :
    fieldFrom (colon :: (skipped ++ quote :: text)) =
      (strchr text quote).map fun q2 => text.take (text.length - q2.length) := by
  have quoted : strchr (colon :: (skipped ++ quote :: text)) quote = some (quote :: text) := by
    rw [← List.cons_append, strchr_skip, strchr_self]
    exact List.not_mem_cons_of_ne_of_not_mem (by decide) free
  simp only [fieldFrom, bind, strchr_self, Option.bind_some, quoted, List.tail_cons]
  cases strchr text quote <;> rfl

theorem fieldFrom_joinSegments {segments : List Bytes} (free : ∀ segment ∈ segments, quote ∉ segment) :
    fieldFrom (joinSegments quote segments) = valueAfterColon segments := by
  induction segments with
  | nil => rfl
  | cons first rest ih =>
    have firstFree := free first List.mem_cons_self
    have restFree := fun segment member => free segment (List.mem_cons_of_mem first member)
    by_cases here : colon ∈ first
    · obtain ⟨before, after, rfl, noColon⟩ := List.eq_append_cons_of_mem here
      have afterFree : quote ∉ after := fun member => firstFree (by simp [member])
      cases rest with
      | nil =>
        have unquoted : strchr (colon :: after) quote = none :=
          strchr_of_not_mem fun member => firstFree (List.mem_append_right before member)
        rw [joinSegments, fieldFrom_skip noColon]
        simp only [fieldFrom, bind, strchr_self, Option.bind_some, unquoted, Option.bind_none]
        rfl
      | cons value rest =>
        rw [joinSegments_cons_cons, List.append_assoc, fieldFrom_skip noColon, List.cons_append,
          fieldFrom_colon afterFree]
        have valueFree := restFree value List.mem_cons_self
        cases rest with
        | nil =>
          rw [joinSegments, strchr_of_not_mem valueFree]
          rfl
        | cons next rest =>
          rw [joinSegments_cons_cons, strchr_skip valueFree, strchr_self, valueAfterColon, if_pos here]
          simp
    · cases rest with
      | nil =>
        rw [joinSegments, fieldFrom, strchr_of_not_mem here]
        rfl
      | cons value rest =>
        have skip : colon ∉ first ++ [quote] := by
          rw [List.mem_append, not_or]
          exact ⟨here, by decide⟩
        rw [joinSegments_cons_cons, List.append_cons, fieldFrom_skip skip, ih restFree, valueAfterColon_skip here]

/-- In a text made of quoted words the value of a field is found word by word. -/
theorem jsonField_joinSegments {key : Bytes} (short : key.length ≤ 61) (keyFree : quote ∉ key) (first : Bytes)
    {rest : List Bytes} (free : ∀ segment ∈ first :: rest, quote ∉ segment) :
    jsonField (joinSegments quote (first :: rest)) key = (segmentsFrom key rest).bind valueAfterColon := by
  rw [jsonField_eq _ short, strstr_joinSegments keyFree first rest free, Option.bind_map]
  apply Option.bind_congr
  intro found result
  have within := segmentsFrom_suffix result
  have foundFree : ∀ segment ∈ found, quote ∉ segment := by
    intro segment member
    exact free segment (List.mem_cons_of_mem first (within.subset member))
  have opening : colon ∉ [quote] := by decide
  rw [Function.comp_apply, ← List.singleton_append, fieldFrom_skip opening, fieldFrom_joinSegments foundFree]

/-! ## Room registry -/

/-- `MAX_ROOMS` -/
def maxRooms : ℕ := 64

/-- `g_rooms`, each row as the string it holds, and `g_room_count`. -/
structure RoomRegistry where
  gRooms : List Bytes
  gRoomCount : ℤ
  rows : gRooms.length = maxRooms
deriving DecidableEq

namespace RoomRegistry

def start : RoomRegistry := ⟨List.replicate maxRooms [], 0, List.length_replicate⟩

/-- The row at which `for (int i = 0; i < g_room_count; ++i)` finds the name. -/
def find (r : RoomRegistry) (name : Bytes) : Option ℕ :=
  (r.gRooms.take r.gRoomCount.toNat).findIdx? fun row => row = name

def roomExists (r : RoomRegistry) (name : Bytes) : Bool := (r.find name).isSome

def roomCreate (r : RoomRegistry) (name : Bytes) : RoomRegistry × ℤ :=
  match r.find name with
  | some _ => (r, 1)
  | none =>
    if maxRooms ≤ r.gRoomCount then (r, -1)
    else
      ({ gRooms := r.gRooms.set r.gRoomCount.toNat (name.take 63)
         gRoomCount := r.gRoomCount + 1
         rows := List.length_set.trans r.rows }, 0)

/-- The last row moves into the gap. -/
def roomDelete (r : RoomRegistry) (name : Bytes) : RoomRegistry × ℤ :=
  match r.find name with
  | none => (r, 1)
  | some i =>
    let last := (r.gRoomCount - 1).toNat
    if i = last then ({ r with gRoomCount := r.gRoomCount - 1 }, 0)
    else
      ({ gRooms := r.gRooms.set i (r.gRooms.getD last [])
         gRoomCount := r.gRoomCount - 1
         rows := List.length_set.trans r.rows }, 0)

end RoomRegistry

/-! ## Deduplication -/

/-- `DEDUP_MAX` -/
def dedupMax : ℕ := 4096

structure DedupEntry where
  id : Bytes
  result : ℤ
  used : Bool
deriving DecidableEq, Repr

/-- `dedup_tab` and `dedup_pos` -/
structure DedupTable where
  tab : List DedupEntry
  pos : ℕ
  size : tab.length = dedupMax
  inRange : pos < dedupMax

namespace DedupTable

def start : DedupTable := ⟨List.replicate dedupMax ⟨[], 0, false⟩, 0, List.length_replicate, by decide⟩

/-- The scan stops at the first used entry with the id. -/
def dedupFind (t : DedupTable) (id : Bytes) : Option ℤ :=
  (t.tab.find? fun entry => entry.used && entry.id = id).map DedupEntry.result

/-- The entry at `dedup_pos` is overwritten, whatever it held. -/
def dedupPut (t : DedupTable) (id : Bytes) (res : ℤ) : DedupTable :=
  if id = [] then t
  else
    { tab := t.tab.set t.pos ⟨id.take 63, res, true⟩
      pos := (t.pos + 1) % dedupMax
      size := List.length_set.trans t.size
      inRange := Nat.mod_lt _ (by decide) }

end DedupTable

/-! ## Replies -/

/-- The bytes of a reply in the two buffers that `send_length_prefixed` passes to `write_full`. -/
def sendLengthPrefixed (buf : Bytes) (n : ℕ) : List Bytes := [storeU32 (htonl n), buf.take n]

/-- What a handler answers: `reply_json` or `send_resp_legacy` with their arguments. -/
inductive Reply
  | json (code : ℕ) (msg : Bytes) (data : Bytes)
  | legacy (reqId : Bytes) (success : ℤ)
deriving DecidableEq, Repr

namespace Reply

/-- The text that `snprintf` is asked for. -/
def text : Reply → Bytes
  | json code msg data =>
    if data = [] then
      literal "\x7b\"code\":" ++ decimal code ++ literal ",\"msg\":\"" ++ msg ++ literal "\"\x7d"
    else
      literal "\x7b\"code\":" ++ decimal code ++ literal ",\"msg\":\"" ++ msg ++
        literal "\",\"data\":\"" ++ data ++ literal "\"\x7d"
  | legacy reqId success =>
    literal "\x7b\"req_id\":\"" ++ reqId ++ literal "\",\"result\":\"" ++
      literal (if success = 0 then "ERR" else "OK") ++ literal "\"\x7d"

/-- The size of the buffer it is formatted into. -/
def bufferSize : Reply → ℕ
  | json .. => 512
  | legacy .. => 256

/-- The length sent is the one `snprintf` returns, also for a text it had to cut. -/
def segments (r : Reply) : List Bytes :=
  let (buffer, n) := snprintf r.bufferSize r.text
  sendLengthPrefixed buffer n

def ok : Reply := .json 0 (literal "OK") []

def badRequest : Reply := .json 1001 (literal "Bad request") []

def notFound : Reply := .json 1002 (literal "Not found") []

def alreadyExists : Reply := .json 1003 (literal "Already exists") []

def internalError : Reply := .json 1100 (literal "Internal error") []

def showRoom : Reply := .json 0 (literal "OK") (literal "\x7b\"room\":\"dummy\"\x7d")

end Reply

/-! ## Handlers -/

/-- A call of one of the registry functions, each one critical section under `rooms_lock`. -/
inductive RegistryCall
  | roomExists (name : Bytes)
  | roomCreate (name : Bytes)
  | roomDelete (name : Bytes)
deriving DecidableEq, Repr

def RegistryCall.run (r : RoomRegistry) : RegistryCall → RoomRegistry × ℤ
  | .roomExists name => (r, if r.roomExists name then 1 else 0)
  | .roomCreate name => r.roomCreate name
  | .roomDelete name => r.roomDelete name

/-- What a handler still has to do, one node for each access to shared state. -/
inductive Handler
  | reply (r : Reply)
  | registry (call : RegistryCall) (next : ℤ → Handler)
  | dedupFind (id : Bytes) (next : Option ℤ → Handler)
  | dedupPut (id : Bytes) (res : ℤ) (next : Handler)
  | logWriteReqResult (id : Bytes) (res : ℤ) (next : Handler)

/-- The state the workers share; `logged` are the calls of `log_write_req_result`. -/
structure Shared where
  rooms : RoomRegistry
  dedup : DedupTable
  logged : List (Bytes × ℤ)

def Shared.start : Shared := ⟨.start, .start, []⟩

namespace Handler

/-- Run a handler with no other worker in between. -/
def exec : Handler → Shared → Shared × Reply
  | reply r, s => (s, r)
  | registry call next, s =>
    (next (call.run s.rooms).2).exec { s with rooms := (call.run s.rooms).1 }
  | dedupFind id next, s => (next (s.dedup.dedupFind id)).exec s
  | dedupPut id res next, s => next.exec { s with dedup := s.dedup.dedupPut id res }
  | logWriteReqResult id res next, s => next.exec { s with logged := s.logged ++ [(id, res)] }

/-- The next critical section; a handler that only has its reply left has none. -/
def act : Handler → Shared → Option (Shared × Handler)
  | reply _, _ => none
  | registry call next, s => some ({ s with rooms := (call.run s.rooms).1 }, next (call.run s.rooms).2)
  | dedupFind id next, s => some (s, next (s.dedup.dedupFind id))
  | dedupPut id res next, s => some ({ s with dedup := s.dedup.dedupPut id res }, next)
  | logWriteReqResult id res next, s => some ({ s with logged := s.logged ++ [(id, res)] }, next)

end Handler

/-- The request id a legacy payload is deduplicated by. -/
def legacyReqId (payload : Bytes) : Bytes :=
  (jsonGetStr payload (literal "req_id") 64).getD (literal "noid")

/-- The result of a legacy request on its own: every op but `FAIL` succeeds. -/
def legacySuccess (payload : Bytes) : ℤ :=
  if (jsonGetStr payload (literal "op") 32).getD (literal "NOP") = literal "FAIL" then 0 else 1

/-- The second half of `handle_legacy`, after the lookup. -/
def answerLegacy (payload : Bytes) : Option ℤ → Handler
  | some cached =>
    .logWriteReqResult (legacyReqId payload) cached (.reply (.legacy (legacyReqId payload) cached))
  | none =>
    if legacyReqId payload = [] then
      .logWriteReqResult (literal "-") (legacySuccess payload)
        (.reply (.legacy (legacyReqId payload) (legacySuccess payload)))
    else
      .dedupPut (legacyReqId payload) (legacySuccess payload)
        (.logWriteReqResult (legacyReqId payload) (legacySuccess payload)
          (.reply (.legacy (legacyReqId payload) (legacySuccess payload))))

def handleLegacy (payload : Bytes) : Handler :=
  if legacyReqId payload = [] then answerLegacy payload none
  else .dedupFind (legacyReqId payload) (answerLegacy payload)

/-- The commands that only look the room up. The values that `edit` also extracts are not used. -/
def answerFound (found : Reply) (name : Bytes) : Handler :=
  .registry (.roomExists name) fun r => .reply (if r = 0 then .notFound else found)

/-- `handle_cli` once the three fields are there and the target is a room. -/
def handleRoomCommand (cmd name : Bytes) : Handler :=
  if cmd = literal "create" then
    .registry (.roomCreate name) fun r =>
      .reply (if r = 0 then .ok else if r = 1 then .alreadyExists else .internalError)
  else if cmd = literal "delete" then
    .registry (.roomDelete name) fun r => .reply (if r = 0 then .ok else .notFound)
  else if cmd = literal "start" then answerFound .ok name
  else if cmd = literal "stop" then answerFound .ok name
  else if cmd = literal "edit" then answerFound .ok name
  else if cmd = literal "show" then answerFound .showRoom name
  else .reply .badRequest

def handleCli (payload : Bytes) : Handler :=
  match jsonGetStr payload (literal "cmd") 32, jsonGetStr payload (literal "target") 32,
      jsonGetStr payload (literal "name") 64 with
  | some cmd, some target, some name =>
    if target = literal "room" then handleRoomCommand cmd name else .reply .badRequest
  | _, _, _ => .reply .badRequest

/-- `process_one` on the payload of a work item, which is a string by its added NUL. -/
def processOne (buffer : Bytes) : Handler :=
  let payload := cstr buffer
  if strstr payload (literal "\"cmd\"") = none then handleLegacy payload else handleCli payload

end ProcessMonitor.Model.Vts
