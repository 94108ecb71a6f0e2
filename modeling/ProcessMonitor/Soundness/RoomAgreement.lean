import ProcessMonitor.Model.LocGen.VtsAdapter
import ProcessMonitor.Soundness.FrameDecoding
import ProcessMonitor.Soundness.ReplyText
import Mathlib.Order.Monotone.Basic

/-! # Room commands of locgend at the server

locgend asks for rooms with `"type":"room.apply"` and `"type":"room.delete"`; the server changes its
registry only for a payload with the keys `cmd`, `target`, and `name`. Of the texts between the quotes
of a request only the id and the type of the room are free, so that not all three keys can be there:
every request is answered, by `handle_legacy` or with a bad request, and none changes the registry.
The client takes any nonempty answer for success. Hence a reported success says nothing that was not
true before.
-/

namespace ProcessMonitor.Soundness.RoomAgreement

open Machine Machine.Posix Model.Vts Model.LocGen ReplyText

/-- How the server meets one connection: its descriptor and the readiness events on it. -/
structure Serving where
  fd : ℤ
  events : List Readiness

/-- Works processed one after another, with the bytes of their replies. -/
def processAll : List Work → Shared → Shared × Bytes
  | [], s => (s, [])
  | work :: works, s =>
    let (s, r) := (processOne work.payload).exec s
    let (s, rest) := processAll works s
    (s, r.segments.flatten ++ rest)

/-- The VTS server: `read_from_conn` on the bytes of the connection, `process_one` on each frame. -/
def vtsEndpoint : Endpoint Shared Serving where
  serve s sent e := processAll (serveConn (connNew e.fd) sent e.events).pushed s

/-! ## Requests that cannot reach the registry -/

def cliKeys : List Bytes := [literal "cmd", literal "target", literal "name"]

/-- A payload that leaves the registry alone and gets a short answer. -/
structure Harmless (payload : Bytes) : Prop where
  rooms : ∀ s, ((processOne payload).exec s).1.rooms = s.rooms
  reply : ∀ s, 0 < ((processOne payload).exec s).2.text.length ∧ ((processOne payload).exec s).2.text.length < 256

theorem handleLegacy_rooms (payload : Bytes) (s : Shared) : ((handleLegacy payload).exec s).1.rooms = s.rooms := by
  by_cases named : legacyReqId payload = []
  · rw [DedupHistory.exec_handleLegacy_unnamed payload s named]
  · rw [DedupHistory.exec_handleLegacy payload s named]
    split <;> rfl

theorem handleLegacy_reply (payload : Bytes) (s : Shared) :
    ∃ id res, ((handleLegacy payload).exec s).2 = .legacy id res ∧ id.length ≤ 63 := by
  have bound := DedupHistory.legacyReqId_length_le payload
  by_cases named : legacyReqId payload = []
  · rw [DedupHistory.exec_handleLegacy_unnamed payload s named]
    exact ⟨[], _, rfl, Nat.zero_le _⟩
  · rw [DedupHistory.exec_handleLegacy payload s named]
    split <;> exact ⟨_, _, rfl, bound⟩

/-- Without one of its keys a payload is no room command. -/
theorem processOne_of_missing {payload key : Bytes} (string : 0 ∉ payload) (isKey : key ∈ cliKeys)
    (missing : strstr payload (quote :: (key ++ [quote])) = none) :
    processOne payload = handleLegacy payload ∨ processOne payload = .reply .badRequest := by
  have absent (outsz : ℕ) (short : (snprintf 64 (quote :: (key ++ [quote]))).1 = quote :: (key ++ [quote])) :
      jsonGetStr payload key outsz = none := by
    rw [jsonGetStr, short, missing]
    rfl
  rw [processOne, cstr_of_nul_free string]
  split
  · exact .inl rfl
  · right
    simp only [cliKeys, List.mem_cons, List.not_mem_nil, or_false] at isKey
    rw [handleCli]
    rcases isKey with rfl | rfl | rfl
    · rw [absent 32 rfl]
    · rw [absent 32 rfl]
      split
      next impossible _ => cases impossible
      next => rfl
    · rw [absent 64 rfl]
      split
      next impossible => cases impossible
      next => rfl

theorem harmless_of_missing {payload key : Bytes} (string : 0 ∉ payload) (isKey : key ∈ cliKeys)
    (missing : strstr payload (quote :: (key ++ [quote])) = none) : Harmless payload := by
  rcases processOne_of_missing string isKey missing with legacy | refused
  · constructor
    · intro s
      rw [legacy]
      exact handleLegacy_rooms payload s
    · intro s
      obtain ⟨id, res, reply, bound⟩ := handleLegacy_reply payload s
      rw [legacy, reply]
      exact legacy_text_length bound res
  · constructor
    · intro s
      rw [refused]
      rfl
    · intro s
      rw [refused]
      exact (by decide : 0 < Reply.badRequest.text.length ∧ Reply.badRequest.text.length < 256)

/-- A text that can stand between two quotes. -/
def Clean (segment : Bytes) : Prop := quote ∉ segment ∧ 0 ∉ segment

instance (segment : Bytes) : Decidable (Clean segment) := inferInstanceAs (Decidable (_ ∧ _))

theorem clean_append {left right : Bytes} (first : Clean left) (second : Clean right) : Clean (left ++ right) := by
  constructor
  · rw [List.mem_append, not_or]
    exact ⟨first.1, second.1⟩
  · rw [List.mem_append, not_or]
    exact ⟨first.2, second.2⟩

theorem clean_decimal (n : ℕ) : Clean (decimal n) := by
  constructor
  · intro member
    exact absurd (digit_of_mem_decimal member).1 (by decide)
  · intro member
    exact absurd (digit_of_mem_decimal member).1 (by decide)

theorem clean_number (reqId : ℕ) : Clean (literal ":" ++ (decimal reqId ++ literal ",")) :=
  clean_append (by decide) (clean_append (clean_decimal reqId) (by decide))

/-- A quoted text in which not all keys of a room command are quoted is harmless. -/
theorem harmless_of_segments {first : Bytes} {rest : List Bytes} (clean : ∀ segment ∈ first :: rest, Clean segment)
    (few : ¬ ∀ key ∈ cliKeys, key ∈ rest.dropLast) : Harmless (joinSegments quote (first :: rest)) := by
  push Not at few
  obtain ⟨key, isKey, absent⟩ := few
  have string : 0 ∉ joinSegments quote (first :: rest) := by
    intro member
    rcases mem_joinSegments quote member with same | ⟨segment, among, within⟩
    · exact absurd same (by decide)
    · exact (clean segment among).2 within
  have keyClean : quote ∉ key := by
    simp only [cliKeys, List.mem_cons, List.not_mem_nil, or_false] at isKey
    rcases isKey with rfl | rfl | rfl <;> decide
  apply harmless_of_missing string isKey
  by_contra found
  have free : ∀ segment ∈ first :: rest, quote ∉ segment := fun segment among => (clean segment among).1
  exact absent ((strstr_joinSegments_ne_none_iff keyClean free).mp found)

/-- An id or type as the arrays of `room_t` can hold it, nonempty and without quotes. -/
structure PlainText (limit : ℕ) where
  text : Bytes
  nonempty : text ≠ []
  fits : text.length ≤ limit
  clean : Clean text

structure PlainRoom where
  id : PlainText 63
  type : PlainText 31
  state : RoomState

def PlainRoom.toRoom (r : PlainRoom) : Room := ⟨r.id.text, r.type.text, r.state⟩

/-- The texts between the quotes of an apply request, after its opening brace. -/
def applySegments (reqId : ℕ) (r : Room) : List Bytes :=
  [literal "type", literal ":", literal "room.apply", literal ",", literal "req_id",
    literal ":" ++ (decimal reqId ++ literal ","), literal "room", literal ":\x7b", literal "id", literal ":", r.id,
    literal ",", literal "type", literal ":", r.type, literal ",", literal "state", literal ":",
    roomStateStr r.state, literal "\x7d\x7d"]

theorem applyText_eq (reqId : ℕ) (r : Room) :
    applyText reqId r = joinSegments quote (literal "\x7b" :: applySegments reqId r) := by
  simp only [applyText, applySegments, joinSegments_cons_cons, List.append_assoc]
  rfl

theorem clean_applySegments (reqId : ℕ) (r : PlainRoom) :
    ∀ segment ∈ literal "\x7b" :: applySegments reqId r.toRoom, Clean segment := by
  have state : Clean (roomStateStr r.state) := by cases r.state <;> decide
  simp only [applySegments, PlainRoom.toRoom, List.forall_mem_cons, List.not_mem_nil, false_imp_iff, implies_true,
    and_true]
  exact ⟨by decide, by decide, by decide, by decide, by decide, by decide, clean_number reqId, by decide, by decide,
    by decide, by decide, r.id.clean, by decide, by decide, by decide, r.type.clean, by decide, by decide, by decide,
    state, by decide⟩

theorem number_not_key (reqId : ℕ) : literal ":" ++ (decimal reqId ++ literal ",") ∉ cliKeys := by
  have openings : ∀ key ∈ cliKeys, key.head? ≠ some colon := by decide
  intro member
  exact openings _ member rfl

/-- Only the id and the type of a room can be a key. -/
theorem applySegments_words (reqId : ℕ) (r : Room) :
    ∀ segment ∈ (applySegments reqId r).dropLast, segment ∉ cliKeys ∨ segment = r.id ∨ segment = r.type := by
  have state : roomStateStr r.state ∉ cliKeys := by cases r.state <;> decide
  simp only [applySegments, List.dropLast, List.forall_mem_cons, List.not_mem_nil, false_imp_iff, implies_true,
    and_true]
  exact ⟨.inl (by decide), .inl (by decide), .inl (by decide), .inl (by decide), .inl (by decide),
    .inl (number_not_key reqId), .inl (by decide), .inl (by decide), .inl (by decide), .inl (by decide),
    .inr (.inl trivial), .inl (by decide), .inl (by decide), .inl (by decide), .inr (.inr trivial), .inl (by decide),
    .inl (by decide), .inl (by decide), .inl state⟩

/-- Two free texts cannot be three keys. -/
theorem few_keys {segments : List Bytes} {a b : Bytes}
    (words : ∀ segment ∈ segments, segment ∉ cliKeys ∨ segment = a ∨ segment = b) :
    ¬ ∀ key ∈ cliKeys, key ∈ segments := by
  intro all
  have among : cliKeys ⊆ [a, b] := by
    intro key isKey
    rcases (words key (all key isKey)).resolve_left (not_not_intro isKey) with rfl | rfl
    · exact List.mem_cons_self
    · exact List.mem_cons_of_mem _ List.mem_cons_self
  have distinct : cliKeys.Nodup := by decide
  exact absurd (distinct.subperm among).length_le (show ¬ 3 ≤ 2 by decide)

/-- The same for the commands that only name a room. -/
def namedSegments (command : Bytes) (reqId : ℕ) (id : Bytes) : List Bytes :=
  [literal "type", literal ":", command, literal ",", literal "req_id",
    literal ":" ++ (decimal reqId ++ literal ","), literal "id", literal ":", id, literal "\x7d"]

theorem namedText_eq (command : Bytes) (reqId : ℕ) (id : Bytes) :
    namedText command reqId id = joinSegments quote (literal "\x7b" :: namedSegments command reqId id) := by
  simp only [namedText, namedSegments, joinSegments_cons_cons, List.append_assoc]
  rfl

theorem clean_namedSegments {command : Bytes} (plain : Clean command) (reqId : ℕ) {limit : ℕ} (id : PlainText limit) :
    ∀ segment ∈ literal "\x7b" :: namedSegments command reqId id.text, Clean segment := by
  simp only [namedSegments, List.forall_mem_cons, List.not_mem_nil, false_imp_iff, implies_true, and_true]
  exact ⟨by decide, by decide, by decide, plain, by decide, by decide, clean_number reqId, by decide, by decide,
    id.clean, by decide⟩

theorem namedSegments_words {command : Bytes} (noKey : command ∉ cliKeys) (reqId : ℕ) (id : Bytes) :
    ∀ segment ∈ (namedSegments command reqId id).dropLast, segment ∉ cliKeys ∨ segment = id ∨ segment = id := by
  simp only [namedSegments, List.dropLast, List.forall_mem_cons, List.not_mem_nil, false_imp_iff, implies_true,
    and_true]
  exact ⟨.inl (by decide), .inl (by decide), .inl noKey, .inl (by decide), .inl (by decide),
    .inl (number_not_key reqId), .inl (by decide), .inl (by decide), .inr (.inl trivial)⟩

/-- What the client sends: harmless, and short enough for its buffer and the server. -/
structure PlainRequest (text : Bytes) : Prop where
  harmless : Harmless text
  positive : 0 < text.length
  fits : text.length ≤ 511

theorem decimal_genReqId_length (nowMs : ℕ) : (decimal (genReqId nowMs)).length ≤ 20 := by
  apply decimal_length_le (by decide)
  have bound : nowMs % 2 ^ 64 < 2 ^ 64 := Nat.mod_lt _ (by decide)
  exact Nat.lt_trans bound (by decide)

theorem snprintf_of_fits {size : ℕ} {text : Bytes} (fits : text.length ≤ size - 1) :
    (snprintf size text).1 = text := List.take_of_length_le fits

theorem plainRequest_apply (nowMs : ℕ) (r : PlainRoom) : PlainRequest (applyReq nowMs r.toRoom) := by
  have digits := decimal_genReqId_length nowMs
  have id := r.id.fits
  have type := r.type.fits
  have state : (roomStateStr r.state).length = 7 := by cases r.state <;> rfl
  have length : (applyText (genReqId nowMs) r.toRoom).length =
      30 + (decimal (genReqId nowMs)).length + 15 + r.id.text.length + 10 + r.type.text.length + 11 +
        (roomStateStr r.state).length + 3 := by
    simp only [applyText, PlainRoom.toRoom, List.length_append]
    rfl
  rw [applyReq, snprintf_of_fits (by omega)]
  constructor
  · rw [applyText_eq]
    exact harmless_of_segments (clean_applySegments _ r) (few_keys (applySegments_words _ _))
  · omega
  · omega

theorem plainRequest_delete (nowMs : ℕ) (id : PlainText 63) : PlainRequest (deleteReq nowMs id.text) := by
  have digits := decimal_genReqId_length nowMs
  have bound := id.fits
  have length : (deleteText (genReqId nowMs) id.text).length =
      9 + 11 + 11 + (decimal (genReqId nowMs)).length + 7 + id.text.length + 2 := by
    simp only [deleteText, namedText, List.length_append]
    rfl
  rw [deleteReq, snprintf_of_fits (by omega)]
  constructor
  · rw [deleteText, namedText_eq]
    exact harmless_of_segments (clean_namedSegments (by decide) _ id) (few_keys (namedSegments_words (by decide) _ _))
  · omega
  · omega

/-! ## What a command does to the server -/

theorem admits_of_plain {text : Bytes} (plain : PlainRequest text) : framing.Admits text.length := by
  have limit : (511 : ℕ) ≤ framing.limit := by decide
  exact ⟨plain.positive, plain.fits.trans limit⟩

theorem processAll_rooms {text : Bytes} (harmless : Harmless text) {works : List Work}
    (same : ∀ work ∈ works, work.payload = text) (s : Shared) : (processAll works s).1.rooms = s.rooms := by
  induction works generalizing s with
  | nil => rfl
  | cons work works ih =>
    simp only [processAll]
    rw [ih fun other member => same other (List.mem_cons_of_mem _ member), same work List.mem_cons_self]
    exact harmless.rooms s

/-- No command of the client changes the registry. -/
theorem vtsCmdWithRetry_rooms {text : Bytes} (plain : PlainRequest text) (attempts : List (Attempt Serving))
    (s : Shared) : (vtsCmdWithRetry vtsEndpoint text 512 attempts s).1.rooms = s.rooms := by
  refine vtsCmdWithRetry_invariant (fun t : Shared => t.rooms = s.rooms) ?_ rfl
  intro t sent e before part
  have pushed := FrameDecoding.pushed_of_part (admits_of_plain plain) part e.fd e.events
  refine (processAll_rooms plain.harmless ?_ t).trans before
  intro work member
  exact List.mem_singleton.mp (pushed.subset (List.mem_map_of_mem member))

theorem vtsApplyRoom_rooms (r : PlainRoom) (call : Call Serving) (s : Shared) :
    (vtsApplyRoom vtsEndpoint r.toRoom call s).1.rooms = s.rooms :=
  vtsCmdWithRetry_rooms (plainRequest_apply call.nowMs r) call.attempts s

theorem vtsDeleteRoom_rooms (id : PlainText 63) (call : Call Serving) (s : Shared) :
    (vtsDeleteRoom vtsEndpoint id.text call s).1.rooms = s.rooms :=
  vtsCmdWithRetry_rooms (plainRequest_delete call.nowMs id) call.attempts s

theorem applyRooms_rooms (calls : ℕ → Call Serving) (i : ℕ) (rooms : List PlainRoom) (s : Shared) :
    (applyRooms vtsEndpoint calls i (rooms.map PlainRoom.toRoom) s).1.rooms = s.rooms := by
  induction rooms generalizing i s with
  | nil => rfl
  | cons r rooms ih =>
    simp only [List.map_cons, applyRooms]
    split
    · exact vtsApplyRoom_rooms r (calls i) s
    · rw [ih, vtsApplyRoom_rooms]

/-! ## Success is always possible -/

/-- A connection on which nothing goes wrong. -/
def smooth : Attempt Serving where
  connected := true
  writes := [.accept 3, .accept 510]
  serving := ⟨0, [⟨List.replicate 515 (.ready 0), false⟩]⟩
  reads := [.ready 3, .ready 510]

theorem sendFrame_smooth {text : Bytes} (plain : PlainRequest text) :
    sendFrame text smooth.writes = (0, framing.frame text) := by
  have nonempty : text ≠ [] := List.length_pos_iff.mp plain.positive
  have all : min (510 + 1) text.length = text.length := Nat.min_eq_right plain.fits
  have ok : (sendFrame text smooth.writes).1 = 0 := by
    simp only [smooth, sendFrame, write, sendRest, all, if_neg nonempty, List.drop_length, if_true]
    rfl
  exact Prod.ext ok (sendFrame_ok ok)

theorem offered_replicate (n more : ℕ) : FrameDecoding.offered (List.replicate n (.ready more)) = n := by
  induction n with
  | zero => rfl
  | succ n ih => rw [List.replicate_succ, FrameDecoding.offered, ih]

theorem pushed_smooth {text : Bytes} (plain : PlainRequest text) :
    (serveConn (connNew smooth.serving.fd) (framing.frame text) smooth.serving.events).pushed =
      [FrameDecoding.workOf smooth.serving.fd text] := by
  have splits := FrameDecoding.splits_frame (admits_of_plain plain)
  have decoded := FrameDecoding.decodedExactly_of_splits smooth.serving.fd splits smooth.serving.events
  have quiet : FrameDecoding.QuietEvents smooth.serving.events := by
    intro event member
    rw [List.mem_singleton.mp member]
    refine ⟨rfl, ?_⟩
    intro answer among
    rw [List.eq_of_mem_replicate among]
    exact ⟨nofun, nofun⟩
  have enough : (framing.frame text).length ≤
      (smooth.serving.events.map fun event => FrameDecoding.offered event.answers).sum := by
    have length : (framing.frame text).length = 4 + text.length := LengthPrefix.frame_length text
    have offers : (smooth.serving.events.map fun event => FrameDecoding.offered event.answers).sum = 515 := by
      simp only [smooth, List.map_cons, List.map_nil, List.sum_singleton, offered_replicate]
    have fits := plain.fits
    omega
  rcases decoded.delivered quiet enough with used | refused
  · exact decoded.finished used
  · exact (decoded.onlyRefused quiet refused).2.2

theorem recvFrame_smooth {text : Bytes} (positive : 0 < text.length) (fits : text.length ≤ 511) :
    recvFrame 512 (framing.frame text) smooth.reads = ((text.length : ℤ), text) := by
  have length : (framing.frame text).length = 4 + text.length := LengthPrefix.frame_length text
  have header : (framing.frame text).take 4 = storeU32 (htonl text.length) := rfl
  have body : (framing.frame text).drop 4 = text := rfl
  have announced : ntohl (loadU32 (storeU32 (htonl text.length))) = text.length :=
    ntohl_loadU32_storeU32_htonl (by omega)
  have first : Posix.read (.ready 3) (framing.frame text) 4 = .data (storeU32 (htonl text.length)) := by
    rw [read_ready_all (by decide) (by decide) (by omega), header]
  have second : Posix.read (.ready 510) text text.length = .data text := by
    rw [read_ready_all positive (by omega) le_rfl, List.take_length]
  have rest : recvRest text.length text [.ready 510] = some text := by
    rw [recvRest, if_neg (by omega), second]
    simp only [recvRest, Nat.sub_self, if_true, Option.map_some, List.append_nil]
  have four : (storeU32 (htonl text.length)).length = 4 := rfl
  simp only [smooth, recvFrame, first, four, ne_eq, not_true_eq_false, if_false, announced, body, rest]
  rw [if_neg (by omega), if_pos (by omega)]

theorem serve_smooth {text : Bytes} (plain : PlainRequest text) (s : Shared) :
    vtsEndpoint.serve s (framing.frame text) smooth.serving =
      (((processOne text).exec s).1, framing.frame ((processOne text).exec s).2.text) := by
  have fits := (processOne_ends text).exec s
  change processAll (serveConn (connNew smooth.serving.fd) (framing.frame text) smooth.serving.events).pushed s = _
  rw [pushed_smooth plain, processAll, FrameDecoding.workOf]
  dsimp only
  rw [processAll, List.append_nil, segments_flatten fits]

theorem tryOnce_smooth {text : Bytes} (plain : PlainRequest text) (s : Shared) :
    0 < (tryOnce vtsEndpoint text 512 smooth s).2.1 := by
  obtain ⟨positive, short⟩ := plain.harmless.reply s
  rw [tryOnce_of_sent rfl (sendFrame_smooth plain) (serve_smooth plain s), recvFrame_smooth positive (by omega)]
  exact Int.natCast_pos.mpr positive

/-- A command that reads the clock at zero and has one smooth attempt. -/
def smoothCall : Call Serving := ⟨0, [smooth]⟩

/-- Every command of the client can report success, whatever the server holds. -/
theorem vtsCmdWithRetry_smooth {text : Bytes} (plain : PlainRequest text) (s : Shared) :
    (vtsCmdWithRetry vtsEndpoint text 512 smoothCall.attempts s).2.1 = 0 := by
  have attempts : smoothCall.attempts = [smooth] := rfl
  have success := vtsCmdWithRetry_of_success (tryOnce_smooth plain s) []
  exact attempts ▸ success

theorem vtsApplyRoom_smooth (r : PlainRoom) (s : Shared) :
    (vtsApplyRoom vtsEndpoint r.toRoom smoothCall s).2 = 0 :=
  (vtsApplyRoom_snd _ _ _).trans (vtsCmdWithRetry_smooth (plainRequest_apply smoothCall.nowMs r) s)

theorem vtsDeleteRoom_smooth (id : PlainText 63) (s : Shared) :
    (vtsDeleteRoom vtsEndpoint id.text smoothCall s).2 = 0 :=
  (vtsDeleteRoom_snd _ _ _).trans (vtsCmdWithRetry_smooth (plainRequest_delete smoothCall.nowMs id) s)

theorem applyRooms_smooth (i : ℕ) (rooms : List PlainRoom) (s : Shared) :
    (applyRooms vtsEndpoint (fun _ => smoothCall) i (rooms.map PlainRoom.toRoom) s).2 = 0 := by
  induction rooms generalizing i s with
  | nil => rfl
  | cons r rooms ih =>
    have applied := applyRooms_cons (fun _ => smoothCall) i (rooms.map PlainRoom.toRoom) (vtsApplyRoom_smooth r s)
    exact (congrArg Prod.snd applied).trans (ih _ _)

/-! ## Agreement -/

/-- With any clock that does not run backwards and any behaviour of the network, a reported success of
`apply_from_xml` means that the rooms are registered. -/
def ApplyAgrees (rooms : List PlainRoom) (server : Shared) : Prop :=
  ∀ calls : ℕ → Call Serving, Monotone (fun i => (calls i).nowMs) →
    (applyFromXml vtsEndpoint (some (rooms.map PlainRoom.toRoom)) calls server).2 = 0 →
    ∀ r ∈ rooms, (applyFromXml vtsEndpoint (some (rooms.map PlainRoom.toRoom)) calls server).1.rooms.roomExists
      r.id.text = true

/-- A reported success of `vts_delete_room` means that the room is not registered. -/
def DeleteAgrees (id : PlainText 63) (server : Shared) : Prop :=
  ∀ call : Call Serving, (vtsDeleteRoom vtsEndpoint id.text call server).2 = 0 →
    (vtsDeleteRoom vtsEndpoint id.text call server).1.rooms.roomExists id.text = false

/-- The two ends agree exactly on what needs no change: rooms that are registered already, and a room
that is not registered anyway. -/
theorem agrees_iff_unchanged (rooms : List PlainRoom) (id : PlainText 63) (server : Shared) :
    (ApplyAgrees rooms server ↔ ∀ r ∈ rooms, server.rooms.roomExists r.id.text = true) ∧
      (DeleteAgrees id server ↔ server.rooms.roomExists id.text = false) := by
  constructor
  · constructor
    · intro agrees r member
      have registered := agrees (fun _ => smoothCall) monotone_const (applyRooms_smooth 0 rooms server) r member
      rwa [applyFromXml, applyRooms_rooms] at registered
    · intro registered calls _ _ r member
      rw [applyFromXml, applyRooms_rooms]
      exact registered r member
  · constructor
    · intro agrees
      have gone := agrees smoothCall (vtsDeleteRoom_smooth id server)
      rwa [vtsDeleteRoom_rooms] at gone
    · intro absent call _
      rw [vtsDeleteRoom_rooms]
      exact absent

def plainR1 : PlainText 63 := ⟨literal "r1", by decide, by decide, by decide⟩

def roomR1 : PlainRoom := ⟨plainR1, ⟨literal "cpu", by decide, by decide, by decide⟩, .started⟩

/-- locgend reports that it has created a room in an empty registry, which stays empty, and that it has
deleted a room, which stays registered. -/
theorem reported_success_changes_nothing :
    ((applyFromXml vtsEndpoint (some [roomR1.toRoom]) (fun _ => smoothCall) Shared.start).2 = 0 ∧
      (applyFromXml vtsEndpoint (some [roomR1.toRoom]) (fun _ => smoothCall) Shared.start).1.rooms.roomExists
        (literal "r1") = false) ∧
    ∃ server : Shared, server.rooms = (RoomRegistry.start.roomCreate (literal "r1")).1 ∧
      (vtsDeleteRoom vtsEndpoint (literal "r1") smoothCall server).2 = 0 ∧
      (vtsDeleteRoom vtsEndpoint (literal "r1") smoothCall server).1.rooms.roomExists (literal "r1") = true := by
  constructor
  · constructor
    · exact applyRooms_smooth 0 [roomR1] Shared.start
    · rw [applyFromXml, show [roomR1.toRoom] = [roomR1].map PlainRoom.toRoom from rfl, applyRooms_rooms]
      decide
  · refine ⟨⟨(RoomRegistry.start.roomCreate (literal "r1")).1, .start, []⟩, rfl, ?_, ?_⟩
    · exact vtsDeleteRoom_smooth plainR1 _
    · rw [show literal "r1" = plainR1.text from rfl, vtsDeleteRoom_rooms]
      decide

end ProcessMonitor.Soundness.RoomAgreement
