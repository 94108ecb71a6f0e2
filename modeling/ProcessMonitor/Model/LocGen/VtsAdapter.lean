import ProcessMonitor.Machine.Posix.CString
import ProcessMonitor.Machine.Posix.Socket
import ProcessMonitor.Model.Vts.Protocol
import Mathlib.Data.Int.Notation

/-! # The VTS client of locgend

Sending and receiving are modelled byte for byte against the socket's answers, so that a frame cut by
an error is seen as the prefix it leaves on the connection. A script that ends is a time-out. The other
end is any `Endpoint`: it gets the bytes of one connection and says what it answers, also when the
client has given up before it reads the answer.
-/

namespace ProcessMonitor.Model.LocGen

open Machine Machine.Posix Vts

/-- The payload loop of `send_frame`: its return value and the bytes the socket took. -/
def sendRest (rest : Bytes) : List WriteAnswer → ℤ × Bytes
  | [] => if rest = [] then (0, []) else (-1, [])
  | answer :: answers =>
    if rest = [] then (0, [])
    else match write answer rest.length with
      | none => (-1, [])
      | some n =>
        let (ret, sent) := sendRest (rest.drop n) answers
        (ret, rest.take n ++ sent)

/-- `send_frame`: a header that does not go out in one `write()` fails the call. -/
def sendFrame (buf : Bytes) : List WriteAnswer → ℤ × Bytes
  | [] => (-1, [])
  | answer :: answers =>
    match write answer 4 with
    | none => (-1, [])
    | some n =>
      if n ≠ 4 then (-1, (storeU32 (htonl buf.length)).take n)
      else
        let (ret, sent) := sendRest buf answers
        (ret, storeU32 (htonl buf.length) ++ sent)

private theorem sendRest_ok {rest : Bytes} {answers : List WriteAnswer}
    (ok : (sendRest rest answers).1 = 0) : (sendRest rest answers).2 = rest := by
  induction answers generalizing rest with
  | nil =>
    simp only [sendRest] at ok ⊢
    split_ifs at ok ⊢ with empty
    · exact empty.symm
    · contradiction
  | cons answer answers ih =>
    simp only [sendRest] at ok ⊢
    split_ifs at ok ⊢ with empty
    · exact empty.symm
    · cases result : write answer rest.length with
      | none => simp [result] at ok
      | some n =>
        simp only [result] at ok ⊢
        rw [ih ok, List.take_append_drop]

/-- A successful `send_frame` has put exactly the frame of its buffer on the connection. -/
theorem sendFrame_ok {buf : Bytes} {answers : List WriteAnswer}
    (ok : (sendFrame buf answers).1 = 0) : (sendFrame buf answers).2 = framing.frame buf := by
  cases answers with
  | nil => simp [sendFrame] at ok
  | cons answer answers =>
    simp only [sendFrame] at ok ⊢
    cases result : write answer 4 with
    | none => simp [result] at ok
    | some n =>
      simp only [result] at ok ⊢
      split_ifs at ok ⊢ with short
      · contradiction
      · rw [sendRest_ok ok]
        rfl

private theorem sendRest_part (rest : Bytes) (answers : List WriteAnswer) : (sendRest rest answers).2 <+: rest := by
  induction answers generalizing rest with
  | nil =>
    simp only [sendRest]
    split <;> exact List.nil_prefix
  | cons answer answers ih =>
    simp only [sendRest]
    split
    · exact List.nil_prefix
    · split
      · exact List.nil_prefix
      next n _ =>
        have whole : rest.take n ++ rest.drop n = rest := List.take_append_drop n rest
        rw [← whole]
        simpa only [whole] using (List.prefix_append_right_inj (rest.take n)).mpr (ih (rest.drop n))

/-- Whatever happens, what is on the connection is a first part of the frame. -/
theorem sendFrame_part (buf : Bytes) (answers : List WriteAnswer) :
    (sendFrame buf answers).2 <+: framing.frame buf := by
  cases answers with
  | nil => exact List.nil_prefix
  | cons answer answers =>
    simp only [sendFrame]
    split
    · exact List.nil_prefix
    · split
      · exact (List.take_prefix _ _).trans (List.prefix_append _ _)
      · exact (List.prefix_append_right_inj _).mpr (sendRest_part buf answers)

/-- The payload loop of `recv_frame`. -/
def recvRest (left : ℕ) (unread : Bytes) : List Answer → Option Bytes
  | [] => if left = 0 then some [] else none
  | answer :: answers =>
    if left = 0 then some []
    else match Posix.read answer unread left with
      | .data bytes =>
        (recvRest (left - bytes.length) (unread.drop bytes.length) answers).map fun rest => bytes ++ rest
      | _ => none

theorem recvRest_some {left : ℕ} {unread bytes : Bytes} {answers : List Answer}
    (received : recvRest left unread answers = some bytes) : bytes = unread.take left := by
  induction answers generalizing left unread bytes with
  | nil =>
    rw [recvRest] at received
    split_ifs at received with none
    cases received
    rw [none, List.take_zero]
  | cons answer answers ih =>
    rw [recvRest] at received
    split_ifs at received with none
    · cases received
      rw [none, List.take_zero]
    · split at received
      next data result =>
        obtain ⟨rest, later, rfl⟩ := Option.map_eq_some_iff.mp received
        obtain ⟨-, fits, whole⟩ := read_data result
        rw [ih later]
        conv_rhs => rw [whole, List.take_append, List.take_of_length_le fits]
      next => cases received

/-- Enough `read()` results that are not empty carry the whole payload. -/
theorem recvRest_ready {left : ℕ} {unread : Bytes} {sizes : List ℕ} (there : left ≤ unread.length)
    (enough : left ≤ sizes.length) : recvRest left unread (sizes.map .ready) = some (unread.take left) := by
  induction sizes generalizing left unread with
  | nil =>
    have none : left = 0 := Nat.le_zero.mp enough
    rw [List.map_nil, recvRest, if_pos none, none, List.take_zero]
  | cons size sizes ih =>
    rw [List.map_cons, recvRest]
    by_cases none : left = 0
    · rw [if_pos none, none, List.take_zero]
    · have unreadYet : unread ≠ [] := List.length_pos_iff.mp (by omega)
      obtain ⟨data, result⟩ := read_ready size unreadYet (Nat.pos_of_ne_zero none)
      obtain ⟨nonempty, fits, whole⟩ := read_data result
      rw [List.length_cons] at enough
      have rest : recvRest (left - data.length) (unread.drop data.length) (sizes.map .ready) =
          some ((unread.drop data.length).take (left - data.length)) :=
        ih (by rw [List.length_drop]; omega) (by omega)
      rw [if_neg none, result]
      dsimp only
      rw [rest, Option.map_some]
      conv_rhs => rw [whole, List.take_append, List.take_of_length_le fits]

/-- `recv_frame`: its return value and the string it leaves in the buffer. The sum `len+1` is taken in
32 bits. -/
def recvFrame (buflen : ℕ) (unread : Bytes) : List Answer → ℤ × Bytes
  | [] => (-1, [])
  | answer :: answers =>
    match Posix.read answer unread 4 with
    | .data header =>
      if header.length ≠ 4 then (-1, [])
      else
        let len := ntohl (loadU32 header)
        if buflen < (len + 1) % 2 ^ 32 then (-2, [])
        else match recvRest len (unread.drop 4) answers with
          | none => (-1, [])
          | some bytes => (if len < 2 ^ 31 then (len : ℤ) else len - 2 ^ 32, bytes)
    | _ => (-1, [])

/-- The payload loop as the caller's buffer sees it: whether `off` reaches `len`, and every byte that a
`read()` has stored until then. -/
def recvRestStores (off len : ℕ) (unread : Bytes) : List Answer → Bool × List Store
  | [] => (decide (len ≤ off), [])
  | answer :: answers =>
    if len ≤ off then (true, [])
    else match Posix.read answer unread (len - off) with
      | .data bytes =>
        let (whole, stores) := recvRestStores (off + bytes.length) len (unread.drop bytes.length) answers
        (whole, storesAt off bytes ++ stores)
      | _ => (false, [])

/-- `recv_frame` as the caller's buffer sees it: its return value and every byte it stores. -/
def recvFrameStores (buflen : ℕ) (unread : Bytes) : List Answer → ℤ × List Store
  | [] => (-1, [])
  | answer :: answers =>
    match Posix.read answer unread 4 with
    | .data header =>
      if header.length ≠ 4 then (-1, [])
      else
        let len := ntohl (loadU32 header)
        if buflen < (len + 1) % 2 ^ 32 then (-2, [])
        else
          let (whole, stores) := recvRestStores 0 len (unread.drop 4) answers
          if whole then (if len < 2 ^ 31 then (len : ℤ) else len - 2 ^ 32, stores ++ [⟨len, 0⟩])
          else (-1, stores)
    | _ => (-1, [])

/-- The loop that stores is the loop that collects. -/
theorem recvRestStores_eq {off len : ℕ} (started : off ≤ len) (unread : Bytes) (answers : List Answer) :
    match recvRest (len - off) unread answers with
    | some bytes => bytes.length = len - off ∧ recvRestStores off len unread answers = (true, storesAt off bytes)
    | none => (recvRestStores off len unread answers).1 = false := by
  induction answers generalizing off unread with
  | nil =>
    rw [recvRest, recvRestStores]
    split
    next received =>
      split_ifs at received with none
      cases received
      exact ⟨none.symm, by rw [decide_eq_true (by omega : len ≤ off)]; rfl⟩
    next received =>
      split_ifs at received with none
      exact decide_eq_false (by omega)
  | cons answer answers ih =>
    rw [recvRest, recvRestStores]
    by_cases none : len - off = 0
    · rw [if_pos none, if_pos (by omega : len ≤ off)]
      exact ⟨none.symm, rfl⟩
    · rw [if_neg none, if_neg (by omega : ¬ len ≤ off)]
      cases result : Posix.read answer unread (len - off) with
      | data bytes =>
        obtain ⟨-, fits, -⟩ := read_data result
        have later := ih (by omega : off + bytes.length ≤ len) (unread.drop bytes.length)
        rw [Nat.sub_add_eq] at later
        dsimp only
        cases received : recvRest (len - off - bytes.length) (unread.drop bytes.length) answers with
        | none => rw [received] at later; exact later
        | some rest =>
          rw [received] at later
          obtain ⟨count, stored⟩ := later
          simp only [Option.map_some, stored]
          refine ⟨by rw [List.length_append]; omega, ?_⟩
          rw [storesAt_append]
      | eof => rfl
      | again => rfl
      | error => rfl

/-- Stored bytes of the loop lie between where it started and the length it was given. -/
theorem index_of_mem_recvRestStores {off len : ℕ} {unread : Bytes} {answers : List Answer} {store : Store}
    (member : store ∈ (recvRestStores off len unread answers).2) : store.index < len := by
  induction answers generalizing off unread with
  | nil => cases member
  | cons answer answers ih =>
    rw [recvRestStores] at member
    split_ifs at member with ended
    · cases member
    · split at member
      next bytes result =>
        obtain ⟨-, fits, -⟩ := read_data result
        rcases List.mem_append.mp member with now | later
        · have := index_of_mem_storesAt now
          omega
        · exact ih later
      next => cases member

/-- The length in the header that the first `read()` has delivered whole. -/
def headerLength (unread : Bytes) : List Answer → Option ℕ
  | [] => none
  | answer :: _ =>
    match Posix.read answer unread 4 with
    | .data header => if header.length ≠ 4 then none else some (ntohl (loadU32 header))
    | _ => none

/-- `recv_frame` by the header it reads. -/
theorem recvFrame_eq (buflen : ℕ) (unread : Bytes) (answers : List Answer) :
    recvFrame buflen unread answers =
      match headerLength unread answers with
      | none => (-1, [])
      | some len =>
        if buflen < (len + 1) % 2 ^ 32 then (-2, [])
        else match recvRest len (unread.drop 4) answers.tail with
          | none => (-1, [])
          | some bytes => (if len < 2 ^ 31 then (len : ℤ) else len - 2 ^ 32, bytes) := by
  cases answers with
  | nil => rfl
  | cons answer answers =>
    rw [recvFrame, headerLength]
    cases Posix.read answer unread 4 with
    | data header =>
      by_cases short : header.length ≠ 4
      · simp only [if_pos short]
      · simp only [if_neg short, List.tail_cons]
    | eof => rfl
    | again => rfl
    | error => rfl

theorem recvFrameStores_eq (buflen : ℕ) (unread : Bytes) (answers : List Answer) :
    recvFrameStores buflen unread answers =
      match headerLength unread answers with
      | none => (-1, [])
      | some len =>
        if buflen < (len + 1) % 2 ^ 32 then (-2, [])
        else
          let (whole, stores) := recvRestStores 0 len (unread.drop 4) answers.tail
          if whole then (if len < 2 ^ 31 then (len : ℤ) else len - 2 ^ 32, stores ++ [⟨len, 0⟩])
          else (-1, stores) := by
  cases answers with
  | nil => rfl
  | cons answer answers =>
    rw [recvFrameStores, headerLength]
    cases Posix.read answer unread 4 with
    | data header =>
      by_cases short : header.length ≠ 4
      · simp only [if_pos short]
      · simp only [if_neg short, List.tail_cons]
        rfl
    | eof => rfl
    | again => rfl
    | error => rfl

/-- Both views of `recv_frame` return the same; on success its stores are the string and the NUL after it. -/
theorem recvFrameStores_recvFrame (buflen : ℕ) (unread : Bytes) (answers : List Answer) :
    (recvFrameStores buflen unread answers).1 = (recvFrame buflen unread answers).1 ∧
      (0 ≤ (recvFrame buflen unread answers).1 → (recvFrameStores buflen unread answers).2 =
        storesAt 0 ((recvFrame buflen unread answers).2 ++ [0])) := by
  rw [recvFrame_eq, recvFrameStores_eq]
  cases headerLength unread answers with
  | none => exact ⟨rfl, fun success => absurd success (by decide : ¬ (0 : ℤ) ≤ -1)⟩
  | some len =>
    by_cases refused : buflen < (len + 1) % 2 ^ 32
    · simp only [if_pos refused, true_and]
      exact fun success => absurd success (by decide : ¬ (0 : ℤ) ≤ -2)
    · simp only [if_neg refused]
      have same := recvRestStores_eq (Nat.zero_le len) (unread.drop 4) answers.tail
      rw [Nat.sub_zero] at same
      cases received : recvRest len (unread.drop 4) answers.tail with
      | none =>
        rw [received] at same
        simp only [same, Bool.false_eq_true, if_false, true_and]
        exact fun success => absurd success (by decide : ¬ (0 : ℤ) ≤ -1)
      | some bytes =>
        rw [received] at same
        obtain ⟨count, stored⟩ := same
        simp only [stored, if_true, true_and]
        intro _
        rw [storesAt_append, Nat.zero_add, count]
        rfl

/-- The other end of the connections: what it makes of the bytes of one connection, and the bytes it
answers with; `ε` is what happens to it meanwhile. -/
structure Endpoint (σ ε : Type*) where
  serve : σ → Bytes → ε → σ × Bytes

/-- One round of the retry loop, as the network and the other end let it go. -/
structure Attempt (ε : Type*) where
  connected : Bool
  writes : List WriteAnswer
  serving : ε
  reads : List Answer

section Client

variable {σ ε : Type*} (peer : Endpoint σ ε)

def tryOnce (jsonReq : Bytes) (respsz : ℕ) (a : Attempt ε) (s : σ) : σ × ℤ × Bytes :=
  if a.connected then
    let (rc, sent) := sendFrame jsonReq a.writes
    let (s, reply) := peer.serve s sent a.serving
    if rc = 0 then (s, recvFrame respsz reply a.reads) else (s, -1, [])
  else (s, -1, [])

/-- The loop, with the attempts it has left. -/
def tryAll (jsonReq : Bytes) (respsz : ℕ) : List (Attempt ε) → σ → σ × ℤ × Bytes
  | [], s => (s, -1, [])
  | a :: attempts, s =>
    let (s, n, resp) := tryOnce peer jsonReq respsz a s
    if 0 < n then (s, 0, resp) else tryAll jsonReq respsz attempts s

/-- `vts_cmd_with_retry`: five attempts; one for which there is no entry does not connect. -/
def vtsCmdWithRetry (jsonReq : Bytes) (respsz : ℕ) (attempts : List (Attempt ε)) (s : σ) : σ × ℤ × Bytes :=
  tryAll peer jsonReq respsz (attempts.take 5) s

variable {peer}

/-- An attempt that gets its whole frame out has the result of `recv_frame`. -/
theorem tryOnce_of_sent {jsonReq sent reply : Bytes} {respsz : ℕ} {a : Attempt ε} {s t : σ}
    (connected : a.connected = true) (wrote : sendFrame jsonReq a.writes = (0, sent))
    (served : peer.serve s sent a.serving = (t, reply)) :
    tryOnce peer jsonReq respsz a s = (t, recvFrame respsz reply a.reads) := by
  rw [tryOnce, if_pos connected, wrote]
  simp only [served, if_true]

/-- The first attempt with an answer is the last one. -/
theorem vtsCmdWithRetry_of_success {jsonReq : Bytes} {respsz : ℕ} {a : Attempt ε} {s : σ}
    (success : 0 < (tryOnce peer jsonReq respsz a s).2.1) (attempts : List (Attempt ε)) :
    (vtsCmdWithRetry peer jsonReq respsz (a :: attempts) s).2.1 = 0 := by
  rw [vtsCmdWithRetry, List.take_succ_cons, tryAll]
  dsimp only
  rw [if_pos success]

/-- What the other end keeps on every first part of the frame, the whole command keeps. -/
theorem vtsCmdWithRetry_invariant {jsonReq : Bytes} (holds : σ → Prop)
    (kept : ∀ s sent e, holds s → sent <+: framing.frame jsonReq → holds (peer.serve s sent e).1)
    {respsz : ℕ} {attempts : List (Attempt ε)} {s : σ} (initial : holds s) :
    holds (vtsCmdWithRetry peer jsonReq respsz attempts s).1 := by
  have once (a : Attempt ε) (s : σ) (before : holds s) : holds (tryOnce peer jsonReq respsz a s).1 := by
    simp only [tryOnce]
    split
    · split
      all_goals exact kept s _ a.serving before (sendFrame_part jsonReq a.writes)
    · exact before
  unfold vtsCmdWithRetry
  generalize attempts.take 5 = left
  induction left generalizing s with
  | nil => exact initial
  | cons a left ih =>
    simp only [tryAll]
    split
    · exact once a s initial
    · exact ih (once a s initial)

end Client

/-- `room_state_t` -/
inductive RoomState
  | started
  | stopped
deriving DecidableEq, Repr

def roomStateStr : RoomState → Bytes
  | .started => literal "started"
  | .stopped => literal "stopped"

/-- `room_t` -/
structure Room where
  id : Bytes
  type : Bytes
  state : RoomState
deriving DecidableEq, Repr

/-- One command of the client: the clock it reads, in milliseconds, and its attempts. -/
structure Call (ε : Type*) where
  nowMs : ℕ
  attempts : List (Attempt ε)

/-- `gen_req_id`, in 64 bits. -/
def genReqId (nowMs : ℕ) : ℕ := nowMs % 2 ^ 64

/-- The text `vts_apply_room` formats. -/
def applyText (reqId : ℕ) (r : Room) : Bytes :=
  literal "\x7b\"type\":\"room.apply\",\"req_id\":" ++ decimal reqId ++ literal ",\"room\":\x7b\"id\":\"" ++ r.id ++
    literal "\",\"type\":\"" ++ r.type ++ literal "\",\"state\":\"" ++ roomStateStr r.state ++ literal "\"\x7d\x7d"

/-- The text of the commands that only name a room. -/
def namedText (command : Bytes) (reqId : ℕ) (id : Bytes) : Bytes :=
  literal "\x7b\"type\":\"" ++ command ++ literal "\",\"req_id\":" ++ decimal reqId ++ literal ",\"id\":\"" ++ id ++
    literal "\"\x7d"

def deleteText (reqId : ℕ) (id : Bytes) : Bytes := namedText (literal "room.delete") reqId id

def showText (reqId : ℕ) (id : Bytes) : Bytes := namedText (literal "room.show") reqId id

section Commands

variable {σ ε : Type*} (peer : Endpoint σ ε)

/-- The buffer `req` of `vts_apply_room`. -/
def applyReq (nowMs : ℕ) (r : Room) : Bytes := (snprintf 512 (applyText (genReqId nowMs) r)).1

/-- The buffer `req` of `vts_delete_room`. -/
def deleteReq (nowMs : ℕ) (id : Bytes) : Bytes := (snprintf 256 (deleteText (genReqId nowMs) id)).1

def vtsApplyRoom (r : Room) (call : Call ε) (s : σ) : σ × ℤ :=
  let cmd := vtsCmdWithRetry peer (applyReq call.nowMs r) 512 call.attempts s
  (cmd.1, cmd.2.1)

def vtsDeleteRoom (id : Bytes) (call : Call ε) (s : σ) : σ × ℤ :=
  let cmd := vtsCmdWithRetry peer (deleteReq call.nowMs id) 512 call.attempts s
  (cmd.1, cmd.2.1)

/-- The answer stays in the caller's buffer. -/
def vtsShowRoom (id : Bytes) (buflen : ℕ) (call : Call ε) (s : σ) : σ × ℤ × Bytes :=
  vtsCmdWithRetry peer (snprintf 256 (showText (genReqId call.nowMs) id)).1 buflen call.attempts s

/-- The loop of `apply_from_xml` from room `i` on. -/
def applyRooms (calls : ℕ → Call ε) : ℕ → List Room → σ → σ × ℤ
  | _, [], s => (s, 0)
  | i, r :: rooms, s =>
    let cmd := vtsApplyRoom peer r (calls i) s
    if cmd.2 ≠ 0 then (cmd.1, 2) else applyRooms calls (i + 1) rooms cmd.1

/-- `apply_from_xml` after `loc_load_rooms_xml`, which gives a list or fails. Its own store of the rooms
is discarded at the end. -/
def applyFromXml (loaded : Option (List Room)) (calls : ℕ → Call ε) (s : σ) : σ × ℤ :=
  match loaded with
  | none => (s, 1)
  | some rooms => applyRooms peer calls 0 rooms s

variable {peer}

theorem vtsApplyRoom_snd (r : Room) (call : Call ε) (s : σ) : (vtsApplyRoom peer r call s).2 =
    (vtsCmdWithRetry peer (applyReq call.nowMs r) 512 call.attempts s).2.1 := rfl

theorem vtsDeleteRoom_snd (id : Bytes) (call : Call ε) (s : σ) : (vtsDeleteRoom peer id call s).2 =
    (vtsCmdWithRetry peer (deleteReq call.nowMs id) 512 call.attempts s).2.1 := rfl

/-- A room that was applied leaves the loop to the next one. -/
theorem applyRooms_cons (calls : ℕ → Call ε) (i : ℕ) {r : Room} (rooms : List Room) {s : σ}
    (success : (vtsApplyRoom peer r (calls i) s).2 = 0) :
    applyRooms peer calls i (r :: rooms) s =
      applyRooms peer calls (i + 1) rooms (vtsApplyRoom peer r (calls i) s).1 := by
  rw [applyRooms]
  exact if_neg (not_not_intro success)

end Commands

end ProcessMonitor.Model.LocGen
