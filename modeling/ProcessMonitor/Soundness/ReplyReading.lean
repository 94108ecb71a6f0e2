import ProcessMonitor.Model.Cli.SystemMonitor
import ProcessMonitor.Model.Vts.ReqHandler

/-! # How the two clients read a reply

Both clients take the four bytes of the header from a single `read()` and then loop for the payload. So
the cutting of the stream matters exactly at its start. The guard that keeps `recv_frame` inside its
buffer adds one to the length in 32 bits; the stores it makes are followed one by one, so that what a
length of all ones does to the buffer is visible.
-/

namespace ProcessMonitor.Soundness.ReplyReading

open Machine Machine.Posix Model.Vts Model.LocGen

/-! ## The buffer of `recv_frame` -/

/-- Every byte goes inside the buffer, and a length that does not fit is refused before the first one. -/
def Contained (buflen : ℕ) (unread : Bytes) (answers : List Answer) : Prop :=
  (∀ store ∈ (recvFrameStores buflen unread answers).2, store.index < buflen) ∧
    ∀ len, headerLength unread answers = some len → buflen < len + 1 →
      recvFrameStores buflen unread answers = (-2, [])

theorem headerLength_lt {unread : Bytes} {answers : List Answer} {len : ℕ}
    (read : headerLength unread answers = some len) : len < 2 ^ 32 := by
  cases answers with
  | nil => cases read
  | cons answer answers =>
    rw [headerLength] at read
    split at read
    · split_ifs at read
      cases read
      exact ntohl_lt _
    · cases read

theorem recvFrameStores_none {buflen : ℕ} {unread : Bytes} {answers : List Answer}
    (unknown : headerLength unread answers = none) : recvFrameStores buflen unread answers = (-1, []) := by
  rw [recvFrameStores_eq, unknown]

theorem recvFrameStores_refused {buflen len : ℕ} {unread : Bytes} {answers : List Answer}
    (read : headerLength unread answers = some len) (refused : buflen < (len + 1) % 2 ^ 32) :
    recvFrameStores buflen unread answers = (-2, []) := by
  rw [recvFrameStores_eq, read]
  exact if_pos refused

/-- Past the guard nothing is stored behind the place of the NUL. -/
theorem index_of_accepted {buflen len : ℕ} {unread : Bytes} {answers : List Answer}
    (read : headerLength unread answers = some len) (accepted : (len + 1) % 2 ^ 32 ≤ buflen) {store : Store}
    (member : store ∈ (recvFrameStores buflen unread answers).2) : store.index ≤ len := by
  rw [recvFrameStores_eq, read] at member
  simp only [if_neg (Nat.not_lt.mpr accepted)] at member
  split at member
  · rcases List.mem_append.mp member with payload | last
    · exact (index_of_mem_recvRestStores payload).le
    · rw [List.mem_singleton.mp last]
  · exact (index_of_mem_recvRestStores member).le

/-- A length of all ones passes every guard; whatever then comes, the call returns `-1`. -/
theorem recvFrameStores_ones (buflen : ℕ) {unread : Bytes} {answers : List Answer}
    (read : headerLength unread answers = some (2 ^ 32 - 1)) : (recvFrameStores buflen unread answers).1 = -1 := by
  have accepted : ¬ buflen < (2 ^ 32 - 1 + 1) % 2 ^ 32 := by omega
  rw [recvFrameStores_eq, read]
  simp only [if_neg accepted]
  split
  · rw [if_neg (by omega)]
    omega
  · rfl

theorem recvFrame_contained_iff (buflen : ℕ) (unread : Bytes) (answers : List Answer) :
    Contained buflen unread answers ↔
      (headerLength unread answers = some (2 ^ 32 - 1) → 2 ^ 32 ≤ buflen) := by
  constructor
  · intro contained read
    by_contra small
    -- the length does not fit, so it should have been refused, and it was not
    have refused := congrArg Prod.fst (contained.2 _ read (by omega))
    rw [recvFrameStores_ones buflen read] at refused
    exact absurd refused (by decide)
  · intro large
    cases read : headerLength unread answers with
    | none =>
      rw [Contained, recvFrameStores_none read]
      exact ⟨fun store member => absurd member List.not_mem_nil, fun len found => by rw [read] at found; cases found⟩
    | some len =>
      by_cases refused : buflen < (len + 1) % 2 ^ 32
      · rw [Contained, recvFrameStores_refused read refused]
        exact ⟨fun store member => absurd member List.not_mem_nil, fun _ _ _ => rfl⟩
      · have fits : len < buflen := by
          have small := headerLength_lt read
          by_cases ones : len = 2 ^ 32 - 1
          · have := large (by rw [read, ones])
            omega
          · omega
        refine ⟨fun store member => ?_, fun other found long => ?_⟩
        · have := index_of_accepted read (Nat.not_lt.mp refused) member
          omega
        · rw [read] at found
          cases found
          omega

/-- A header of four bytes `ff` passes the guard of a buffer of four bytes, and the fifth byte of the
payload is stored behind it. -/
theorem length_of_ones_overruns :
    ¬ Contained 4 (List.replicate 4 255 ++ List.replicate 5 65) [.ready 3, .ready 4] := by
  intro contained
  have stored : (⟨4, 65⟩ : Store) ∈
      (recvFrameStores 4 (List.replicate 4 255 ++ List.replicate 5 65) [.ready 3, .ready 4]).2 := by
    decide +kernel
  exact absurd (contained.1 _ stored) (by decide)

/-! ## The cutting of the stream -/

/-- A reply as `send_length_prefixed` puts it on the connection. -/
def framedReply (body : Bytes) : Bytes := (sendLengthPrefixed body body.length).flatten

theorem framedReply_eq (body : Bytes) : framedReply body = storeU32 (htonl body.length) ++ body := by
  simp only [framedReply, sendLengthPrefixed, List.take_length, List.flatten_cons, List.flatten_nil, List.append_nil]

theorem framedReply_drop (body : Bytes) : (framedReply body).drop 4 = body := by
  rw [framedReply_eq]
  rfl

/-- The header is known exactly if the first `read()` delivers all of it. -/
theorem headerLength_framedReply (body : Bytes) (first : ℕ) (answers : List Answer) :
    headerLength (framedReply body) (.ready first :: answers) =
      if 4 ≤ first + 1 then some (body.length % 2 ^ 32) else none := by
  rw [framedReply_eq]
  have long : 4 ≤ (storeU32 (htonl body.length) ++ body).length := by
    rw [List.length_append]
    exact Nat.le_add_right 4 body.length
  rw [headerLength]
  by_cases whole : 4 ≤ first + 1
  · rw [if_pos whole, read_ready_all (by decide) whole long]
    have header : (storeU32 (htonl body.length) ++ body).take 4 = storeU32 (htonl body.length) := rfl
    rw [header, ← ntohl_loadU32_storeU32_htonl_mod]
    rfl
  · have unreadYet : storeU32 (htonl body.length) ++ body ≠ [] := List.length_pos_iff.mp (by omega)
    obtain ⟨data, result⟩ := read_ready first unreadYet (by decide : 0 < 4)
    have offered := read_ready_length result
    rw [if_neg whole, result]
    exact if_pos (by omega)

/-- `int` is never as large as `2 ^ 31`. -/
theorem recvFrame_lt (buflen : ℕ) (unread : Bytes) (answers : List Answer) :
    (recvFrame buflen unread answers).1 < 2 ^ 31 := by
  rw [recvFrame_eq]
  cases read : headerLength unread answers with
  | none => exact (by decide : (-1 : ℤ) < 2 ^ 31)
  | some len =>
    have small := headerLength_lt read
    dsimp only
    split
    · decide
    · split
      · decide
      · dsimp only
        split <;> omega

theorem recvFrame_framedReply {body : Bytes} {buflen first : ℕ} {sizes : List ℕ} (fits : body.length < buflen)
    (short : body.length < 2 ^ 31) (enough : body.length ≤ sizes.length) (whole : 4 ≤ first + 1) :
    recvFrame buflen (framedReply body) ((first :: sizes).map .ready) = ((body.length : ℤ), body) := by
  have length : body.length % 2 ^ 32 = body.length := Nat.mod_eq_of_lt (by omega)
  have guarded : ¬ buflen < (body.length + 1) % 2 ^ 32 := by omega
  rw [recvFrame_eq, List.map_cons, headerLength_framedReply, if_pos whole, length, framedReply_drop, List.tail_cons]
  simp only [if_neg guarded, recvRest_ready le_rfl enough, List.take_length, if_pos short]

theorem recvFrame_split {body : Bytes} {buflen first : ℕ} {answers : List Answer} (split : ¬ 4 ≤ first + 1) :
    recvFrame buflen (framedReply body) (.ready first :: answers) = (-1, []) := by
  rw [recvFrame_eq, headerLength_framedReply, if_neg split]

/-- The reply that `send_req` reads, by the length that its first `read()` tells. -/
theorem readReply_framedReply {body : Bytes} {rspsz first : ℕ} {sizes : List ℕ} (fits : body.length < rspsz)
    (enough : body.length ≤ sizes.length) :
    Model.Cli.readReply rspsz (framedReply body) ((first :: sizes).map .ready) =
      if 4 ≤ first + 1 then some (body.take (body.length % 2 ^ 32)) else none := by
  have part : body.length % 2 ^ 32 ≤ body.length := Nat.mod_le _ _
  rw [Model.Cli.readReply_eq, List.map_cons, headerLength_framedReply, framedReply_drop, List.tail_cons]
  by_cases whole : 4 ≤ first + 1
  · rw [if_pos whole, if_pos whole, Option.bind_some, if_neg (by omega), recvRest_ready part (by omega)]
  · rw [if_neg whole, if_neg whole, Option.bind_none]

/-- An attempt of `send_req` that connects, writes its request whole, and is answered with `reply`. -/
structure Answered {σ ε : Type*} (peer : Endpoint σ ε) (payload : Bytes) (s : σ) (reply : Bytes)
    (a : Model.Cli.Attempt ε) : Prop where
  connected : a.connected = true
  written : (Model.Cli.writeRequest payload a.first a.second).1 = true
  served : (peer.serve s (framing.frame payload) a.serving).2 = reply

theorem Answered.tryOnce_eq {σ ε : Type*} {peer : Endpoint σ ε} {payload reply body : Bytes} {s : σ}
    {a : Model.Cli.Attempt ε} (answered : Answered peer payload s reply a) (rspsz : ℕ) :
    (Model.Cli.tryOnce peer payload rspsz a s).2 = (Model.Cli.eOk, body) ↔
      Model.Cli.readReply rspsz reply a.reads = some body := by
  have sent := Model.Cli.writeRequest_ok answered.written
  rw [Model.Cli.tryOnce, if_neg (by rw [answered.connected]; decide)]
  simp only [answered.written, sent, answered.served, Bool.true_eq_false, if_false]
  cases Model.Cli.readReply rspsz reply a.reads with
  | none => simp [Model.Cli.eTimeout, Model.Cli.eOk]
  | some resp => simp

section Chunks

variable {σ ε : Type*} {peer : Endpoint σ ε}

/-- For replies that fit, and as many `read()` results that are not empty as can be needed: each client
gets the body exactly if its first `read()` has all of the header, up to the largest length that its return
value or the header can tell. -/
theorem replies_decoded_iff {body : Bytes} (someBody : body ≠ []) {buflen rspsz first : ℕ} {sizes : List ℕ}
    (fitsFrame : body.length < buflen) (fitsReply : body.length < rspsz) (enough : body.length ≤ sizes.length)
    {payload : Bytes} {s : σ} {a : Model.Cli.Attempt ε} (answered : Answered peer payload s (framedReply body) a)
    (reads : a.reads = (first :: sizes).map .ready) :
    (recvFrame buflen (framedReply body) ((first :: sizes).map .ready) = ((body.length : ℤ), body) ↔
      4 ≤ first + 1 ∧ body.length < 2 ^ 31) ∧
    ((Model.Cli.tryOnce peer payload rspsz a s).2 = (Model.Cli.eOk, body) ↔
      4 ≤ first + 1 ∧ body.length < 2 ^ 32) := by
  have positive : 0 < body.length := List.length_pos_iff.mpr someBody
  constructor
  · constructor
    · intro decoded
      have bounded := recvFrame_lt buflen (framedReply body) ((first :: sizes).map .ready)
      rw [decoded] at bounded
      refine ⟨?_, by dsimp only at bounded; omega⟩
      by_contra split
      rw [List.map_cons, recvFrame_split split] at decoded
      have returned := congrArg Prod.fst decoded
      dsimp only at returned
      omega
    · intro ⟨whole, short⟩
      exact recvFrame_framedReply fitsFrame short enough whole
  · rw [answered.tryOnce_eq, reads, readReply_framedReply fitsReply enough]
    constructor
    · intro decoded
      split_ifs at decoded with whole
      have lengths := congrArg List.length (Option.some.inj decoded)
      rw [List.length_take] at lengths
      exact ⟨whole, by omega⟩
    · intro ⟨whole, short⟩
      rw [if_pos whole, Nat.mod_eq_of_lt short, List.take_length]

end Chunks

/-- A server that answers every request with one fixed reply. -/
def fixedEndpoint (reply : Bytes) : Endpoint Unit Unit := ⟨fun s _ _ => (s, reply)⟩

def okText : Bytes := literal "OK"

/-- The request goes out whole, and the reply comes in pieces of the given sizes. -/
def piecewise (sizes : List ℕ) : Model.Cli.Attempt Unit := ⟨true, .accept 3, .accept 99, (), sizes.map .ready⟩

theorem replies_decoded_iff_whole :
    recvFrame 512 (framedReply okText) ([3, 0, 0].map .ready) = (2, okText) ∧
      (Model.Cli.tryOnce (fixedEndpoint (framedReply okText)) okText 1024 (piecewise [3, 0, 0]) ()).2 =
        (Model.Cli.eOk, okText) := by
  have answered : Answered (fixedEndpoint (framedReply okText)) okText () (framedReply okText) (piecewise [3, 0, 0]) :=
    ⟨rfl, rfl, rfl⟩
  have decoded := replies_decoded_iff (by decide) (by decide : okText.length < 512)
    (by decide : okText.length < 1024) (by decide : okText.length ≤ [0, 0].length) answered rfl
  exact ⟨decoded.1.mpr (by decide), decoded.2.mpr (by decide)⟩

/-- The same reply in pieces of two bytes is lost on both clients. -/
theorem split_header_lost :
    recvFrame 512 (framedReply okText) ([1, 1, 1].map .ready) = (-1, []) ∧
      (Model.Cli.tryOnce (fixedEndpoint (framedReply okText)) okText 1024 (piecewise [1, 1, 1]) ()).2 =
        (Model.Cli.eTimeout, []) := by
  decide +kernel

end ProcessMonitor.Soundness.ReplyReading
