import Mathlib.Logic.Function.Iterate
import ProcessMonitor.Soundness.CliEncoding
import ProcessMonitor.Soundness.FrameDecoding
import ProcessMonitor.Soundness.ReplyText

/-! # Repeated CLI commands

`send_req` sends the same payload again when the reply does not come, and the server executes every
copy it gets. A second execution changes nothing: the room is there or it is gone. Its reply is
another one, though, unless the first execution changed nothing either. Hence the registry ends as
after one execution, and the reply is that of one execution exactly when the copy it answers was the
first to be executed or the command had nothing to change.
-/

namespace ProcessMonitor.Soundness.CliRetry

open Machine Machine.Posix Model.Vts Model.Cli RoomService CliEncoding ReplyText
open Model.LocGen (Endpoint recvRest_some)
open FrameDecoding (pushed_of_part)

/-! ## A server that may be late -/

/-- Works processed one after another, with the bytes of those replies that go to the connection. -/
def processSome : List (Work × Bool) → Shared → Shared × Bytes
  | [], s => (s, [])
  | (work, here) :: works, s =>
    let (s, r) := (processOne work.payload).exec s
    let (s, rest) := processSome works s
    (s, (if here then r.segments.flatten else []) ++ rest)

/-- The server with the requests it has queued and not executed yet; `executed` counts those it has. -/
structure Backlog where
  shared : Shared
  waiting : List Work
  executed : ℕ

/-- What happens at the server during one attempt: how it meets the connection, the queued requests it
executes first, and whether it executes the new one before the client gives up. The reply to a queued
request is lost with its connection, or goes to this one, if this one has got the same descriptor. -/
structure Turn where
  fd : ℤ
  events : List Readiness
  late : List Bool
  prompt : Bool

def pushedBy (sent : Bytes) (turn : Turn) : List Work := (serveConn (connNew turn.fd) sent turn.events).pushed

/-- The requests that are executed during the attempt. -/
def ready (b : Backlog) (sent : Bytes) (turn : Turn) : List (Work × Bool) :=
  b.waiting.zip turn.late ++ if turn.prompt then (pushedBy sent turn).map fun work => (work, true) else []

def lateEndpoint : Endpoint Backlog Turn where
  serve b sent turn :=
    let (s, replies) := processSome (ready b sent turn) b.shared
    (⟨s, b.waiting.drop turn.late.length ++ (if turn.prompt then [] else pushedBy sent turn),
      b.executed + (ready b sent turn).length⟩, replies)

/-- The state once everything queued has been executed, with no connection left for the replies. -/
def Backlog.settled (b : Backlog) : Shared := (processSome (b.waiting.map fun work => (work, false)) b.shared).1

/-- How many copies of the request the server has executed before the one whose reply is returned. -/
def executedBefore (payload : Bytes) : List (Attempt Turn) → Backlog → ℕ
  | [], b => b.executed
  | a :: attempts, b =>
    if (tryOnce lateEndpoint payload 1024 a b).2.1 = eOk then
      b.executed + (ready b (writeRequest payload a.first a.second).2 a.serving).findIdx Prod.snd
    else executedBefore payload attempts (tryOnce lateEndpoint payload 1024 a b).1

/-! ## Copies of one payload -/

/-- The state after `n` executions. -/
def after (payload : Bytes) (s : Shared) (n : ℕ) : Shared := (fun t => ((processOne payload).exec t).1)^[n] s

theorem after_add (payload : Bytes) (s : Shared) (m n : ℕ) :
    after payload s (m + n) = after payload (after payload s m) n := by
  rw [Nat.add_comm]
  exact Function.iterate_add_apply _ n m s

def Copies (payload : Bytes) (works : List Work) : Prop := ∀ work ∈ works, work.payload = payload

theorem processSome_copies {payload : Bytes} {works : List (Work × Bool)}
    (copies : ∀ work ∈ works, work.1.payload = payload) (s : Shared) :
    (processSome works s).1 = after payload s works.length := by
  induction works generalizing s with
  | nil => rfl
  | cons work works ih =>
    rw [processSome, copies work List.mem_cons_self]
    exact ih (fun other member => copies other (List.mem_cons_of_mem work member)) _

/-- The first reply on the connection is that of the first work that is answered there. -/
theorem processSome_replies {payload : Bytes} {works : List (Work × Bool)}
    (copies : ∀ work ∈ works, work.1.payload = payload) (s : Shared) :
    (processSome works s).2 = [] ∨ works ≠ [] ∧ ∃ more, (processSome works s).2 =
      framing.frame ((processOne payload).exec (after payload s (works.findIdx Prod.snd))).2.text ++ more := by
  induction works generalizing s with
  | nil => exact .inl rfl
  | cons work works ih =>
    obtain ⟨work, here⟩ := work
    have same : work.payload = payload := copies _ List.mem_cons_self
    simp only [processSome, same]
    cases here with
    | true =>
      refine .inr ⟨List.cons_ne_nil _ _, (processSome works ((processOne payload).exec s).1).2, ?_⟩
      rw [if_pos rfl, segments_flatten ((processOne_ends payload).exec s)]
      rfl
    | false =>
      rw [if_neg Bool.false_ne_true, List.nil_append, List.findIdx_cons]
      rcases ih (fun other member => copies other (List.mem_cons_of_mem _ member)) _ with silent | ⟨-, more, first⟩
      · exact .inl silent
      · exact .inr ⟨List.cons_ne_nil _ _, more, first⟩

/-- What holds of the server between two attempts. -/
structure Repeats (payload : Bytes) (s : Shared) (b : Backlog) : Prop where
  copies : Copies payload b.waiting
  shared : b.shared = after payload s b.executed

theorem Repeats.settled {payload : Bytes} {s : Shared} {b : Backlog} (repeats : Repeats payload s b) :
    b.settled = after payload s (b.executed + b.waiting.length) := by
  have copies : ∀ work ∈ b.waiting.map fun work => (work, false), work.1.payload = payload := by
    intro work member
    obtain ⟨queued, among, rfl⟩ := List.mem_map.mp member
    exact repeats.copies queued among
  rw [Backlog.settled, processSome_copies copies, List.length_map, repeats.shared, after_add]

/-- The client gets the text of the first frame, or no reply. -/
theorem readReply_some {unread resp : Bytes} {reads : List Answer} (read : readReply 1024 unread reads = some resp) :
    unread ≠ [] ∧ ∀ r : Reply, Fits r → ∀ more, unread = framing.frame r.text ++ more → resp = r.text := by
  match reads with
  | [] => cases read
  | answer :: reads =>
    rw [readReply] at read
    split at read
    next header result =>
      obtain ⟨positive, -, whole⟩ := read_data result
      split_ifs at read with short
      rw [not_not] at short
      constructor
      · rintro rfl
        rw [List.drop_nil, List.append_nil] at whole
        rw [← whole] at positive
        exact Nat.lt_irrefl 0 positive
      · rintro r fits more rfl
        have bound : r.text.length ≤ 511 := by
          have size : r.bufferSize ≤ 512 := by
            cases r with
            | json => exact le_rfl
            | legacy => exact (by decide : 256 ≤ 512)
          rw [Fits] at fits
          omega
        have isHeader : header = storeU32 (htonl r.text.length) := by
          have first := congrArg (List.take 4) whole
          rw [List.take_left' short] at first
          exact first.symm
        have announced : ntohl (loadU32 header) = r.text.length := by
          rw [isHeader]
          exact ntohl_loadU32_storeU32_htonl (by omega)
        have rest : (framing.frame r.text ++ more).drop 4 = r.text ++ more := rfl
        rw [announced] at read
        dsimp only at read
        rw [if_neg (by omega), rest] at read
        rw [recvRest_some read, List.take_left]
    next => cases read

section Attempts

variable {payload : Bytes} {s : Shared} (admits : framing.Admits payload.length)

include admits

theorem ready_copies {b : Backlog} (repeats : Repeats payload s b) {sent : Bytes}
    (part : sent <+: framing.frame payload) (turn : Turn) :
    (∀ work ∈ ready b sent turn, work.1.payload = payload) ∧ Copies payload (pushedBy sent turn) := by
  have pushed := pushed_of_part admits part turn.fd turn.events
  have new : Copies payload (pushedBy sent turn) := fun work member =>
    List.mem_singleton.mp (pushed.subset (List.mem_map_of_mem member))
  refine ⟨?_, new⟩
  rintro ⟨work, here⟩ member
  rcases List.mem_append.mp member with queued | answered
  · exact repeats.copies work (List.of_mem_zip queued).1
  · split_ifs at answered
    · obtain ⟨own, among, same⟩ := List.mem_map.mp answered
      cases same
      exact new work among
    · cases answered

theorem serve_repeats {b : Backlog} (repeats : Repeats payload s b) {sent : Bytes}
    (part : sent <+: framing.frame payload) (turn : Turn) :
    Repeats payload s (lateEndpoint.serve b sent turn).1 := by
  obtain ⟨copies, new⟩ := ready_copies admits repeats part turn
  constructor
  · intro work member
    rcases List.mem_append.mp member with queued | pushed
    · exact repeats.copies work (List.mem_of_mem_drop queued)
    · split_ifs at pushed
      · cases pushed
      · exact new work pushed
  · exact (processSome_copies copies b.shared).trans (by rw [repeats.shared, ← after_add]; rfl)

/-- One attempt keeps this, and a reply it gets is the one of the copy that is answered first. -/
theorem tryOnce_repeats {b : Backlog} (repeats : Repeats payload s b) (a : Attempt Turn) :
    Repeats payload s (tryOnce lateEndpoint payload 1024 a b).1 ∧
      ((tryOnce lateEndpoint payload 1024 a b).2.1 = eOk →
        0 < (tryOnce lateEndpoint payload 1024 a b).1.executed ∧
        (tryOnce lateEndpoint payload 1024 a b).2.2 = ((processOne payload).exec (after payload s (b.executed +
          (ready b (writeRequest payload a.first a.second).2 a.serving).findIdx Prod.snd))).2.text) := by
  have part := writeRequest_part payload a.first a.second
  have kept := serve_repeats admits repeats part a.serving
  obtain ⟨copies, -⟩ := ready_copies admits repeats part a.serving
  have replies := processSome_replies copies b.shared
  simp only [tryOnce]
  split_ifs with disconnected failed
  · exact ⟨repeats, nofun⟩
  · exact ⟨kept, nofun⟩
  · split
    next => exact ⟨kept, nofun⟩
    next resp read =>
      obtain ⟨answered, text⟩ := readReply_some read
      refine ⟨kept, fun _ => ?_⟩
      rcases replies with silent | ⟨nonempty, more, first⟩
      · exact absurd silent answered
      · constructor
        · exact Nat.add_pos_right _ (List.length_pos_iff.mpr nonempty)
        · rw [after_add, ← repeats.shared]
          exact text _ ((processOne_ends payload).exec _) more first

/-- All attempts: some copy has been executed, and the reply is that of the copy it answers. -/
theorem tryAll_repeats {b : Backlog} (repeats : Repeats payload s b) (attempts : List (Attempt Turn)) {lastErr : ℤ}
    (failing : lastErr ≠ eOk) (returned : (tryAll lateEndpoint payload 1024 attempts lastErr b).2.1 = eOk) :
    Repeats payload s (tryAll lateEndpoint payload 1024 attempts lastErr b).1 ∧
      0 < (tryAll lateEndpoint payload 1024 attempts lastErr b).1.executed ∧
      (tryAll lateEndpoint payload 1024 attempts lastErr b).2.2 =
        ((processOne payload).exec (after payload s (executedBefore payload attempts b))).2.text := by
  induction attempts generalizing b lastErr with
  | nil => exact absurd returned failing
  | cons a attempts ih =>
    obtain ⟨kept, answered⟩ := tryOnce_repeats admits repeats a
    simp only [tryAll, executedBefore] at returned ⊢
    split_ifs at returned ⊢ with success
    · exact ⟨kept, answered success⟩
    · exact ih kept success returned

end Attempts

/-! ## A second execution -/

/-- The command finds nothing to change. -/
def Unchanging (S : RoomSet) : RoomRequest → Prop
  | .create name => name ∈ S.names ∨ S.names.card = maxRooms
  | .delete name => name ∉ S.names
  | .check _ | .describe _ | .malformed => True

/-- A second request of the same kind changes nothing. It is answered as the first one was if that
had nothing to change either, and otherwise with an error. -/
theorem serve_again (S : RoomSet) (request : RoomRequest) :
    ((S.serve request).1.serve request).1 = (S.serve request).1 ∧
      (Unchanging S request ∧ (S.serve request).1 = S ∨
        ¬ Unchanging S request ∧ ((S.serve request).1.serve request).2.text ≠ (S.serve request).2.text) := by
  cases request with
  | create name =>
    by_cases present : name ∈ S.names
    · have served : S.serve (.create name) = (S, .alreadyExists) := if_pos present
      simp only [served]
      exact ⟨trivial, .inl ⟨.inl present, trivial⟩⟩
    by_cases room : S.names.card < maxRooms
    · have served : S.serve (.create name) =
          (⟨insert name S.names, (Finset.card_insert_le _ _).trans room⟩, .ok) := by
        rw [RoomSet.serve, if_neg present, dif_pos room]
      rw [served]
      simp only [RoomSet.serve, Finset.mem_insert_self, if_true]
      refine ⟨trivial, .inr ⟨?_, by decide⟩⟩
      rintro (member | full)
      exacts [present member, room.ne full]
    · have served : S.serve (.create name) = (S, .internalError) := by
        rw [RoomSet.serve, if_neg present, dif_neg room]
      simp only [served]
      exact ⟨trivial, .inl ⟨.inr (Nat.le_antisymm S.bound (Nat.le_of_not_lt room)), trivial⟩⟩
  | delete name =>
    by_cases present : name ∈ S.names
    · have served : S.serve (.delete name) = (⟨S.names.erase name, Finset.card_erase_le.trans S.bound⟩, .ok) :=
        if_pos present
      rw [served]
      simp only [RoomSet.serve, Finset.notMem_erase, if_false]
      exact ⟨trivial, .inr ⟨fun absent => absent present, by decide⟩⟩
    · have served : S.serve (.delete name) = (S, .notFound) := if_neg present
      simp only [served]
      exact ⟨trivial, .inl ⟨present, trivial⟩⟩
  | check name | describe name => exact ⟨rfl, .inl ⟨trivial, rfl⟩⟩
  | malformed => exact ⟨rfl, .inl ⟨trivial, rfl⟩⟩

/-- A registry function that leaves the number of rooms alone leaves all of the registry alone. -/
theorem run_of_count {r : RoomRegistry} {call : RegistryCall}
    (count : (call.run r).1.gRoomCount = r.gRoomCount) : (call.run r).1 = r := by
  cases call with
  | roomExists name => rfl
  | roomCreate name =>
    simp only [RegistryCall.run, RoomRegistry.roomCreate] at count ⊢
    split at count
    next => rfl
    next =>
      split_ifs at count ⊢
      · rfl
      · simp at count
  | roomDelete name =>
    simp only [RegistryCall.run, RoomRegistry.roomDelete] at count ⊢
    split at count
    next => rfl
    next => split_ifs at count <;> simp at count

theorem run_of_registered {r : RoomRegistry} {S : RoomSet} {call : RegistryCall} (before : Registered r S)
    (kept : Registered (call.run r).1 S) : (call.run r).1 = r :=
  run_of_count (kept.card_eq.symm.trans before.card_eq)

theorem exec_unchanging {h : Handler} {request : RoomRequest}
    (answers : h = .reply .badRequest ∧ request = .malformed ∨ Implements h request) {s : Shared} {S : RoomSet}
    (registered : Registered s.rooms S) (same : (S.serve request).1 = S) : (h.exec s).1 = s := by
  rcases answers with ⟨refused, -⟩ | ⟨call, next, shape, implements⟩
  · rw [refused]
    rfl
  · obtain ⟨kept, answer⟩ := implements s.rooms S registered
    rw [shape, Handler.exec, answer, run_of_registered registered (same ▸ kept)]
    rfl

/-- All executions after the first find the state as the first one left it. -/
theorem after_eq_once {payload : Bytes} (cli : processOne payload = handleCli payload) {s : Shared} {S : RoomSet}
    (registered : Registered s.rooms S) {n : ℕ} (positive : 0 < n) :
    after payload s n = ((processOne payload).exec s).1 := by
  have answers := handleCli_implements payload
  rw [← cli] at answers
  have once := (exec_serve answers registered).1
  have fixed := exec_unchanging answers once (serve_again S (requestOf payload)).1
  obtain ⟨m, rfl⟩ := Nat.exists_eq_succ_of_ne_zero positive.ne'
  exact Function.iterate_fixed fixed m

/-! ## Once only -/

def rounds (retryMax : ℤ) (attempts : ℕ → Attempt Turn) : List (Attempt Turn) :=
  (List.range (retryMax + 1).toNat).map attempts

/-- Reply and registry are those of one execution, now and when all that is queued has been executed. -/
def OnceOnly (payload : Bytes) (s : Shared) (result : Backlog × ℤ × Bytes) : Prop :=
  result.2.2 = ((processOne payload).exec s).2.text ∧
    result.1.shared.rooms = ((processOne payload).exec s).1.rooms ∧
    result.1.settled.rooms = ((processOne payload).exec s).1.rooms

theorem payload_admitted {argv : List Bytes} {payload : Bytes} (accepted : buildPayload argv 512 = (0, payload)) :
    framing.Admits payload.length := by
  obtain ⟨prog, line, extra, -, rfl⟩ := exists_commandLine accepted
  have length : (snprintf 512 line.text).1.length = min 511 line.text.length := List.length_take
  have positive : 0 < line.text.length := by
    rw [text_eq, List.length_append, List.length_cons]
    omega
  have limit : 511 ≤ framing.limit := by decide
  constructor <;> omega

/-- The reply to a copy is the one to the first copy, unless there was something to change. -/
theorem reply_eq_first_iff {payload : Bytes} (cli : processOne payload = handleCli payload) {s : Shared} {S : RoomSet}
    (registered : Registered s.rooms S) (n : ℕ) :
    ((processOne payload).exec (after payload s n)).2.text = ((processOne payload).exec s).2.text ↔
      n = 0 ∨ Unchanging S (requestOf payload) := by
  rcases Nat.eq_zero_or_pos n with zero | positive
  · rw [zero]
    exact iff_of_true rfl (.inl rfl)
  · have answers := handleCli_implements payload
    rw [← cli] at answers
    have first := exec_serve answers registered
    have second := exec_serve answers first.1
    rw [after_eq_once cli registered positive, first.2, second.2, or_iff_right positive.ne']
    rcases (serve_again S (requestOf payload)).2 with ⟨unchanging, same⟩ | ⟨changing, differ⟩
    · rw [same]
      exact iff_of_true rfl unchanging
    · exact iff_of_false differ changing

def createPayload : Bytes := commandText (literal "create") (literal "room") (literal "cpu_room")

/-- An attempt in which the server gets the whole request at once. -/
def delivered (prompt : Bool) (reads : List Answer) : Attempt Turn where
  connected := true
  first := .accept 3
  second := .accept 510
  serving := ⟨7, [⟨[.ready 3, .ready 510], false⟩], [], prompt⟩
  reads := reads

/-- The first attempt does not connect, the second one is answered. -/
def answeredRun : ℕ → Attempt Turn
  | 0 => { delivered true [] with connected := false }
  | _ => delivered true [.ready 3, .ready 510]

/-- The reply to the first copy does not come in time. -/
def lostReplyRun : ℕ → Attempt Turn
  | 0 => delivered true [.again]
  | _ => delivered true [.ready 3, .ready 510]

end ProcessMonitor.Soundness.CliRetry
