import Mathlib.Data.Finset.Card
import Mathlib.Data.Finset.Dedup
import ProcessMonitor.Model.Vts.WorkerPool

/-! # The CLI room service is a bounded set of names

The abstract service keeps a set of at most 64 names and answers each request by what the set holds.
The registry refines it: its occupied rows are the names, in an order that deletion changes because it
moves the last row into the gap. Each CLI request reads or changes the registry in at most one critical
section, and that section is where the request takes effect, so any interleaving of workers is
linearized by the order of these sections; a request that reaches none takes effect when it starts.
-/

namespace ProcessMonitor.Soundness.RoomService

open Machine Machine.Posix Model.Vts

/-! ## The abstract service -/

/-- At most 64 room names. -/
structure RoomSet where
  names : Finset Bytes
  bound : names.card ≤ maxRooms

/-- What a CLI payload asks of the service: `start`, `stop`, and `edit` only check the room. -/
inductive RoomRequest
  | create (name : Bytes)
  | delete (name : Bytes)
  | check (name : Bytes)
  | describe (name : Bytes)
  | malformed

def commandOf (cmd name : Bytes) : RoomRequest :=
  if cmd = literal "create" then .create name
  else if cmd = literal "delete" then .delete name
  else if cmd = literal "start" ∨ cmd = literal "stop" ∨ cmd = literal "edit" then .check name
  else if cmd = literal "show" then .describe name
  else .malformed

def requestOf (payload : Bytes) : RoomRequest :=
  match jsonGetStr payload (literal "cmd") 32, jsonGetStr payload (literal "target") 32,
      jsonGetStr payload (literal "name") 64 with
  | some cmd, some target, some name => if target = literal "room" then commandOf cmd name else .malformed
  | _, _, _ => .malformed

namespace RoomSet

def empty : RoomSet := ⟨∅, Nat.zero_le _⟩

def serve (S : RoomSet) : RoomRequest → RoomSet × Reply
  | .create name =>
    if name ∈ S.names then (S, .alreadyExists)
    else if room : S.names.card < maxRooms then
      (⟨insert name S.names, (Finset.card_insert_le _ _).trans room⟩, .ok)
    else (S, .internalError)
  | .delete name =>
    if name ∈ S.names then (⟨S.names.erase name, (Finset.card_erase_le).trans S.bound⟩, .ok)
    else (S, .notFound)
  | .check name => (S, if name ∈ S.names then .ok else .notFound)
  | .describe name => (S, if name ∈ S.names then .showRoom else .notFound)
  | .malformed => (S, .badRequest)

end RoomSet

/-- The service as a sequential object whose operations are payloads. -/
def roomService : SequentialObject RoomSet Bytes Reply := fun S payload => S.serve (requestOf payload)

/-! ## The registry refines the set -/

/-- The occupied rows, `g_rooms[0 .. g_room_count)`. -/
def occupied (r : RoomRegistry) : List Bytes := r.gRooms.take r.gRoomCount.toNat

/-- The occupied rows hold the names of the set, each of them once. -/
structure Registered (r : RoomRegistry) (S : RoomSet) : Prop where
  nonneg : 0 ≤ r.gRoomCount
  bound : r.gRoomCount ≤ maxRooms
  distinct : (occupied r).Nodup
  short : ∀ name ∈ occupied r, name.length ≤ 63
  names : (occupied r).toFinset = S.names

/-- Overwriting an element by the last one and dropping the end removes exactly that element. -/
private theorem swap_remove_perm {α : Type*} {items : List α} {i : ℕ} (bound : i < items.length) (last : α)
    (ends : items[items.length - 1]? = some last) :
    ((items.set i last).take (items.length - 1)).Perm (items.eraseIdx i) := by
  obtain ⟨front, final, rfl⟩ : ∃ front final, items = front ++ [final] :=
    ⟨_, _, (List.dropLast_concat_getLast (List.ne_nil_of_length_pos (Nat.zero_lt_of_lt bound))).symm⟩
  have same : final = last := by simpa using ends
  subst same
  have size : (front ++ [final]).length - 1 = front.length := by simp
  rw [size]
  rcases Nat.lt_or_ge i front.length with inner | outer
  · rw [List.set_append_left i final inner, List.take_left' List.length_set,
      List.eraseIdx_append_of_lt_length inner]
    exact (List.set_perm_cons_eraseIdx inner final).trans (List.perm_append_singleton final _).symm
  · have atEnd : i = front.length := by
      simp only [List.length_append, List.length_singleton] at bound
      omega
    rw [atEnd, List.take_set_of_le (Nat.le_refl _), List.take_left, List.eraseIdx_append_of_length_le (Nat.le_refl _)]
    simp

namespace Registered

variable {r : RoomRegistry} {S : RoomSet}

theorem start : Registered .start .empty where
  nonneg := by decide
  bound := by decide
  distinct := List.nodup_nil
  short _ member := nomatch member
  names := rfl

theorem occupied_length (registered : Registered r S) : (occupied r).length = r.gRoomCount.toNat := by
  have := registered.bound
  rw [occupied, List.length_take, r.rows]
  omega

theorem card_eq (registered : Registered r S) : (S.names.card : ℤ) = r.gRoomCount := by
  have := registered.nonneg
  rw [← registered.names, List.toFinset_card_of_nodup registered.distinct, registered.occupied_length]
  omega

theorem mem_names_iff (registered : Registered r S) (name : Bytes) : name ∈ S.names ↔ name ∈ occupied r := by
  rw [← registered.names, List.mem_toFinset]

theorem find_eq_none_iff (registered : Registered r S) (name : Bytes) : r.find name = none ↔ name ∉ S.names := by
  rw [RoomRegistry.find, List.findIdx?_eq_none_iff, registered.mem_names_iff]
  constructor
  · intro absent member
    simpa using absent name member
  · intro absent row member
    exact decide_eq_false fun same => absent (same ▸ member)

theorem roomExists_iff (registered : Registered r S) (name : Bytes) :
    r.roomExists name = true ↔ name ∈ S.names := by
  rw [RoomRegistry.roomExists, Option.isSome_iff_ne_none, ne_eq, registered.find_eq_none_iff, not_not]

/-- A free row takes the new name. -/
theorem insert_row (registered : Registered r S) {name : Bytes} (fits : name.length ≤ 63) (absent : name ∉ S.names)
    (room : S.names.card < maxRooms) (bound : (insert name S.names).card ≤ maxRooms) :
    Registered ⟨r.gRooms.set r.gRoomCount.toNat (name.take 63), r.gRoomCount + 1, List.length_set.trans r.rows⟩
      ⟨insert name S.names, bound⟩ := by
  have count := registered.card_eq
  have nonneg := registered.nonneg
  have free : r.gRoomCount.toNat < r.gRooms.length := by rw [r.rows]; omega
  have rows : (r.gRooms.set r.gRoomCount.toNat (name.take 63)).take (r.gRoomCount + 1).toNat =
      occupied r ++ [name] := by
    rw [show (r.gRoomCount + 1).toNat = r.gRoomCount.toNat + 1 by omega, List.take_add_one,
      List.take_set_of_le (Nat.le_refl _), List.getElem?_set_self free, List.take_of_length_le fits]
    rfl
  constructor
  · exact Int.add_nonneg nonneg (by decide)
  · change r.gRoomCount + 1 ≤ maxRooms
    omega
  · rw [occupied, rows]
    apply List.Nodup.append registered.distinct (List.nodup_singleton name)
    exact List.disjoint_singleton.mpr fun member => absent ((registered.mem_names_iff name).mpr member)
  · rw [occupied, rows]
    intro row member
    rcases List.mem_append.mp member with older | new
    · exact registered.short row older
    · rw [List.mem_singleton.mp new]
      exact fits
  · rw [occupied, rows, List.toFinset_append, registered.names]
    simp

/-- Any rows that are the old ones without the name hold the smaller set. -/
private theorem of_perm (registered : Registered r S) {next : RoomRegistry} {name : Bytes} (member : name ∈ S.names)
    (count : next.gRoomCount = r.gRoomCount - 1) (perm : (occupied r).Perm (name :: occupied next))
    (bound : (S.names.erase name).card ≤ maxRooms) : Registered next ⟨S.names.erase name, bound⟩ := by
  have occupiedBefore : 0 < S.names.card := Finset.card_pos.mpr ⟨name, member⟩
  have before := registered.card_eq
  have parts := List.nodup_cons.mp (perm.nodup_iff.mp registered.distinct)
  constructor
  · omega
  · have := registered.bound
    omega
  · exact parts.2
  · intro row inNext
    exact registered.short row (perm.mem_iff.mpr (List.mem_cons_of_mem name inNext))
  · have shrunk := Finset.erase_insert (show name ∉ (occupied next).toFinset by simpa using parts.1)
    rw [← List.toFinset_cons, ← List.toFinset_eq_of_perm _ _ perm, registered.names] at shrunk
    exact shrunk.symm

private theorem last_row (registered : Registered r S) (nonempty : 0 < (occupied r).length) :
    (occupied r)[(occupied r).length - 1]? = some (r.gRooms.getD (r.gRoomCount - 1).toNat []) := by
  have size := registered.occupied_length
  have bound := registered.bound
  have inside : (r.gRoomCount - 1).toNat < r.gRoomCount.toNat := by omega
  have inRows : (r.gRoomCount - 1).toNat < r.gRooms.length := by rw [r.rows]; omega
  rw [size, show r.gRoomCount.toNat - 1 = (r.gRoomCount - 1).toNat by omega, occupied,
    List.getElem?_take_of_lt inside, List.getD_eq_getElem?_getD, List.getElem?_eq_getElem inRows]
  rfl

/-- `room_delete` on a name that is there. -/
theorem roomDelete_present (registered : Registered r S) {name : Bytes} (member : name ∈ S.names)
    (bound : (S.names.erase name).card ≤ maxRooms) :
    Registered (r.roomDelete name).1 ⟨S.names.erase name, bound⟩ ∧ (r.roomDelete name).2 = 0 := by
  cases found : r.find name with
  | none => exact absurd member ((registered.find_eq_none_iff name).mp found)
  | some i =>
    obtain ⟨inside, same, -⟩ := List.findIdx?_eq_some_iff_getElem.mp found
    change i < (occupied r).length at inside
    have named : (occupied r)[i] = name := of_decide_eq_true same
    have size := registered.occupied_length
    have last : (r.gRoomCount - 1).toNat = (occupied r).length - 1 := by omega
    -- Both branches leave the old rows with the last one in place of row `i`.
    have removed (rows : List Bytes)
        (shrunk : rows = ((occupied r).set i (r.gRooms.getD (r.gRoomCount - 1).toNat [])).take
          ((occupied r).length - 1)) : (occupied r).Perm (name :: rows) := by
      rw [shrunk, ← named]
      apply (List.getElem_cons_eraseIdx_perm inside).symm.trans
      apply List.Perm.cons
      exact (swap_remove_perm inside _ (registered.last_row (Nat.zero_lt_of_lt inside))).symm
    have front : (occupied r).take ((occupied r).length - 1) = r.gRooms.take (r.gRoomCount - 1).toNat := by
      rw [← last, occupied, List.take_take, Nat.min_eq_left (by omega)]
    rw [RoomRegistry.roomDelete, found]
    dsimp only
    split
    next atEnd =>
      refine ⟨registered.of_perm member rfl (removed _ ?_) bound, rfl⟩
      rw [List.take_set_of_le (by omega), front]
      rfl
    next inner =>
      refine ⟨registered.of_perm member rfl (removed _ ?_) bound, rfl⟩
      rw [List.take_set, front, ← List.take_set]
      rfl

/-- Each registry function does to the rows what the service does to the set. -/
theorem roomCreate (registered : Registered r S) {name : Bytes} (fits : name.length ≤ 63) :
    Registered (r.roomCreate name).1 (S.serve (.create name)).1 ∧
      (if (r.roomCreate name).2 = 0 then Reply.ok
        else if (r.roomCreate name).2 = 1 then .alreadyExists else .internalError) =
        (S.serve (.create name)).2 := by
  rw [RoomRegistry.roomCreate, RoomSet.serve]
  cases found : r.find name with
  | some i =>
    have present : name ∈ S.names := by
      by_contra absent
      cases ((registered.find_eq_none_iff name).mpr absent).symm.trans found
    simp only [present, ↓reduceIte]
    exact ⟨registered, rfl⟩
  | none =>
    have absent := (registered.find_eq_none_iff name).mp found
    have count := registered.card_eq
    rw [if_neg absent]
    by_cases room : S.names.card < maxRooms
    · have free : ¬ (maxRooms : ℤ) ≤ r.gRoomCount := by omega
      simp only [free, room, ↓reduceIte, ↓reduceDIte, and_true]
      exact registered.insert_row fits absent room _
    · have full : (maxRooms : ℤ) ≤ r.gRoomCount := by omega
      simp only [full, room, ↓reduceIte, ↓reduceDIte]
      exact ⟨registered, rfl⟩

theorem roomDelete (registered : Registered r S) (name : Bytes) :
    Registered (r.roomDelete name).1 (S.serve (.delete name)).1 ∧
      (if (r.roomDelete name).2 = 0 then Reply.ok else .notFound) = (S.serve (.delete name)).2 := by
  rw [RoomSet.serve]
  split
  next present =>
    obtain ⟨smaller, result⟩ := registered.roomDelete_present present (Finset.card_erase_le.trans S.bound)
    rw [result]
    exact ⟨smaller, rfl⟩
  next absent =>
    have missing := (registered.find_eq_none_iff name).mpr absent
    rw [RoomRegistry.roomDelete, missing]
    exact ⟨registered, rfl⟩

theorem lookup (registered : Registered r S) (found : Reply) (name : Bytes) :
    (if (if r.roomExists name then (1 : ℤ) else 0) = 0 then Reply.notFound else found) =
      if name ∈ S.names then found else .notFound := by
  simp only [← registered.roomExists_iff name]
  cases r.roomExists name <;> rfl

end Registered

/-! ## One request -/

/-- A handler that makes one registry call and then answers as the service does. -/
def Implements (h : Handler) (request : RoomRequest) : Prop :=
  ∃ call next, h = .registry call next ∧ ∀ r S, Registered r S →
    Registered (call.run r).1 (S.serve request).1 ∧ next (call.run r).2 = .reply (S.serve request).2

theorem answerFound_implements {request : RoomRequest} (found : Reply) (name : Bytes)
    (served : ∀ S : RoomSet, S.serve request = (S, if name ∈ S.names then found else .notFound)) :
    Implements (answerFound found name) request := by
  refine ⟨_, _, rfl, fun r S registered => ?_⟩
  rw [served S]
  exact ⟨registered, congrArg Handler.reply (registered.lookup found name)⟩

theorem handleRoomCommand_implements (cmd : Bytes) {name : Bytes} (fits : name.length ≤ 63) :
    handleRoomCommand cmd name = .reply .badRequest ∧ commandOf cmd name = .malformed ∨
      Implements (handleRoomCommand cmd name) (commandOf cmd name) := by
  unfold handleRoomCommand commandOf
  by_cases create : cmd = literal "create"
  · right
    rw [if_pos create, if_pos create]
    refine ⟨_, _, rfl, fun r S registered => ?_⟩
    obtain ⟨kept, answer⟩ := registered.roomCreate fits
    exact ⟨kept, congrArg Handler.reply answer⟩
  by_cases delete : cmd = literal "delete"
  · right
    rw [if_neg create, if_neg create, if_pos delete, if_pos delete]
    refine ⟨_, _, rfl, fun r S registered => ?_⟩
    obtain ⟨kept, answer⟩ := registered.roomDelete name
    exact ⟨kept, congrArg Handler.reply answer⟩
  rw [if_neg create, if_neg create, if_neg delete, if_neg delete]
  by_cases start : cmd = literal "start"
  · rw [if_pos start, if_pos (.inl start)]
    exact .inr (answerFound_implements .ok name fun _ => rfl)
  by_cases stop : cmd = literal "stop"
  · rw [if_neg start, if_pos stop, if_pos (.inr (.inl stop))]
    exact .inr (answerFound_implements .ok name fun _ => rfl)
  by_cases edit : cmd = literal "edit"
  · rw [if_neg start, if_neg stop, if_pos edit, if_pos (.inr (.inr edit))]
    exact .inr (answerFound_implements .ok name fun _ => rfl)
  have other : ¬ (cmd = literal "start" ∨ cmd = literal "stop" ∨ cmd = literal "edit") := by
    rintro (same | same | same)
    exacts [start same, stop same, edit same]
  rw [if_neg start, if_neg stop, if_neg edit, if_neg other]
  by_cases shown : cmd = literal "show"
  · rw [if_pos shown, if_pos shown]
    exact .inr (answerFound_implements .showRoom name fun _ => rfl)
  · rw [if_neg shown, if_neg shown]
    exact .inl ⟨rfl, rfl⟩

/-- A CLI payload is refused without looking at the registry, or makes one call. -/
theorem handleCli_implements (payload : Bytes) :
    handleCli payload = .reply .badRequest ∧ requestOf payload = .malformed ∨
      Implements (handleCli payload) (requestOf payload) := by
  unfold handleCli requestOf
  rw [jsonGetStr_eq payload (literal "name") (by decide)]
  cases jsonGetStr payload (literal "cmd") 32 with
  | none => exact .inl ⟨rfl, rfl⟩
  | some cmd =>
    cases jsonGetStr payload (literal "target") 32 with
    | none => exact .inl ⟨rfl, rfl⟩
    | some target =>
      cases jsonField payload (literal "name") with
      | none => exact .inl ⟨rfl, rfl⟩
      | some name =>
        dsimp only [Option.map_some]
        split
        next => exact handleRoomCommand_implements cmd (List.length_take_le 63 name)
        next => exact .inl ⟨rfl, rfl⟩

/-- The reply is sent with the length of its whole text, and is whole. -/
def Whole (r : Reply) : Prop := r.segments = [storeU32 (htonl r.text.length), r.text]

instance : DecidablePred Whole := fun _ => inferInstanceAs (Decidable (_ = _))

/-- The texts of the service all fit their buffer. -/
theorem serve_whole (S : RoomSet) (request : RoomRequest) : Whole (S.serve request).2 := by
  have answers : ∀ r ∈ [Reply.ok, .badRequest, .notFound, .alreadyExists, .internalError, .showRoom], Whole r := by
    decide
  apply answers
  cases request with
  | create name =>
    rw [RoomSet.serve]
    split
    · simp
    · split <;> simp
  | delete name | check name | describe name =>
    rw [RoomSet.serve]
    split <;> simp
  | malformed => simp [RoomSet.serve]

/-! ## Any interleaving -/

/-- Where a request stands: not in effect yet, in effect with its reply still to be sent, or answered. -/
def Stands (order : List (Effect Bytes Reply)) (request : ℕ) (job : Job) : Prop :=
  ∀ h, job.rest = some h →
    Implements h (requestOf job.payload) ∧ request ∉ order.map Effect.call ∨
      ∃ r, h = .reply r ∧ ⟨request, job.payload, r⟩ ∈ order

/-- A request that has been answered has put one frame on the wire, any other none. -/
def Framed (history : List (CallEvent Bytes Reply)) (wire : List (ℕ × List Bytes)) (request : ℕ) :
    Option Handler → Prop
  | some _ => wire.filter (fun sent => sent.1 = request) = []
  | none => ∃ r, .respond request r ∈ history ∧
      wire.filter (fun sent => sent.1 = request) = [(request, [storeU32 (htonl r.text.length), r.text])]

/-- The run so far, linearized: the effects in their order lead to a set that the registry holds. -/
structure Linearized (p : WorkerPool) (S : RoomSet) (order : List (Effect Bytes Reply)) : Prop where
  linearizes : Linearizes roomService .empty S p.history order
  registered : Registered p.shared.rooms S
  whole : ∀ effect ∈ order, Whole effect.ret
  numbered : ∀ request payload, .invoke request payload ∈ p.history → request < p.jobs.length
  sent : ∀ sent ∈ p.wire, sent.1 < p.jobs.length
  started : ∀ (request : ℕ) job, p.jobs[request]? = some job → .invoke request job.payload ∈ p.history
  stands : ∀ (request : ℕ) job, p.jobs[request]? = some job → Stands order request job
  framed : ∀ (request : ℕ) job, p.jobs[request]? = some job → Framed p.history p.wire request job.rest

variable {p : WorkerPool} {S : RoomSet} {order : List (Effect Bytes Reply)}

theorem linearized_start : Linearized .start .empty [] where
  linearizes := Linearizes.start _
  registered := Registered.start
  whole _ member := nomatch member
  numbered _ _ member := nomatch member
  sent _ member := nomatch member
  started _ _ found := nomatch found
  stands _ _ found := nomatch found
  framed _ _ found := nomatch found

/-- Another request's effect changes nothing for this one. -/
theorem Stands.concat {request : ℕ} {job : Job} (stands : Stands order request job) {effect : Effect Bytes Reply}
    (other : effect.call ≠ request) : Stands (order ++ [effect]) request job := by
  intro h rest
  rcases stands h rest with ⟨implements, pending⟩ | ⟨r, reply, inOrder⟩
  · left
    refine ⟨implements, ?_⟩
    rw [List.map_append, List.mem_append, List.map_singleton, List.mem_singleton]
    rintro (older | new)
    exacts [pending older, other new.symm]
  · exact .inr ⟨r, reply, List.mem_append_left _ inOrder⟩

/-- More history keeps the frames that are there. -/
theorem Framed.mono {history later : List (CallEvent Bytes Reply)} {wire : List (ℕ × List Bytes)} {request : ℕ}
    {rest : Option Handler} (framed : Framed history wire request rest) (grows : history ⊆ later) :
    Framed later wire request rest := by
  cases rest with
  | some h => exact framed
  | none =>
    obtain ⟨r, answered, frame⟩ := framed
    exact ⟨r, grows answered, frame⟩

namespace Linearized

/-- The record of a request that starts, whatever order its effect is put into. -/
private theorem take_records (linearized : Linearized p S order) (payload : Bytes)
    {later : List (Effect Bytes Reply)}
    (linearizes : Linearizes roomService .empty S (p.history ++ [.invoke p.jobs.length payload]) later)
    (whole : ∀ effect ∈ later, Whole effect.ret)
    (older : ∀ (request : ℕ) job, request < p.jobs.length → Stands order request job → Stands later request job)
    (new : Stands later p.jobs.length ⟨payload, some (handleCli payload)⟩) :
    Linearized (p.takeJob handleCli payload) S later where
  linearizes := linearizes
  registered := linearized.registered
  whole := whole
  numbered request started member := by
    change request < (p.jobs ++ [_]).length
    rw [List.length_append, List.length_singleton]
    rcases List.mem_append.mp member with inside | last
    · exact Nat.lt_succ_of_lt (linearized.numbered request started inside)
    · cases List.mem_singleton.mp last
      exact Nat.lt_succ_self _
  sent frame member := by
    change frame.1 < (p.jobs ++ [_]).length
    rw [List.length_append, List.length_singleton]
    exact Nat.lt_succ_of_lt (linearized.sent frame member)
  started request job found := by
    rcases thread_of_concat found with ⟨rfl, rfl⟩ | ⟨_, inside⟩
    · exact List.mem_append_right _ List.mem_cons_self
    · exact List.mem_append_left _ (linearized.started request job inside)
  stands request job found := by
    rcases thread_of_concat found with ⟨rfl, rfl⟩ | ⟨bound, inside⟩
    · exact new
    · exact older request job bound (linearized.stands request job inside)
  framed request job found := by
    rcases thread_of_concat found with ⟨rfl, rfl⟩ | ⟨_, inside⟩
    · apply List.filter_eq_nil_iff.mpr
      intro frame member
      have := linearized.sent frame member
      simp only [decide_eq_true_eq]
      omega
    · exact (linearized.framed request job inside).mono (List.subset_append_left _ _)

theorem take (linearized : Linearized p S order) (payload : Bytes) :
    ∃ order, Linearized (p.takeJob handleCli payload) S order := by
  have fresh : ∀ op, .invoke p.jobs.length op ∉ p.history := fun op member =>
    Nat.lt_irrefl _ (linearized.numbered _ op member)
  have invoked := linearized.linearizes.invoke payload fresh
  have pending : p.jobs.length ∉ order.map Effect.call := by
    intro member
    obtain ⟨effect, inOrder, same⟩ := List.mem_map.mp member
    exact fresh effect.op (same ▸ linearized.linearizes.invoked effect inOrder)
  rcases handleCli_implements payload with ⟨refused, malformed⟩ | implements
  · -- A refused request changes nothing, so it can take effect at once.
    have served : roomService S payload = (S, .badRequest) := by rw [roomService, malformed]; rfl
    have effect := invoked.effect (List.mem_append_right _ List.mem_cons_self) pending
    rw [served] at effect
    refine ⟨_, linearized.take_records payload effect ?_ ?_ ?_⟩
    · intro effect member
      rcases List.mem_append.mp member with older | new
      · exact linearized.whole effect older
      · rw [List.mem_singleton.mp new]
        exact serve_whole S .malformed
    · intro request job bound stands
      exact stands.concat (Nat.ne_of_gt bound)
    · intro h rest
      cases rest
      exact .inr ⟨.badRequest, refused, List.mem_append_right _ List.mem_cons_self⟩
  · refine ⟨_, linearized.take_records payload invoked linearized.whole (fun _ _ _ stands => stands) ?_⟩
    intro h rest
    cases rest
    exact .inl ⟨implements, pending⟩

/-- The one section of a request is where it takes effect. -/
theorem act (linearized : Linearized p S order) {request : ℕ} {payload : Bytes} {h rest : Handler}
    {shared : Shared} (found : p.jobs[request]? = some ⟨payload, some h⟩)
    (acted : h.act p.shared = some (shared, rest)) :
    ∃ S order, Linearized (p.actJob request payload shared rest) S order := by
  rcases linearized.stands request _ found h rfl with ⟨⟨call, next, rfl, run⟩, pending⟩ | ⟨r, rfl, _⟩
  swap
  · cases acted
  cases acted
  obtain ⟨registered, answer⟩ := run _ S linearized.registered
  have begun := linearized.started request _ found
  have silent := linearized.framed request _ found
  have effect := linearized.linearizes.effect begun pending
  have length : (p.jobs.set request ⟨payload, some (next (call.run p.shared.rooms).2)⟩).length = p.jobs.length :=
    List.length_set
  refine ⟨_, _, effect, registered, ?_, ?_, ?_, ?_, ?_, ?_⟩
  · intro effect member
    rcases List.mem_append.mp member with older | new
    · exact linearized.whole effect older
    · rw [List.mem_singleton.mp new]
      exact serve_whole S _
  · intro other op member
    exact length ▸ linearized.numbered other op member
  · intro frame member
    exact length ▸ linearized.sent frame member
  · intro other job inside
    rcases thread_of_set inside with ⟨rfl, rfl⟩ | ⟨_, inside⟩
    · exact begun
    · exact linearized.started other job inside
  · intro other job inside
    rcases thread_of_set inside with ⟨rfl, rfl⟩ | ⟨apart, inside⟩
    · intro h rest
      cases rest
      exact .inr ⟨_, answer, List.mem_append_right _ List.mem_cons_self⟩
    · exact (linearized.stands other job inside).concat apart
  · intro other job inside
    rcases thread_of_set inside with ⟨rfl, rfl⟩ | ⟨_, inside⟩
    · exact silent
    · exact linearized.framed other job inside

theorem send (linearized : Linearized p S order) {request : ℕ} {payload : Bytes} {r : Reply}
    (found : p.jobs[request]? = some ⟨payload, some (.reply r)⟩) :
    Linearized (p.sendJob request payload r) S order := by
  have effective : ⟨request, payload, r⟩ ∈ order := by
    rcases linearized.stands request _ found _ rfl with ⟨⟨_, _, other, _⟩, _⟩ | ⟨_, same, member⟩
    · cases other
    · cases same
      exact member
  have begun := linearized.started request _ found
  have bound := (List.getElem?_eq_some_iff.mp found).1
  have length : (p.jobs.set request ⟨payload, none⟩).length = p.jobs.length := List.length_set
  refine ⟨linearized.linearizes.respond effective, linearized.registered, linearized.whole, ?_, ?_, ?_, ?_, ?_⟩
  · intro other op member
    rcases List.mem_append.mp member with older | new
    · exact length ▸ linearized.numbered other op older
    · cases List.mem_singleton.mp new
  · intro frame member
    rcases List.mem_append.mp member with older | new
    · exact length ▸ linearized.sent frame older
    · rw [List.mem_singleton.mp new]
      exact length ▸ bound
  · intro other job inside
    apply List.mem_append_left
    rcases thread_of_set inside with ⟨rfl, rfl⟩ | ⟨_, inside⟩
    · exact begun
    · exact linearized.started other job inside
  · intro other job inside
    rcases thread_of_set inside with ⟨rfl, rfl⟩ | ⟨_, inside⟩
    · intro h rest
      cases rest
    · exact linearized.stands other job inside
  · intro other job inside
    change Framed _ (p.wire ++ [(request, r.segments)]) other job.rest
    rcases thread_of_set inside with ⟨rfl, rfl⟩ | ⟨apart, inside⟩
    · -- Nothing of this request was on the wire before.
      have silent : p.wire.filter (fun sent => sent.1 = other) = [] := linearized.framed other _ found
      refine ⟨r, List.mem_append_right _ List.mem_cons_self, ?_⟩
      rw [List.filter_append, silent, linearized.whole _ effective]
      simp
    · have kept := (linearized.framed other job inside).mono
        (List.subset_append_left p.history [.respond request r])
      have unchanged : (p.wire ++ [(request, r.segments)]).filter (fun sent => sent.1 = other) =
          p.wire.filter (fun sent => sent.1 = other) := by
        rw [List.filter_append]
        simp [apart]
      cases job with
      | mk payload rest =>
        cases rest with
        | some h => exact unchanged.trans kept
        | none =>
          obtain ⟨answer, answered, frame⟩ := kept
          exact ⟨answer, answered, unchanged.trans frame⟩

end Linearized

theorem linearized_of_run {events : List WorkerPool.Event}
    (reached : (WorkerPool.machine handleCli).run .start events = some p) : ∃ S order, Linearized p S order := by
  apply EventMachine.invariant (fun p => ∃ S order, Linearized p S order) _ ⟨_, _, linearized_start⟩ reached
  rintro p event next ⟨S, order, linearized⟩ step
  rcases WorkerPool.step_cases step with ⟨payload, rfl, rfl⟩ |
    ⟨request, payload, h, shared, rest, rfl, found, acted, rfl⟩ | ⟨request, payload, r, rfl, found, rfl⟩
  · exact ⟨S, linearized.take payload⟩
  · exact linearized.act found acted
  · exact ⟨S, order, linearized.send found⟩

/-- Whatever the interleaving of the workers, the CLI room service is linearizable to the set of names
that the registry holds, and every answered request has sent exactly one whole frame. -/
theorem cliService_linearizable {events : List WorkerPool.Event}
    (reached : (WorkerPool.machine handleCli).run .start events = some p) :
    (∃ S order, Linearizes roomService .empty S p.history order ∧ Registered p.shared.rooms S) ∧
      ∀ (request : ℕ) job, p.jobs[request]? = some job → Framed p.history p.wire request job.rest := by
  obtain ⟨S, order, linearized⟩ := linearized_of_run reached
  exact ⟨⟨S, order, linearized.linearizes, linearized.registered⟩, linearized.framed⟩

/-- Two workers at once: the deletion that starts second finds the room the creation has made. -/
theorem cliService_linearizable_create_delete : ∃ p,
    (WorkerPool.machine handleCli).run .start
        [.take (literal "\x7b\"cmd\":\"create\",\"target\":\"room\",\"name\":\"a\"\x7d"),
          .take (literal "\x7b\"cmd\":\"delete\",\"target\":\"room\",\"name\":\"a\"\x7d"),
          .act 0, .act 1, .send 1, .send 0] = some p ∧
      (∃ S order, Linearizes roomService .empty S p.history order ∧ Registered p.shared.rooms S) ∧
      ∀ (request : ℕ) job, p.jobs[request]? = some job → Framed p.history p.wire request job.rest := by
  have ran : ((WorkerPool.machine handleCli).run .start
      [.take (literal "\x7b\"cmd\":\"create\",\"target\":\"room\",\"name\":\"a\"\x7d"),
        .take (literal "\x7b\"cmd\":\"delete\",\"target\":\"room\",\"name\":\"a\"\x7d"),
        .act 0, .act 1, .send 1, .send 0]).isSome = true := by decide
  obtain ⟨p, reached⟩ := Option.isSome_iff_exists.mp ran
  exact ⟨p, reached, cliService_linearizable reached⟩

end ProcessMonitor.Soundness.RoomService
