import ProcessMonitor.Machine.Core.Emission
import ProcessMonitor.Machine.Core.Measure
import ProcessMonitor.Soundness.ConnectionInvariant
import ProcessMonitor.Soundness.DedupHistory
import ProcessMonitor.Soundness.RoomService

/-! # The life of a request

A request is followed through the whole server, from `req_queue_push` to the last `write()` of its reply. It is decided
where its reply becomes fixed: a CLI request in its one section on the registry, or right away if it is malformed, a
legacy request where its result is logged. The decisions of a run, in their order, explain all that can be seen of it:
the registry, the replies, the lines logged, and the bytes written.
-/

namespace ProcessMonitor.Soundness.RequestLife

open Machine Machine.Posix Model.Vts RoomService ConnectionInvariant

/-! ## What can be seen of a run -/

/-- The string that the handlers get. -/
def payloadOf (item : Item) : Bytes := cstr item.work.payload

/-- `process_one` calls `handle_cli`. -/
def isCli (item : Item) : Bool := (strstr (payloadOf item) (literal "\"cmd\"")).isSome

/-- The reply that a worker is going to send. -/
def decided : Worker → List (Item × Reply)
  | .handling item (.reply r) => [(item, r)]
  | _ => []

/-- The work whose reply is open. -/
def undecided : Worker → List Item
  | .handling _ (.reply _) => []
  | .handling item _ => [item]
  | _ => []

/-- The decision that a step makes: the worker that moves has its reply now. -/
def decisionAt (s : Server) (e : Server.Event) : List (Item × Reply) :=
  match e with
  | .pop i | .act i => ((s.step e).bind fun next => next.workers[i]?).elim [] decided
  | _ => []

/-- The reply that a step starts to send. -/
def answerAt (s : Server) : Server.Event → List (Item × Reply)
  | .reply i => (s.workers[i]?).elim [] decided
  | _ => []

def ofWorkers (shows : Server → Server.Event → List (Item × Reply)) (s : ServerLoop) :
    ServerLoop.Event → List (Item × Reply)
  | .worker e => shows s.server e
  | _ => []

/-- The decisions of a run. -/
def decisions (s : ServerLoop) (es : List ServerLoop.Event) : List (Item × Reply) :=
  ServerLoop.machine.emits (ofWorkers decisionAt) s es

/-- The replies that a run has begun to send. -/
def answers (s : ServerLoop) (es : List ServerLoop.Event) : List (Item × Reply) :=
  ServerLoop.machine.emits (ofWorkers answerAt) s es

/-- The arguments of `log_write_req_result`. -/
def logLine : Item × Reply → Option (Bytes × ℤ)
  | (_, .legacy reqId success) => some (if reqId = [] then literal "-" else reqId, success)
  | (_, .json ..) => none

/-- The room service on one request after the other. -/
def serveAll : RoomSet → List Item → RoomSet × List Reply
  | S, [] => (S, [])
  | S, item :: items =>
    let served := S.serve (requestOf (payloadOf item))
    ((serveAll served.1 items).1, served.2 :: (serveAll served.1 items).2)

/-- `res` is the result of a legacy request with the id, by its own `op`. -/
def Genuine (pushed : List Item) (id : Bytes) (res : ℤ) : Prop :=
  ∃ item ∈ pushed, isCli item = false ∧ legacyReqId (payloadOf item) = id ∧ legacySuccess (payloadOf item) = res

theorem serveAll_concat (S : RoomSet) (items : List Item) (item : Item) :
    serveAll S (items ++ [item]) =
      (((serveAll S items).1.serve (requestOf (payloadOf item))).1,
        (serveAll S items).2 ++ [((serveAll S items).1.serve (requestOf (payloadOf item))).2]) := by
  induction items generalizing S with
  | nil => rfl
  | cons first items ih => simp only [List.cons_append, serveAll, ih]

/-- The service answers in JSON, and logs nothing. -/
theorem logLine_serve (S : RoomSet) (request : RoomRequest) (item : Item) :
    logLine (item, (S.serve request).2) = none := by
  cases request with
  | create name =>
    simp only [RoomSet.serve]
    split_ifs <;> rfl
  | delete name =>
    simp only [RoomSet.serve]
    split_ifs <;> rfl
  | check name =>
    simp only [RoomSet.serve]
    split_ifs <;> rfl
  | describe name =>
    simp only [RoomSet.serve]
    split_ifs <;> rfl
  | malformed => rfl

theorem Genuine.mono {pushed more : List Item} {id : Bytes} {res : ℤ} (genuine : Genuine pushed id res) :
    Genuine (pushed ++ more) id res := by
  obtain ⟨item, member, rest⟩ := genuine
  exact ⟨item, List.mem_append_left _ member, rest⟩

/-! ## How a legacy request gets its reply -/

section Legacy

variable {good : ℤ → Prop} {p : Bytes} {h : Handler}

/-- The id that a legacy request is logged under. -/
def logId (p : Bytes) : Bytes := if legacyReqId p = [] then literal "-" else legacyReqId p

/-- Where `handle_legacy` is before it has logged: it looks the id up, it stores its own result, or it logs. -/
inductive LegacyStage (good : ℤ → Prop) (p : Bytes) : Handler → Prop
  | find (named : legacyReqId p ≠ []) : LegacyStage good p (.dedupFind (legacyReqId p) (answerLegacy p))
  | put (own : good (legacySuccess p)) :
      LegacyStage good p (.dedupPut (legacyReqId p) (legacySuccess p)
        (.logWriteReqResult (logId p) (legacySuccess p) (.reply (.legacy (legacyReqId p) (legacySuccess p)))))
  | log {res : ℤ} (known : good res) :
      LegacyStage good p (.logWriteReqResult (logId p) res (.reply (.legacy (legacyReqId p) res)))

theorem LegacyStage.mono {better : ℤ → Prop} (stage : LegacyStage good p h) (weaker : ∀ res, good res → better res) :
    LegacyStage better p h := by
  cases stage with
  | find named => exact .find named
  | put own => exact .put (weaker _ own)
  | log known => exact .log (weaker _ known)

theorem handleLegacy_stage (own : good (legacySuccess p)) : LegacyStage good p (handleLegacy p) := by
  rw [handleLegacy]
  split
  next unnamed =>
    rw [answerLegacy, if_pos unnamed]
    have log : LegacyStage good p _ := .log own
    rwa [logId, if_pos unnamed] at log
  next named => exact .find named

/-- What a section of `handle_legacy` does: it goes on, or it logs a result and has its reply. -/
inductive LegacyAct (good : ℤ → Prop) (p : Bytes) (s : Shared) : Shared → Handler → Prop
  | looked {h : Handler} (stage : LegacyStage good p h) : LegacyAct good p s s h
  | stored {h : Handler} (stage : LegacyStage good p h) :
      LegacyAct good p s { s with dedup := s.dedup.dedupPut (legacyReqId p) (legacySuccess p) } h
  | logged {res : ℤ} (known : good res) :
      LegacyAct good p s { s with logged := s.logged ++ [(logId p, res)] } (.reply (.legacy (legacyReqId p) res))

theorem legacyAct_of_act {s t : Shared} {rest : Handler} (stage : LegacyStage good p h) (own : good (legacySuccess p))
    (cached : ∀ res, s.dedup.dedupFind (legacyReqId p) = some res → good res) (acted : h.act s = some (t, rest)) :
    LegacyAct good p s t rest := by
  cases stage with
  | find named =>
    cases acted
    apply LegacyAct.looked
    cases found : s.dedup.dedupFind (legacyReqId p) with
    | some res =>
      have log : LegacyStage good p _ := .log (cached res found)
      rwa [logId, if_neg named] at log
    | none =>
      have put : LegacyStage good p _ := .put own
      rw [answerLegacy, if_neg named]
      rwa [logId, if_neg named] at put
  | put own =>
    cases acted
    exact .stored (.log own)
  | log known =>
    cases acted
    exact .logged known

end Legacy

/-! ## The decisions explain the shared state -/

section Told

variable {shared : Shared} {pushed : List Item} {ds : List (Item × Reply)} {item : Item}

def cliOf (ds : List (Item × Reply)) : List (Item × Reply) := ds.filter fun d => isCli d.1

/-- The decisions so far tell the registry and the log, and where the results of legacy requests come from. -/
structure Told (shared : Shared) (pushed : List Item) (ds : List (Item × Reply)) : Prop where
  logged : shared.logged = ds.filterMap logLine
  rooms : Registered shared.rooms (serveAll .empty ((cliOf ds).map Prod.fst)).1
  replies : (serveAll .empty ((cliOf ds).map Prod.fst)).2 = (cliOf ds).map Prod.snd
  table : ∀ entry ∈ shared.dedup.tab, entry.used = true → Genuine pushed entry.id entry.result
  legacy : ∀ item r, (item, r) ∈ ds → isCli item = false →
    ∃ res, r = .legacy (legacyReqId (payloadOf item)) res ∧ Genuine pushed (legacyReqId (payloadOf item)) res

namespace Told

theorem start : Told .start [] [] where
  logged := rfl
  rooms := Registered.start
  replies := rfl
  table entry member used := by
    rw [List.eq_of_mem_replicate member] at used
    cases used
  legacy _ _ member := by cases member

theorem mono (told : Told shared pushed ds) (more : List Item) : Told shared (pushed ++ more) ds where
  logged := told.logged
  rooms := told.rooms
  replies := told.replies
  table entry member used := (told.table entry member used).mono
  legacy item r member other := by
    obtain ⟨res, same, genuine⟩ := told.legacy item r member other
    exact ⟨res, same, genuine.mono⟩

/-- What a look into the table finds is genuine. -/
theorem cached (told : Told shared pushed ds) {id : Bytes} {res : ℤ} (found : shared.dedup.dedupFind id = some res) :
    Genuine pushed id res := by
  obtain ⟨entry, first, rfl⟩ := Option.map_eq_some_iff.mp found
  have match_ := List.find?_some first
  rw [Bool.and_eq_true, decide_eq_true_iff] at match_
  have genuine := told.table entry (List.mem_of_find?_eq_some first) match_.1
  rwa [match_.2] at genuine

/-- A CLI request is decided by what the service answers. -/
theorem decide (told : Told shared pushed ds) (cli : isCli item = true) {rooms : RoomRegistry}
    (served : Registered rooms ((serveAll .empty ((cliOf ds).map Prod.fst)).1.serve (requestOf (payloadOf item))).1) :
    Told { shared with rooms } pushed
      (ds ++ [(item, ((serveAll .empty ((cliOf ds).map Prod.fst)).1.serve (requestOf (payloadOf item))).2)]) := by
  have grown (r : Reply) : cliOf (ds ++ [(item, r)]) = cliOf ds ++ [(item, r)] := by
    simp [cliOf, cli]
  refine ⟨?_, ?_, ?_, told.table, ?_⟩
  · rw [List.filterMap_append, ← told.logged]
    simp [logLine_serve]
  · rw [grown, List.map_append, List.map_singleton, serveAll_concat]
    exact served
  · rw [grown, List.map_append, List.map_singleton, serveAll_concat, List.map_append, told.replies]
    rfl
  · intro other r member unlike
    rcases List.mem_append.mp member with before | new
    · exact told.legacy other r before unlike
    · cases List.mem_singleton.mp new
      rw [cli] at unlike
      cases unlike

/-- The one section of a CLI request decides it. -/
theorem act (told : Told shared pushed ds) (cli : isCli item = true) {h rest : Handler} {t : Shared}
    (implements_ : Implements h (requestOf (payloadOf item))) (acted : h.act shared = some (t, rest)) :
    ∃ r, rest = .reply r ∧ Told t pushed (ds ++ [(item, r)]) := by
  obtain ⟨call, next, rfl, correct⟩ := implements_
  obtain ⟨served, reply⟩ := correct _ _ told.rooms
  cases acted
  exact ⟨_, reply, told.decide cli served⟩

/-- A malformed CLI request is decided when it is taken. -/
theorem refuse (told : Told shared pushed ds) (cli : isCli item = true)
    (malformed : requestOf (payloadOf item) = .malformed) : Told shared pushed (ds ++ [(item, .badRequest)]) := by
  have served := told.rooms
  have unmoved (S : RoomSet) : (S.serve (requestOf (payloadOf item))).1 = S := by
    rw [malformed]
    rfl
  rw [← unmoved (serveAll _ _).1] at served
  have decided := told.decide cli served
  rwa [malformed] at decided

/-- A legacy request stores its own result. -/
theorem store (told : Told shared pushed ds) {p : Bytes} (own : Genuine pushed (legacyReqId p) (legacySuccess p)) :
    Told { shared with dedup := shared.dedup.dedupPut (legacyReqId p) (legacySuccess p) } pushed ds := by
  refine { told with table := ?_ }
  intro entry member used
  rw [DedupTable.dedupPut] at member
  split at member
  next => exact told.table entry member used
  next =>
    rcases List.mem_or_eq_of_mem_set member with before | new
    · exact told.table entry before used
    · rw [new, List.take_of_length_le (DedupHistory.legacyReqId_length_le p)]
      exact own

/-- A legacy request logs its result. -/
theorem log (told : Told shared pushed ds) (other : isCli item = false) {res : ℤ}
    (known : Genuine pushed (legacyReqId (payloadOf item)) res) :
    Told { shared with logged := shared.logged ++ [(logId (payloadOf item), res)] } pushed
      (ds ++ [(item, .legacy (legacyReqId (payloadOf item)) res)]) := by
  have same : cliOf (ds ++ [(item, .legacy (legacyReqId (payloadOf item)) res)]) = cliOf ds := by
    simp [cliOf, other]
  refine ⟨?_, ?_, ?_, told.table, ?_⟩
  · rw [List.filterMap_append, ← told.logged]
    rfl
  · rw [same]
    exact told.rooms
  · rw [same]
    exact told.replies
  · intro late r member unlike
    rcases List.mem_append.mp member with before | new
    · exact told.legacy late r before unlike
    · cases List.mem_singleton.mp new
      exact ⟨res, rfl, known⟩

end Told

end Told

/-! ## Every request in its place -/

section Life

variable {server next : Server} {pushed : List Item} {ds sent : List (Item × Reply)}

/-- Where a worker is with its request. -/
inductive Staged (pushed : List Item) (sent : List (Item × Reply)) : Worker → Prop
  | idle : Staged pushed sent .idle
  | decided (item : Item) (r : Reply) : Staged pushed sent (.handling item (.reply r))
  | cli {item : Item} {h : Handler} (cli : isCli item = true) (stage : Implements h (requestOf (payloadOf item))) :
      Staged pushed sent (.handling item h)
  | legacy {item : Item} {h : Handler} (other : isCli item = false)
      (stage : LegacyStage (Genuine pushed (legacyReqId (payloadOf item))) (payloadOf item) h) :
      Staged pushed sent (.handling item h)
  | sending {item : Item} {r : Reply} {left : List Bytes} (answered : (item, r) ∈ sent)
      (pieces : ∀ buffer ∈ left, ∃ segment ∈ r.segments, buffer <:+ segment) :
      Staged pushed sent (.sending item left)

theorem Staged.mono {worker : Worker} (staged : Staged pushed sent worker) (items : List Item)
    (more : List (Item × Reply)) : Staged (pushed ++ items) (sent ++ more) worker := by
  cases staged with
  | idle => exact .idle
  | decided item r => exact .decided item r
  | cli cli stage => exact .cli cli stage
  | legacy other stage => exact .legacy other (stage.mono fun _ => Genuine.mono)
  | sending answered pieces => exact .sending (List.mem_append_left _ answered) pieces

theorem open_of_legacy {good : ℤ → Prop} {p : Bytes} {h : Handler} (stage : LegacyStage good p h) (item : Item) :
    undecided (.handling item h) = [item] ∧ decided (.handling item h) = [] := by
  cases stage <;> exact ⟨rfl, rfl⟩

theorem open_of_implements {request : RoomRequest} {h : Handler} (stage : Implements h request) (item : Item) :
    undecided (.handling item h) = [item] ∧ decided (.handling item h) = [] := by
  obtain ⟨call, next, rfl, -⟩ := stage
  exact ⟨rfl, rfl⟩

/-- Every request that was pushed and not dropped is in the queue, in the hands of one worker, or decided; every
decision is answered, or will be by the worker that made it; and every byte on the wire is of an answer. -/
structure Life (server : Server) (pushed : List Item) (ds sent : List (Item × Reply)) : Prop where
  staged : ∀ worker ∈ server.workers, Staged pushed sent worker
  once : (server.queue ++ (server.workers.flatMap undecided ++ ds.map Prod.fst)).Subperm pushed
  whole : (pushed.length : ℤ) ≤ queueDepth →
    (server.queue ++ (server.workers.flatMap undecided ++ ds.map Prod.fst)).Perm pushed
  replies : ds.Perm (server.workers.flatMap decided ++ sent)
  told : Told server.shared pushed ds
  wire : ∀ d ∈ server.wire, ∃ item r, (item, r) ∈ sent ∧ d.origin = item.origin ∧
    ∃ segment ∈ r.segments, d.bytes <:+: segment

namespace Life

theorem start (reserved : List ℤ) (workerCount : ℕ) : Life (.start reserved workerCount) [] [] [] := by
  have none {β : Type} (f : Worker → List β) (nothing : f .idle = []) :
      (List.replicate workerCount Worker.idle).flatMap f = [] := by
    rw [List.flatMap_eq_nil_iff]
    intro worker member
    rw [List.eq_of_mem_replicate member, nothing]
  refine ⟨?_, ?_, ?_, ?_, .start, ?_⟩
  · intro worker member
    rw [List.eq_of_mem_replicate member]
    exact .idle
  · rw [Server.start, none undecided rfl]
    exact List.Subperm.refl _
  · intro _
    rw [Server.start, none undecided rfl]
    exact .refl _
  · rw [Server.start, none decided rfl]
    exact .refl _
  · intro d member
    cases member

/-- One worker moves. -/
theorem move (life : Life server pushed ds sent) {i : ℕ} {old new : Worker} (found : server.workers[i]? = some old)
    (workers : next.workers = server.workers.set i new) {made given : List (Item × Reply)}
    (staged : Staged pushed (sent ++ given) new)
    (balance : (next.queue ++ (undecided new ++ made.map Prod.fst)).Perm (server.queue ++ undecided old))
    (settled : (made ++ decided old).Perm (decided new ++ given)) (told : Told next.shared pushed (ds ++ made))
    (wire : ∀ d ∈ next.wire, ∃ item r, (item, r) ∈ sent ++ given ∧ d.origin = item.origin ∧
      ∃ segment ∈ r.segments, d.bytes <:+: segment) :
    Life next pushed (ds ++ made) (sent ++ given) := by
  have same : (next.queue ++ (next.workers.flatMap undecided ++ (ds ++ made).map Prod.fst)).Perm
      (server.queue ++ (server.workers.flatMap undecided ++ ds.map Prod.fst)) := by
    rw [List.perm_iff_count]
    intro item
    have moved := (flatMap_set_perm undecided found new).count_eq item
    have paid := balance.count_eq item
    rw [workers, List.map_append]
    simp only [List.count_append] at moved paid ⊢
    omega
  refine ⟨?_, same.subperm.trans life.once, fun few => same.trans (life.whole few), ?_, told, wire⟩
  · intro worker member
    rw [workers] at member
    rcases List.mem_or_eq_of_mem_set member with before | rfl
    · have kept := (life.staged worker before).mono [] given
      rwa [List.append_nil] at kept
    · exact staged
  · rw [List.perm_iff_count]
    intro d
    have moved := (flatMap_set_perm decided found new).count_eq d
    have paid := settled.count_eq d
    have before := life.replies.count_eq d
    rw [workers]
    simp only [List.count_append] at moved paid before ⊢
    omega

theorem mem_pushed (life : Life server pushed ds sent) {item : Item} (member : item ∈ server.queue) : item ∈ pushed :=
  life.once.subset (List.mem_append_left _ member)

theorem mem_pushed_of_worker (life : Life server pushed ds sent) {i : ℕ} {worker : Worker}
    (found : server.workers[i]? = some worker) {item : Item} (pending : item ∈ undecided worker) : item ∈ pushed := by
  apply life.once.subset
  apply List.mem_append_right
  apply List.mem_append_left
  exact List.mem_flatMap.mpr ⟨worker, List.mem_of_getElem? found, pending⟩

/-- The reply of the worker that has moved is the decision of the step. -/
theorem decisionAt_eq {e : Server.Event} {i : ℕ} {worker : Worker} (moves : e = .pop i ∨ e = .act i)
    (stepped : server.step e = some next) (found : next.workers[i]? = some worker) :
    decisionAt server e = decided worker := by
  rcases moves with rfl | rfl <;> simp only [decisionAt, stepped, Option.bind_some, found, Option.elim_some]

theorem pop (life : Life server pushed ds sent) {i : ℕ} {item : Item} {queue : List Item}
    (idle : server.workers[i]? = some .idle) (first : server.queue = item :: queue) :
    Life ({ server with queue }.setWorker i (.handling item (processOne item.work.payload))) pushed
      (ds ++ decided (.handling item (processOne item.work.payload))) (sent ++ []) := by
  have taken : (queue ++ ([item] ++ [])).Perm (server.queue ++ undecided .idle) := by
    rw [first]
    exact List.perm_append_comm.trans (by simp [undecided])
  have kept : ∀ d ∈ server.wire, ∃ item r, (item, r) ∈ sent ++ [] ∧ d.origin = item.origin ∧
      ∃ segment ∈ r.segments, d.bytes <:+: segment := by
    rw [List.append_nil]
    exact life.wire
  have told := life.told
  rw [← List.append_nil ds] at told
  cases cli : isCli item with
  | false =>
    have legacy : processOne item.work.payload = handleLegacy (payloadOf item) :=
      if_pos (Option.isNone_iff_eq_none.mp (by simpa [isCli, payloadOf] using cli))
    have own : Genuine pushed (legacyReqId (payloadOf item)) (legacySuccess (payloadOf item)) :=
      ⟨item, life.mem_pushed (by rw [first]; exact List.mem_cons_self), cli, rfl, rfl⟩
    have stage := handleLegacy_stage own
    rw [← legacy] at stage
    have pending := open_of_legacy stage item
    rw [pending.2]
    refine life.move idle rfl (.legacy cli stage) ?_ ?_ told kept
    · rw [pending.1]
      exact taken
    · rw [pending.2]
      exact .refl _
  | true =>
    have command : processOne item.work.payload = handleCli (payloadOf item) := by
      apply if_neg
      intro none
      rw [isCli, payloadOf, none] at cli
      cases cli
    rw [command]
    rcases handleCli_implements (payloadOf item) with ⟨refused, malformed⟩ | stage
    · rw [refused]
      refine life.move idle rfl (.decided item _) ?_ (.refl _) (life.told.refuse cli malformed) kept
      exact taken
    · have pending := open_of_implements stage item
      rw [pending.2]
      refine life.move idle rfl (.cli cli stage) ?_ ?_ told kept
      · rw [pending.1]
        exact taken
      · rw [pending.2]
        exact .refl _

theorem act (life : Life server pushed ds sent) {i : ℕ} {item : Item} {h rest : Handler} {shared : Shared}
    (found : server.workers[i]? = some (.handling item h)) (acted : h.act server.shared = some (shared, rest)) :
    Life ({ server with shared }.setWorker i (.handling item rest)) pushed
      (ds ++ decided (.handling item rest)) (sent ++ []) := by
  have kept : ∀ d ∈ server.wire, ∃ item r, (item, r) ∈ sent ++ [] ∧ d.origin = item.origin ∧
      ∃ segment ∈ r.segments, d.bytes <:+: segment := by
    rw [List.append_nil]
    exact life.wire
  have staged := life.staged _ (List.mem_of_getElem? found)
  cases staged with
  | decided item r => cases acted
  | cli cli stage =>
    obtain ⟨r, rfl, told⟩ := life.told.act cli stage acted
    obtain ⟨call, next, rfl, -⟩ := stage
    exact life.move found rfl (.decided item r) (.refl _) (.refl _) told kept
  | legacy other stage =>
    have pending := open_of_legacy stage item
    have own : Genuine pushed (legacyReqId (payloadOf item)) (legacySuccess (payloadOf item)) :=
      ⟨item, life.mem_pushed_of_worker found (by rw [pending.1]; exact List.mem_cons_self), other, rfl, rfl⟩
    have goes {shared : Shared} {rest : Handler} (told : Told shared pushed ds)
        (stage : LegacyStage (Genuine pushed (legacyReqId (payloadOf item))) (payloadOf item) rest) :
        Life ({ server with shared }.setWorker i (.handling item rest)) pushed
          (ds ++ decided (.handling item rest)) (sent ++ []) := by
      have later := open_of_legacy stage item
      rw [← List.append_nil ds] at told
      rw [later.2]
      refine life.move found rfl (.legacy other stage) ?_ ?_ told kept
      · rw [pending.1, later.1]
        exact .refl _
      · rw [pending.2, later.2]
    cases legacyAct_of_act stage own (fun res hit => life.told.cached hit) acted with
    | looked stage => exact goes life.told stage
    | stored stage => exact goes (life.told.store own) stage
    | @logged res known =>
      refine life.move found rfl (.decided item _) ?_ ?_ (life.told.log other known) kept
      · rw [pending.1]
        exact .refl _
      · rw [pending.2, List.append_nil]

/-- A step of a worker that has its reply, or none. -/
theorem send (life : Life server pushed ds sent) {i : ℕ} {old new : Worker} (found : server.workers[i]? = some old)
    {given : List (Item × Reply)} (staged : Staged pushed (sent ++ given) new) (pending : undecided new = undecided old)
    (handed : (decided old).Perm (decided new ++ given)) {wire : List Delivery}
    (pieces : ∀ d ∈ wire, ∃ item r, (item, r) ∈ sent ++ given ∧ d.origin = item.origin ∧
      ∃ segment ∈ r.segments, d.bytes <:+: segment) :
    Life { server.setWorker i new with wire } pushed (ds ++ []) (sent ++ given) := by
  refine life.move found rfl staged ?_ handed ?_ pieces
  · rw [pending, List.map_nil, List.append_nil]
    exact .refl _
  · rw [List.append_nil]
    exact life.told

theorem step (life : Life server pushed ds sent) {e : Server.Event} (own : ServerLoop.ofWorker e = true)
    (stepped : server.step e = some next) :
    Life next pushed (ds ++ decisionAt server e) (sent ++ answerAt server e) := by
  have inside {i : ℕ} {worker : Worker} (found : server.workers[i]? = some worker) (new : Worker) :
      (server.workers.set i new)[i]? = some new :=
    List.getElem?_set_self (List.getElem?_eq_some_iff.mp found).1
  have unsent : ∀ d ∈ server.wire, ∃ item r, (item, r) ∈ sent ++ [] ∧ d.origin = item.origin ∧
      ∃ segment ∈ r.segments, d.bytes <:+: segment := by
    rw [List.append_nil]
    exact life.wire
  cases Server.workerMoves_of_step own stepped with
  | pop idle first =>
    rw [decisionAt_eq (.inl rfl) stepped (inside idle _)]
    exact life.pop idle first
  | act found acted =>
    rw [decisionAt_eq (.inr rfl) stepped (inside found _)]
    exact life.act found acted
  | @reply i item r found =>
    have given : answerAt server (.reply i) = [(item, r)] := by
      rw [answerAt, found]
      rfl
    rw [given]
    refine life.send found (.sending (List.mem_append_right _ List.mem_cons_self) ?_) rfl (.refl _) ?_
    · intro buffer member
      exact ⟨buffer, member, List.suffix_rfl⟩
    · intro d member
      obtain ⟨item, r, answered, rest⟩ := life.wire d member
      exact ⟨item, r, List.mem_append_left _ answered, rest⟩
  | done answer found => exact life.send found .idle rfl (.refl _) unsent
  | next answer found =>
    cases life.staged _ (List.mem_of_getElem? found) with
    | sending answered pieces =>
      refine life.send found (.sending (List.mem_append_left _ answered) ?_) (by rfl) (by exact .refl _) unsent
      exact fun buffer member => pieces buffer (List.mem_cons_of_mem _ member)
  | @wrote i item buffer left peer n answer found target =>
    cases life.staged _ (List.mem_of_getElem? found) with
    | @sending _ r _ answered pieces =>
      obtain ⟨segment, member, suffix⟩ := pieces buffer List.mem_cons_self
      refine life.send found (.sending (List.mem_append_left _ answered) ?_) (by rfl) (by exact .refl _) ?_
      · intro other among
        rcases List.mem_cons.mp among with rfl | later
        · exact ⟨segment, member, (List.drop_suffix n buffer).trans suffix⟩
        · exact pieces other (List.mem_cons_of_mem _ later)
      · intro d among
        rcases List.mem_append.mp among with before | new
        · exact unsent d before
        · cases List.mem_singleton.mp new
          refine ⟨item, r, List.mem_append_left _ answered, rfl, segment, member, ?_⟩
          exact (List.take_prefix n buffer).isInfix.trans suffix.isInfix
  | interrupted =>
    change Life server pushed (ds ++ []) (sent ++ [])
    rwa [List.append_nil, List.append_nil]

/-- Only the queue, the workers, the shared state, and the wire matter. -/
theorem congr (life : Life server pushed ds sent) (queue : next.queue = server.queue)
    (workers : next.workers = server.workers) (shared : next.shared = server.shared) (wire : next.wire = server.wire) :
    Life next pushed ds sent := by
  refine ⟨?_, ?_, ?_, ?_, ?_, ?_⟩
  · rw [workers]
    exact life.staged
  · rw [queue, workers]
    exact life.once
  · rw [queue, workers]
    exact life.whole
  · rw [workers]
    exact life.replies
  · rw [shared]
    exact life.told
  · rw [wire]
    exact life.wire

/-- A work is pushed; a full queue drops its oldest. -/
theorem push (life : Life server pushed ds sent) (item : Item) :
    Life (server.push item) (pushed ++ [item]) ds sent := by
  have later (queue rest : List Item) : (queue ++ [item] ++ rest).Perm (queue ++ rest ++ [item]) := by
    rw [List.append_assoc, List.append_assoc]
    exact List.perm_append_comm.append_left _
  refine ⟨?_, ?_, ?_, life.replies, life.told.mono [item], life.wire⟩
  · intro worker member
    have kept := (life.staged worker member).mono [item] []
    rwa [List.append_nil] at kept
  · rw [Server.push, pushBounded]
    refine (later _ _).subperm.trans ((List.subperm_append_right _).mpr ?_)
    split
    · exact ((List.tail_sublist _).append_right _).subperm.trans life.once
    · exact life.once
  · intro few
    rw [List.length_append, List.length_singleton] at few
    have all := life.whole (by omega)
    have room := all.length_eq
    rw [List.length_append] at room
    rw [Server.push, pushBounded, if_neg (by omega)]
    exact (later _ _).trans (all.append_right _)

theorem pushAll (life : Life server pushed ds sent) (items : List Item) :
    Life { server with queue := items.foldl pushBounded server.queue } (pushed ++ items) ds sent := by
  induction items generalizing server pushed with
  | nil =>
    rw [List.append_nil]
    exact life
  | cons item items ih =>
    have pushed := ih (life.push item)
    rw [List.append_assoc] at pushed
    exact pushed

/-- What is not a step of a worker pushes works, or touches nothing here. -/
theorem loop {s next : ServerLoop} {e : ServerLoop.Event} (life : Life s.server s.pushed ds sent)
    (stepped : ServerLoop.machine.step s e = some next) (other : ∀ own, e ≠ .worker own) :
    Life next.server next.pushed ds sent := by
  cases ServerLoop.moves_of_step stepped with
  | worker => exact absurd rfl (other _)
  | take => exact life.push _
  | recv serving result taken =>
    have received : s.server.recvData _ _ = _ := recvData_more taken
    dsimp only
    rw [received]
    exact (life.pushAll _).congr rfl rfl rfl rfl
  | _ => exact life.congr rfl rfl rfl rfl

end Life

end Life

section Run

variable {others : List ℤ} {udp : Bool} {workerCount : ℕ} {es : List ServerLoop.Event} {s : ServerLoop}

theorem life_run (ran : ServerLoop.machine.run (.start others udp workerCount) es = some s) :
    Life s.server s.pushed (decisions (.start others udp workerCount) es)
      (answers (.start others udp workerCount) es) := by
  refine EventMachine.invariant_history (fun past s => Life s.server s.pushed
    (decisions (.start others udp workerCount) past) (answers (.start others udp workerCount) past)) ?_ ?_ ran
  · intro past s e next before life stepped
    have shown (shows : Server → Server.Event → List (Item × Reply)) :
        ServerLoop.machine.emits (ofWorkers shows) (.start others udp workerCount) (past ++ [e]) =
          ServerLoop.machine.emits (ofWorkers shows) (.start others udp workerCount) past ++ ofWorkers shows s e :=
      EventMachine.emits_concat before e
    rw [decisions, answers, shown, shown]
    cases e with
    | worker e =>
      have moves : s.Moves (.worker e) next := ServerLoop.moves_of_step stepped
      cases moves with
      | worker own worked => exact life.step own worked
      | pass call => cases call
      | fault call => cases call
    | _ =>
      change Life _ _ (_ ++ []) (_ ++ [])
      rw [List.append_nil, List.append_nil]
      exact life.loop stepped (by simp)
  · exact .start _ _

/-- A client asks for a room, the only worker makes it, and the first four bytes of the reply go out. -/
def creation : List ServerLoop.Event :=
  [.connect, .send 0 ([0, 0, 0, 43] ++ literal "\x7b\"cmd\":\"create\",\"target\":\"room\",\"name\":\"a\"\x7d"),
    .wait [0], .accept, .accept, .wait [3], .read 3, .read 42, .worker (.pop 0), .worker (.act 0), .worker (.reply 0),
    .worker (.write 0 (.accept 3))]

theorem creation_ran : ∃ s item, ServerLoop.machine.run (.start [] true 1) creation = some s ∧
    decisions (.start [] true 1) creation = [(item, .ok)] ∧ s.pushed = [item] ∧ isCli item = true ∧
    s.server.wire = [⟨0, some 0, [0, 0, 0, 21]⟩] :=
  ⟨_, _, rfl, rfl, rfl, rfl, rfl⟩

/-- Every request that was pushed is decided at most once, and every decision is sent once or about to be sent by the
worker that made it. While the queue has never been full, no request is missing. -/
theorem requests_once (ran : ServerLoop.machine.run (.start others udp workerCount) es = some s) :
    ((decisions (.start others udp workerCount) es).map Prod.fst).Subperm s.pushed ∧
      (decisions (.start others udp workerCount) es).Perm
        (s.server.workers.flatMap decided ++ answers (.start others udp workerCount) es) ∧
      ((s.pushed.length : ℤ) ≤ queueDepth →
        (s.server.queue ++ (s.server.workers.flatMap undecided ++
          (decisions (.start others udp workerCount) es).map Prod.fst)).Perm s.pushed) := by
  have life := life_run ran
  refine ⟨?_, life.replies, life.whole⟩
  apply List.Subperm.trans _ life.once
  apply List.Sublist.subperm
  exact (List.sublist_append_right _ _).trans (List.sublist_append_right _ _)

theorem requests_once_creation : ∃ s item, ServerLoop.machine.run (.start [] true 1) creation = some s ∧
    s.pushed = [item] ∧
    [(item, Reply.ok)].Perm (s.server.workers.flatMap decided ++ answers (.start [] true 1) creation) := by
  obtain ⟨s, item, ran, made, pushed, -⟩ := creation_ran
  obtain ⟨-, replies, -⟩ := requests_once ran
  rw [made] at replies
  exact ⟨s, item, ran, pushed, replies⟩

/-- The registry and the replies to all CLI requests are those of the room service on these requests, one after the
other in the order they were decided. -/
theorem rooms_decided (ran : ServerLoop.machine.run (.start others udp workerCount) es = some s) :
    Registered s.server.shared.rooms
        (serveAll .empty ((cliOf (decisions (.start others udp workerCount) es)).map Prod.fst)).1 ∧
      (serveAll .empty ((cliOf (decisions (.start others udp workerCount) es)).map Prod.fst)).2 =
        (cliOf (decisions (.start others udp workerCount) es)).map Prod.snd := by
  have told := (life_run ran).told
  exact ⟨told.rooms, told.replies⟩

theorem rooms_decided_creation : ∃ s item, ServerLoop.machine.run (.start [] true 1) creation = some s ∧
    s.pushed = [item] ∧ Registered s.server.shared.rooms (serveAll .empty [item]).1 ∧
    (serveAll .empty [item]).2 = [.ok] := by
  obtain ⟨s, item, ran, made, pushed, cli, -⟩ := creation_ran
  have decided := rooms_decided ran
  rw [made] at decided
  simp only [cliOf, List.filter_cons, cli, if_true, List.filter_nil, List.map_cons, List.map_nil] at decided
  exact ⟨s, item, ran, pushed, decided⟩

/-- Every legacy request is logged once, when it is decided and before its reply is sent, with the result it is
answered with, and nothing else is logged. The result is its own, or that of a request with the same id. -/
theorem replies_logged (ran : ServerLoop.machine.run (.start others udp workerCount) es = some s) :
    s.server.shared.logged = (decisions (.start others udp workerCount) es).filterMap logLine ∧
      ∀ item r, (item, r) ∈ decisions (.start others udp workerCount) es → isCli item = false →
        ∃ res, r = .legacy (legacyReqId (payloadOf item)) res ∧
          Genuine s.pushed (legacyReqId (payloadOf item)) res := by
  have told := (life_run ran).told
  exact ⟨told.logged, told.legacy⟩

/-- A datagram without an id is logged under a dash. -/
theorem replies_logged_datagram : ∃ s item,
    ServerLoop.machine.run (.start [] true 1)
      [.sendto (literal "\x7b\"req_id\":\"\",\"op\":\"FAIL\"\x7d"), .wait [1], .recvfrom, .worker (.pop 0),
        .worker (.act 0)] = some s ∧
    s.pushed = [item] ∧ isCli item = false ∧ s.server.shared.logged = [(literal "-", 0)] := by
  have ran : ∃ s item,
      ServerLoop.machine.run (.start [] true 1)
        [.sendto (literal "\x7b\"req_id\":\"\",\"op\":\"FAIL\"\x7d"), .wait [1], .recvfrom, .worker (.pop 0),
          .worker (.act 0)] = some s ∧
      decisions (.start [] true 1)
        [.sendto (literal "\x7b\"req_id\":\"\",\"op\":\"FAIL\"\x7d"), .wait [1], .recvfrom, .worker (.pop 0),
          .worker (.act 0)] = [(item, .legacy [] 0)] ∧
      s.pushed = [item] ∧ isCli item = false := ⟨_, _, rfl, rfl, rfl, rfl⟩
  obtain ⟨s, item, ran, made, pushed, other⟩ := ran
  obtain ⟨logged, -⟩ := replies_logged ran
  rw [made] at logged
  exact ⟨s, item, ran, pushed, other, logged⟩

/-- Whatever is written to a connection is a piece of the reply to a request that was pushed. -/
theorem bytes_answer (ran : ServerLoop.machine.run (.start others udp workerCount) es = some s) :
    ∀ d ∈ s.server.wire, ∃ item r, (item, r) ∈ answers (.start others udp workerCount) es ∧ item ∈ s.pushed ∧
      d.origin = item.origin ∧ ∃ segment ∈ r.segments, d.bytes <:+: segment := by
  intro d member
  have life := life_run ran
  obtain ⟨item, r, answered, rest⟩ := life.wire d member
  refine ⟨item, r, answered, ?_, rest⟩
  apply life.once.subset
  apply List.mem_append_right
  apply List.mem_append_right
  have decision : (item, r) ∈ decisions (.start others udp workerCount) es :=
    life.replies.mem_iff.mpr (List.mem_append_right _ answered)
  exact List.mem_map.mpr ⟨_, decision, rfl⟩

theorem bytes_answer_creation : ∃ s item r, ServerLoop.machine.run (.start [] true 1) creation = some s ∧
    (item, r) ∈ answers (.start [] true 1) creation ∧ item ∈ s.pushed ∧ some 0 = item.origin ∧
    ∃ segment ∈ r.segments, [0, 0, 0, 21] <:+: segment := by
  obtain ⟨s, item, ran, -, -, -, wire⟩ := creation_ran
  obtain ⟨item, r, answered⟩ := bytes_answer ran ⟨0, some 0, [0, 0, 0, 21]⟩ (by rw [wire]; exact List.mem_cons_self)
  exact ⟨s, item, r, ran, answered⟩

end Run

end ProcessMonitor.Soundness.RequestLife
