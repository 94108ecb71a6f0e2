import ProcessMonitor.Model.Vts.WorkerPool
import ProcessMonitor.Soundness.DedupHistory

/-! # Legacy requests handled at the same time

The lookup and the insertion of `handle_legacy` are two critical sections, so two workers with one id
can both miss before either inserts. Runs are recorded with every insertion and with how each request
with an id was decided: by the entry its lookup found, or by its own insertion. As long as no worker
looks an id up while another one is between its missed lookup and its insertion of that id, recent
insertions have distinct ids, and an answer is the same for as long as the insertion it came from stays
in the table. A hit does not renew an entry, so that is counted from the insertion and not from the reply.
-/

namespace ProcessMonitor.Soundness.DedupRace

open Machine Machine.Posix Model.Vts DedupHistory

/-- How a request with an id got its result: from insertion number `insertion`, at a time when
`before` insertions had been made. -/
structure Decision where
  request : ℕ
  id : Bytes
  result : ℤ
  insertion : ℕ
  before : ℕ
deriving DecidableEq, Repr

structure DedupRun where
  pool : WorkerPool
  insertions : List (Bytes × ℤ)
  decisions : List Decision

namespace DedupRun

def start : DedupRun := ⟨.start, [], []⟩

/-- The decision a lookup makes, none if it misses. -/
def lookedUp (s : DedupRun) (request : ℕ) (id : Bytes) : Option Decision :=
  (s.pool.shared.dedup.dedupFind id).map fun result =>
    ⟨request, id, result, latest dedupMax s.insertions.length (slotOf s.pool.shared.dedup id),
      s.insertions.length⟩

/-- The record after a request's next section has led to `pool`. -/
def record (s : DedupRun) (pool : WorkerPool) (request : ℕ) : Handler → DedupRun
  | .dedupPut id res _ =>
    { pool
      insertions := s.insertions ++ [(id, res)]
      decisions := s.decisions ++ [⟨request, id, res, s.insertions.length, s.insertions.length⟩] }
  | .dedupFind id _ => { s with pool, decisions := s.decisions ++ (s.lookedUp request id).toList }
  | _ => { s with pool }

def step (s : DedupRun) : WorkerPool.Event → Option DedupRun
  | .act request => do
    let pool ← s.pool.step handleLegacy (.act request)
    let h ← s.pool.jobs[request]?.bind Job.rest
    some (s.record pool request h)
  | event => (s.pool.step handleLegacy event).map fun pool => { s with pool }

def machine : EventMachine DedupRun WorkerPool.Event := ⟨step⟩

/-- What a step can do. -/
theorem step_cases {s next : DedupRun} {event : WorkerPool.Event} (success : s.step event = some next) :
    (∃ payload, event = .take payload ∧ next = { s with pool := s.pool.takeJob handleLegacy payload }) ∨
    (∃ request payload h shared rest, event = .act request ∧
      s.pool.jobs[request]? = some ⟨payload, some h⟩ ∧ h.act s.pool.shared = some (shared, rest) ∧
      next = s.record (s.pool.actJob request payload shared rest) request h) ∨
    (∃ request payload r, event = .send request ∧ s.pool.jobs[request]? = some ⟨payload, some (.reply r)⟩ ∧
      next = { s with pool := s.pool.sendJob request payload r }) := by
  cases event with
  | take payload =>
    cases success
    exact .inl ⟨payload, rfl, rfl⟩
  | act request =>
    obtain ⟨pool, stepped, success⟩ := Option.bind_eq_some_iff.mp success
    rcases WorkerPool.step_cases stepped with ⟨_, other, _⟩ | ⟨_, payload, h, shared, rest, same, found, acted, rfl⟩ |
      ⟨_, _, _, other, _⟩
    · cases other
    · cases same
      rw [found] at success
      cases success
      exact .inr (.inl ⟨request, payload, h, shared, rest, rfl, found, acted, rfl⟩)
    · cases other
  | send request =>
    obtain ⟨pool, stepped, rfl⟩ := Option.map_eq_some_iff.mp success
    rcases WorkerPool.step_cases stepped with ⟨_, other, _⟩ | ⟨_, _, _, _, _, other, _⟩ |
      ⟨_, payload, r, same, found, rfl⟩
    · cases other
    · cases other
    · cases same
      exact .inr (.inr ⟨request, payload, r, rfl, found, rfl⟩)

end DedupRun

/-- A request has been decided with this result, if it has an id at all. -/
def Settled (decisions : List Decision) (request : ℕ) (id : Bytes) (result : ℤ) : Prop :=
  id ≠ [] → ∃ d ∈ decisions, d.request = request ∧ d.id = id ∧ d.result = result

/-- How far `handle_legacy` has come, and what the record says about it. -/
inductive Stage (insertions : List (Bytes × ℤ)) (decisions : List Decision) (request : ℕ) (payload : Bytes) :
    Option Handler → Prop
  | asks (named : legacyReqId payload ≠ []) (undecided : request ∉ decisions.map Decision.request) :
    Stage insertions decisions request payload
      (some (.dedupFind (legacyReqId payload) (answerLegacy payload)))
  | inserts (next : Handler) (named : legacyReqId payload ≠ []) (undecided : request ∉ decisions.map Decision.request)
      (absent : legacyReqId payload ∉ (newest dedupMax insertions).map Prod.fst)
      (answers : next = .logWriteReqResult (legacyReqId payload) (legacySuccess payload)
        (.reply (.legacy (legacyReqId payload) (legacySuccess payload)))) :
    Stage insertions decisions request payload
      (some (.dedupPut (legacyReqId payload) (legacySuccess payload) next))
  | logs (name : Bytes) (result : ℤ) (settled : Settled decisions request (legacyReqId payload) result) :
    Stage insertions decisions request payload
      (some (.logWriteReqResult name result (.reply (.legacy (legacyReqId payload) result))))
  | replies (result : ℤ) (settled : Settled decisions request (legacyReqId payload) result) :
    Stage insertions decisions request payload (some (.reply (.legacy (legacyReqId payload) result)))
  | done : Stage insertions decisions request payload none

/-- At most one request is about to insert a given id. -/
def Single (jobs : List Job) : Prop :=
  ∀ (i j : ℕ) payload other id res result next rest, jobs[i]? = some ⟨payload, some (.dedupPut id res next)⟩ →
    jobs[j]? = some ⟨other, some (.dedupPut id result rest)⟩ → i = j

/-- No other request is about to insert the id that this step looks up. -/
def Alone (s : DedupRun) (event : WorkerPool.Event) : Prop :=
  ∀ (request : ℕ) payload id next, event = .act request →
    s.pool.jobs[request]? = some ⟨payload, some (.dedupFind id next)⟩ →
      ∀ (other : ℕ) otherPayload res rest, s.pool.jobs[other]? ≠ some ⟨otherPayload, some (.dedupPut id res rest)⟩

/-- What lookups made alone keep. -/
structure Settles (s : DedupRun) : Prop where
  caches : Caches s.pool.shared.dedup s.insertions
  distinct : ((newest dedupMax s.insertions).map Prod.fst).Nodup
  stages : ∀ (request : ℕ) job, s.pool.jobs[request]? = some job →
    Stage s.insertions s.decisions request job.payload job.rest
  single : Single s.pool.jobs
  decided : ∀ d ∈ s.decisions, s.insertions[d.insertion]? = some (d.id, d.result)
  recent : ∀ d ∈ s.decisions, d.insertion ≤ d.before ∧ d.before ≤ d.insertion + dedupMax
  numbered : ∀ d ∈ s.decisions, d.request < s.pool.jobs.length
  once : (s.decisions.map Decision.request).Nodup
  sent : ∀ request id result, .respond request (.legacy id result) ∈ s.pool.history →
    Settled s.decisions request id result
  agree : ∀ d e, [d, e].Sublist s.decisions → d.id = e.id → e.before ≤ d.insertion + dedupMax →
    d.result = e.result

theorem settles_start : Settles .start where
  caches := Caches.start
  distinct := List.nodup_nil
  stages _ _ found := nomatch found
  single _ _ _ _ _ _ _ _ _ found := nomatch found
  decided _ member := nomatch member
  recent _ member := nomatch member
  numbered _ member := nomatch member
  once := List.nodup_nil
  sent _ _ _ member := nomatch member
  agree _ _ pair := nomatch pair

theorem Single.set {jobs : List Job} (single : Single jobs) (request : ℕ) {new : Job}
    (alone : ∀ id res next, new.rest = some (.dedupPut id res next) →
      ∀ (other : ℕ) otherPayload result rest, jobs[other]? ≠ some ⟨otherPayload, some (.dedupPut id result rest)⟩) :
    Single (jobs.set request new) := by
  intro i j payload other id res result next rest atI atJ
  rcases thread_of_set atI with ⟨rfl, rfl⟩ | ⟨_, oldI⟩ <;>
    rcases thread_of_set atJ with ⟨rfl, same⟩ | ⟨_, oldJ⟩
  · rfl
  · exact absurd oldJ (alone id res next rfl j other result rest)
  · subst same
    exact absurd oldI (alone id result rest rfl i payload res next)
  · exact single i j payload other id res result next rest oldI oldJ

theorem Single.concat {jobs : List Job} (single : Single jobs) {new : Job}
    (asking : ∀ id res next, new.rest ≠ some (.dedupPut id res next)) : Single (jobs ++ [new]) := by
  intro i j payload other id res result next rest atI atJ
  rcases thread_of_concat atI with ⟨_, rfl⟩ | ⟨_, oldI⟩
  · exact absurd rfl (asking id res next)
  rcases thread_of_concat atJ with ⟨_, rfl⟩ | ⟨_, oldJ⟩
  · exact absurd rfl (asking id result rest)
  · exact single i j payload other id res result next rest oldI oldJ

theorem Settled.mono {decisions later : List Decision} {request : ℕ} {id : Bytes} {result : ℤ}
    (settled : Settled decisions request id result) (grows : decisions ⊆ later) :
    Settled later request id result := by
  intro named
  obtain ⟨d, member, facts⟩ := settled named
  exact ⟨d, grows member, facts⟩

/-- A decision about another request, with or without an insertion of another id. -/
theorem Stage.other {insertions : List (Bytes × ℤ)} {decisions : List Decision} {request : ℕ} {payload : Bytes}
    {rest : Option Handler} (stage : Stage insertions decisions request payload rest)
    {later : List (Bytes × ℤ)} {d : Decision} (apart : d.request ≠ request)
    (absent : ∀ res next, rest = some (.dedupPut (legacyReqId payload) res next) →
      legacyReqId payload ∉ (newest dedupMax insertions).map Prod.fst →
      legacyReqId payload ∉ (newest dedupMax later).map Prod.fst) :
    Stage later (decisions ++ [d]) request payload rest := by
  have still (undecided : request ∉ decisions.map Decision.request) :
      request ∉ (decisions ++ [d]).map Decision.request := by
    rw [List.map_append, List.mem_append, List.map_singleton, List.mem_singleton]
    rintro (older | new)
    exacts [undecided older, apart new.symm]
  cases stage with
  | asks named undecided => exact .asks named (still undecided)
  | inserts next named undecided missing answers =>
    exact .inserts next named (still undecided) (absent _ next rfl missing) answers
  | logs name result settled => exact .logs name result (settled.mono (List.subset_append_left _ _))
  | replies result settled => exact .replies result (settled.mono (List.subset_append_left _ _))
  | done => exact .done

theorem answerLegacy_none {payload : Bytes} (named : legacyReqId payload ≠ []) :
    answerLegacy payload none =
      .dedupPut (legacyReqId payload) (legacySuccess payload)
        (.logWriteReqResult (legacyReqId payload) (legacySuccess payload)
          (.reply (.legacy (legacyReqId payload) (legacySuccess payload)))) := by
  rw [answerLegacy, if_neg named]

/-- A request that has just been taken looks its id up first, or has none and logs at once. -/
theorem stage_handleLegacy (insertions : List (Bytes × ℤ)) {decisions : List Decision} {request : ℕ} (payload : Bytes)
    (undecided : request ∉ decisions.map Decision.request) :
    Stage insertions decisions request payload (some (handleLegacy payload)) ∧
      ∀ id res next, handleLegacy payload ≠ .dedupPut id res next := by
  by_cases named : legacyReqId payload = []
  · rw [handleLegacy, if_pos named, answerLegacy, if_pos named]
    exact ⟨.logs _ _ fun other => absurd named other, fun _ _ _ same => by cases same⟩
  · rw [handleLegacy, if_neg named]
    exact ⟨.asks named undecided, fun _ _ _ same => by cases same⟩

namespace Settles

variable {s : DedupRun}

/-- A step that neither inserts nor decides. -/
private theorem update (settles : Settles s) {pool : WorkerPool}
    (dedup : pool.shared.dedup = s.pool.shared.dedup) (longer : s.pool.jobs.length ≤ pool.jobs.length)
    (stages : ∀ (request : ℕ) job, pool.jobs[request]? = some job →
      Stage s.insertions s.decisions request job.payload job.rest)
    (single : Single pool.jobs)
    (sent : ∀ request id result, .respond request (.legacy id result) ∈ pool.history →
      Settled s.decisions request id result) : Settles { s with pool } where
  caches := by rw [dedup]; exact settles.caches
  distinct := settles.distinct
  stages := stages
  single := single
  decided := settles.decided
  recent := settles.recent
  numbered d member := Nat.lt_of_lt_of_le (settles.numbered d member) longer
  once := settles.once
  sent := sent
  agree := settles.agree

/-- The stages after one request's job has been replaced. -/
private theorem stages_set (settles : Settles s) {request : ℕ} {payload : Bytes} {rest : Option Handler}
    (stage : Stage s.insertions s.decisions request payload rest) (i : ℕ) (job : Job)
    (found : (s.pool.jobs.set request ⟨payload, rest⟩)[i]? = some job) :
    Stage s.insertions s.decisions i job.payload job.rest := by
  rcases thread_of_set found with ⟨rfl, rfl⟩ | ⟨_, old⟩
  · exact stage
  · exact settles.stages i job old

theorem take (settles : Settles s) (payload : Bytes) :
    Settles { s with pool := s.pool.takeJob handleLegacy payload } := by
  have undecided : s.pool.jobs.length ∉ s.decisions.map Decision.request := by
    intro member
    obtain ⟨d, inside, same⟩ := List.mem_map.mp member
    exact Nat.lt_irrefl _ (same ▸ settles.numbered d inside)
  obtain ⟨stage, asking⟩ := stage_handleLegacy s.insertions payload undecided
  apply settles.update
  · rfl
  · exact List.length_append ▸ Nat.le_add_right _ _
  · intro request job found
    rcases thread_of_concat found with ⟨rfl, rfl⟩ | ⟨_, old⟩
    · exact stage
    · exact settles.stages request job old
  · exact settles.single.concat fun id res next same => asking id res next (Option.some.inj same)
  · intro request id result member
    rcases List.mem_append.mp member with older | new
    · exact settles.sent request id result older
    · cases List.mem_singleton.mp new

theorem send (settles : Settles s) {request : ℕ} {payload : Bytes} {r : Reply}
    (found : s.pool.jobs[request]? = some ⟨payload, some (.reply r)⟩) :
    Settles { s with pool := s.pool.sendJob request payload r } := by
  have stage : Stage s.insertions s.decisions request payload (some (.reply r)) :=
    settles.stages request _ found
  apply settles.update
  · rfl
  · exact Nat.le_of_eq List.length_set.symm
  · exact settles.stages_set .done
  · exact settles.single.set request fun _ _ _ same => nomatch same
  · intro other id result member
    rcases List.mem_append.mp member with older | new
    · exact settles.sent other id result older
    · cases List.mem_singleton.mp new
      cases stage with
      | replies _ settled => exact settled

/-- Logging only brings the reply nearer. -/
theorem log (settles : Settles s) {request : ℕ} {payload name : Bytes} {result : ℤ}
    (settled : Settled s.decisions request (legacyReqId payload) result) :
    Settles
      { s with
        pool := s.pool.actJob request payload
          { s.pool.shared with logged := s.pool.shared.logged ++ [(name, result)] }
          (.reply (.legacy (legacyReqId payload) result)) } := by
  apply settles.update
  · rfl
  · exact Nat.le_of_eq List.length_set.symm
  · exact settles.stages_set (.replies result settled)
  · exact settles.single.set request fun _ _ _ same => nomatch same
  · exact settles.sent

/-- A missed lookup made alone is the only one about to insert its id. -/
theorem miss (settles : Settles s) {request : ℕ} {payload : Bytes} (named : legacyReqId payload ≠ [])
    (undecided : request ∉ s.decisions.map Decision.request)
    (missed : s.pool.shared.dedup.dedupFind (legacyReqId payload) = none)
    (alone : ∀ (other : ℕ) otherPayload res rest,
      s.pool.jobs[other]? ≠ some ⟨otherPayload, some (.dedupPut (legacyReqId payload) res rest)⟩) :
    Settles { s with pool := s.pool.actJob request payload s.pool.shared (answerLegacy payload none) } := by
  rw [answerLegacy_none named]
  have absent := (settles.caches.find_eq_none_iff _).mp missed
  apply settles.update
  · rfl
  · exact Nat.le_of_eq List.length_set.symm
  · exact settles.stages_set (.inserts _ named undecided absent rfl)
  · apply settles.single.set request
    rintro id res next same
    cases same
    exact alone
  · exact settles.sent

/-- A decision joins the record. It agrees with every earlier one whose insertion is still recent. -/
private theorem agree_concat (settles : Settles s) {new : Decision}
    (agrees : ∀ d ∈ s.decisions, d.id = new.id → new.before ≤ d.insertion + dedupMax → d.result = new.result)
    (d e : Decision) (pair : [d, e].Sublist (s.decisions ++ [new])) (same : d.id = e.id)
    (recent : e.before ≤ d.insertion + dedupMax) : d.result = e.result := by
  obtain ⟨front, back, split, inOld, inNew⟩ := List.sublist_append_iff.mp pair
  rcases List.sublist_singleton.mp inNew with rfl | rfl
  · rw [List.append_nil] at split
    exact settles.agree d e (split ▸ inOld) same recent
  · obtain ⟨rfl, rfl⟩ : front = [d] ∧ e = new := by
      have ends := List.append_inj' (show [d] ++ [e] = front ++ [new] from split) rfl
      exact ⟨ends.1.symm, List.singleton_inj.mp ends.2⟩
    exact agrees d (List.singleton_sublist.mp inOld) same recent

private theorem recent_concat (settles : Settles s) {new : Decision}
    (recent : new.insertion ≤ new.before ∧ new.before ≤ new.insertion + dedupMax) :
    ∀ d ∈ s.decisions ++ [new], d.insertion ≤ d.before ∧ d.before ≤ d.insertion + dedupMax := by
  intro d member
  rcases List.mem_append.mp member with older | last
  · exact settles.recent d older
  · rw [List.mem_singleton.mp last]
    exact recent

private theorem numbered_concat (settles : Settles s) {new : Decision} (inJobs : new.request < s.pool.jobs.length) :
    ∀ d ∈ s.decisions ++ [new], d.request < s.pool.jobs.length := by
  intro d member
  rcases List.mem_append.mp member with older | last
  · exact settles.numbered d older
  · rw [List.mem_singleton.mp last]
    exact inJobs

private theorem once_concat (settles : Settles s) {new : Decision}
    (undecided : new.request ∉ s.decisions.map Decision.request) :
    ((s.decisions ++ [new]).map Decision.request).Nodup := by
  rw [List.map_append]
  apply List.Nodup.append settles.once (List.nodup_singleton _)
  exact List.disjoint_singleton.mpr undecided

/-- A lookup that hits decides its request by the entry it finds. -/
theorem hit (settles : Settles s) {request : ℕ} {payload : Bytes} {result : ℤ}
    (inJobs : request < s.pool.jobs.length) (undecided : request ∉ s.decisions.map Decision.request)
    (found : s.pool.shared.dedup.dedupFind (legacyReqId payload) = some result) :
    Settles
      { s with
        pool := s.pool.actJob request payload s.pool.shared (answerLegacy payload (some result))
        decisions := s.decisions ++
          [⟨request, legacyReqId payload, result,
            latest dedupMax s.insertions.length (slotOf s.pool.shared.dedup (legacyReqId payload)),
            s.insertions.length⟩] } := by
  obtain ⟨inserted, recent⟩ := settles.caches.insertion_of_find found
  constructor
  · exact settles.caches
  · exact settles.distinct
  · intro i job inside
    rcases thread_of_set inside with ⟨rfl, rfl⟩ | ⟨apart, old⟩
    · exact .logs _ result fun _ => ⟨_, List.mem_append_right _ List.mem_cons_self, rfl, rfl, rfl⟩
    · exact (settles.stages i job old).other apart fun _ _ _ missing => missing
  · exact settles.single.set request fun _ _ _ same => nomatch same
  · intro d member
    rcases List.mem_append.mp member with older | new
    · exact settles.decided d older
    · rw [List.mem_singleton.mp new]
      exact inserted
  · exact settles.recent_concat ⟨Nat.le_of_lt (List.getElem?_eq_some_iff.mp inserted).1, recent⟩
  · intro d member
    change d.request < (s.pool.jobs.set request _).length
    rw [List.length_set]
    exact settles.numbered_concat inJobs d member
  · exact settles.once_concat undecided
  · intro other id answer member
    exact (settles.sent other id answer member).mono (List.subset_append_left _ _)
  · apply settles.agree_concat
    intro d member same stillRecent
    -- Recent insertions of one id are one insertion.
    have number := newest_index_unique Prod.fst settles.distinct (settles.decided d member) inserted
      stillRecent recent same
    have equal := (settles.decided d member).symm.trans (number ▸ inserted)
    exact (Prod.mk.inj (Option.some.inj equal)).2

/-- An insertion decides its request by itself. -/
theorem insert (settles : Settles s) {request : ℕ} {payload : Bytes} {next : Handler}
    (atRequest : s.pool.jobs[request]? =
      some ⟨payload, some (.dedupPut (legacyReqId payload) (legacySuccess payload) next)⟩)
    (named : legacyReqId payload ≠ []) (undecided : request ∉ s.decisions.map Decision.request)
    (absent : legacyReqId payload ∉ (newest dedupMax s.insertions).map Prod.fst)
    (answers : next = .logWriteReqResult (legacyReqId payload) (legacySuccess payload)
      (.reply (.legacy (legacyReqId payload) (legacySuccess payload)))) :
    Settles
      { pool := s.pool.actJob request payload
          { s.pool.shared with
            dedup := s.pool.shared.dedup.dedupPut (legacyReqId payload) (legacySuccess payload) } next
        insertions := s.insertions ++ [(legacyReqId payload, legacySuccess payload)]
        decisions := s.decisions ++
          [⟨request, legacyReqId payload, legacySuccess payload, s.insertions.length, s.insertions.length⟩] } := by
  have window : ((newest dedupMax (s.insertions ++ [(legacyReqId payload, legacySuccess payload)])).map
      Prod.fst).Sublist ((newest dedupMax s.insertions).map Prod.fst ++ [legacyReqId payload]) := by
    have shrinks := (newest_concat_sublist dedupMax s.insertions (legacyReqId payload, legacySuccess payload)).map
      Prod.fst
    rwa [List.map_append] at shrinks
  constructor
  · exact settles.caches.put _ named (legacyReqId_length_le payload)
  · apply List.Nodup.sublist window
    apply List.Nodup.append settles.distinct (List.nodup_singleton _)
    exact List.disjoint_singleton.mpr absent
  · intro i job inside
    rcases thread_of_set inside with ⟨rfl, rfl⟩ | ⟨apart, old⟩
    · rw [answers]
      exact .logs _ _ fun _ => ⟨_, List.mem_append_right _ List.mem_cons_self, rfl, rfl, rfl⟩
    · apply (settles.stages i job old).other apart
      rintro res rest pending missing member
      -- Another pending insertion has another id, because at most one request inserts this one.
      rcases List.mem_append.mp (window.subset member) with older | new
      · exact missing older
      · have same := List.mem_singleton.mp new
        obtain ⟨otherPayload, otherRest⟩ := job
        dsimp only at pending same
        rw [pending, same] at old
        exact apart (settles.single _ _ _ _ _ _ _ _ _ atRequest old)
  · apply settles.single.set request
    rintro id res rest same
    rw [answers] at same
    cases same
  · intro d member
    rcases List.mem_append.mp member with older | new
    · rw [List.getElem?_append_left (List.getElem?_eq_some_iff.mp (settles.decided d older)).1]
      exact settles.decided d older
    · rw [List.mem_singleton.mp new, List.getElem?_concat_length]
  · exact settles.recent_concat ⟨Nat.le_refl _, Nat.le_add_right _ _⟩
  · intro d member
    change d.request < (s.pool.jobs.set request _).length
    rw [List.length_set]
    exact settles.numbered_concat (List.getElem?_eq_some_iff.mp atRequest).1 d member
  · exact settles.once_concat undecided
  · intro other id answer member
    exact (settles.sent other id answer member).mono (List.subset_append_left _ _)
  · apply settles.agree_concat
    intro d member same stillRecent
    have recent : (d.id, d.result) ∈ newest dedupMax s.insertions :=
      (mem_newest_iff _ _ _).mpr ⟨_, settles.decided d member, stillRecent⟩
    exact absurd (List.mem_map.mpr ⟨_, recent, same⟩) absent

theorem act (settles : Settles s) {request : ℕ} {payload : Bytes} {h rest : Handler} {shared : Shared}
    (alone : Alone s (.act request)) (found : s.pool.jobs[request]? = some ⟨payload, some h⟩)
    (acted : h.act s.pool.shared = some (shared, rest)) :
    Settles (s.record (s.pool.actJob request payload shared rest) request h) := by
  have stage : Stage s.insertions s.decisions request payload (some h) := settles.stages request _ found
  cases stage with
  | asks named undecided =>
    cases acted
    rw [DedupRun.record, DedupRun.lookedUp]
    cases answer : s.pool.shared.dedup.dedupFind (legacyReqId payload) with
    | some result => exact settles.hit (List.getElem?_eq_some_iff.mp found).1 undecided answer
    | none =>
      rw [Option.map_none, Option.toList_none, List.append_nil]
      exact settles.miss named undecided answer (alone request payload _ _ rfl found)
  | inserts next named undecided absent answers =>
    cases acted
    exact settles.insert found named undecided absent answers
  | logs name result settled =>
    cases acted
    exact settles.log settled
  | replies result settled => cases acted

end Settles

/-- One answer for an id: its entry is the only one in use, every request is decided by one insertion of its id and of
its result, still in the table at the time, and two requests with the id have the same result if fewer than 4096
insertions follow the one that decided the first before the second is decided. -/
structure OneAnswer (s : DedupRun) : Prop where
  unique : ∀ (i j : ℕ) (x y : DedupEntry), s.pool.shared.dedup.tab[i]? = some x →
    s.pool.shared.dedup.tab[j]? = some y → x.used = true → y.used = true → x.id = y.id → i = j
  decided : ∀ request id result, .respond request (.legacy id result) ∈ s.pool.history → id ≠ [] →
    ∃ d ∈ s.decisions, d.request = request ∧ d.id = id ∧ d.result = result
  once : (s.decisions.map Decision.request).Nodup
  inserted : ∀ d ∈ s.decisions, s.insertions[d.insertion]? = some (d.id, d.result)
  recent : ∀ d ∈ s.decisions, d.insertion ≤ d.before ∧ d.before ≤ d.insertion + dedupMax
  agree : ∀ d e, [d, e].Sublist s.decisions → d.id = e.id → e.before ≤ d.insertion + dedupMax →
    d.result = e.result

/-- In every run whose lookups are made alone, concurrent requests with one id get one answer. -/
theorem alone_oneAnswer {events : List WorkerPool.Event} {s : DedupRun}
    (alone : DedupRun.machine.Along Alone .start events)
    (reached : DedupRun.machine.run .start events = some s) : OneAnswer s := by
  have settles : Settles s := by
    apply EventMachine.invariant_along Settles _ settles_start alone reached
    rintro s event next settles alone step
    rcases DedupRun.step_cases step with ⟨payload, rfl, rfl⟩ |
      ⟨request, payload, h, shared, rest, rfl, found, acted, rfl⟩ | ⟨request, payload, r, rfl, found, rfl⟩
    · exact settles.take payload
    · exact settles.act alone found acted
    · exact settles.send found
  constructor
  · intro i j x y atI atJ usedX usedY same
    exact settles.caches.slot_unique settles.distinct atI atJ usedX usedY same
  · exact settles.sent
  · exact settles.once
  · exact settles.decided
  · exact settles.recent
  · exact settles.agree

/-- A request that looks its id up with no other in progress. -/
theorem alone_oneAnswer_lookup : ∃ s,
    DedupRun.machine.Along Alone .start [.take (literal "\x7b\"req_id\":\"a\"\x7d"), .act 0] ∧
      DedupRun.machine.run .start [.take (literal "\x7b\"req_id\":\"a\"\x7d"), .act 0] = some s ∧ OneAnswer s := by
  have alone : DedupRun.machine.Along Alone .start [.take (literal "\x7b\"req_id\":\"a\"\x7d"), .act 0] := by
    refine ⟨fun _ _ _ _ same => (nomatch same), fun next taken => ⟨?_, fun _ _ => trivial⟩⟩
    cases taken
    rintro request payload id rest _ _ other otherPayload res after pending
    -- The only job is the one that looks up.
    obtain ⟨_, asking⟩ := @stage_handleLegacy [] [] 0 (literal "\x7b\"req_id\":\"a\"\x7d") List.not_mem_nil
    rcases thread_of_concat pending with ⟨_, same⟩ | ⟨_, older⟩
    · exact asking id res after (Option.some.inj (Job.mk.inj same).2).symm
    · exact nomatch older
  have ran : ∃ s, DedupRun.machine.run .start [.take (literal "\x7b\"req_id\":\"a\"\x7d"), .act 0] = some s :=
    ⟨_, rfl⟩
  obtain ⟨s, reached⟩ := ran
  exact ⟨s, alone, reached, alone_oneAnswer alone reached⟩

/-- A lookup that misses leads to the insertion. -/
theorem DedupRun.step_miss {s : DedupRun} {request : ℕ} {payload : Bytes}
    (found : s.pool.jobs[request]? = some ⟨payload, some (handleLegacy payload)⟩) (named : legacyReqId payload ≠ [])
    (missed : s.pool.shared.dedup.dedupFind (legacyReqId payload) = none) :
    DedupRun.machine.step s (.act request) =
      some { s with pool := s.pool.actJob request payload s.pool.shared (answerLegacy payload none) } := by
  rw [handleLegacy, if_neg named] at found
  simp only [machine, step, WorkerPool.step, found, bind, Option.bind_some, Handler.act, missed, record, lookedUp,
    Option.map_none, Option.toList_none, List.append_nil]

/-- Two requests with one id, one of which fails. -/
def failing : Bytes := literal "\x7b\"req_id\":\"a\",\"op\":\"FAIL\"\x7d"

def passing : Bytes := literal "\x7b\"req_id\":\"a\",\"op\":\"X\"\x7d"

/-- Both requests in progress with nothing inserted yet. -/
def inProgress (first second : Handler) : DedupRun :=
  ⟨⟨.start, [⟨failing, some first⟩, ⟨passing, some second⟩], [.invoke 0 failing, .invoke 1 passing], []⟩, [], []⟩

/-- What is left of a request after a missed lookup. -/
def afterMiss (id : Bytes) (res : ℤ) : Handler :=
  .dedupPut id res (.logWriteReqResult id res (.reply (.legacy id res)))

private theorem run_lookups : DedupRun.machine.run .start [.take failing, .take passing, .act 0, .act 1] =
    some (inProgress (afterMiss (literal "a") 0) (afterMiss (literal "a") 1)) := by
  have miss (id : Bytes) : Shared.start.dedup.dedupFind id = none :=
    (Caches.start.find_eq_none_iff id).mpr List.not_mem_nil
  have first : DedupRun.machine.step (inProgress (handleLegacy failing) (handleLegacy passing)) (.act 0) =
      some (inProgress (answerLegacy failing none) (handleLegacy passing)) :=
    DedupRun.step_miss rfl (by decide) (miss _)
  have second : DedupRun.machine.step (inProgress (answerLegacy failing none) (handleLegacy passing)) (.act 1) =
      some (inProgress (answerLegacy failing none) (answerLegacy passing none)) :=
    DedupRun.step_miss rfl (by decide) (miss _)
  have left : answerLegacy failing none = afterMiss (literal "a") 0 := by
    rw [answerLegacy_none (by decide), show legacyReqId failing = literal "a" by decide,
      show legacySuccess failing = 0 by decide]
    rfl
  have right : answerLegacy passing none = afterMiss (literal "a") 1 := by
    rw [answerLegacy_none (by decide), show legacyReqId passing = literal "a" by decide,
      show legacySuccess passing = 1 by decide]
    rfl
  have taken : DedupRun.machine.run .start [.take failing, .take passing] =
      some (inProgress (handleLegacy failing) (handleLegacy passing)) := rfl
  calc DedupRun.machine.run .start ([.take failing, .take passing] ++ [.act 0, .act 1])
    _ = some (inProgress (answerLegacy failing none) (answerLegacy passing none)) := by
      rw [EventMachine.run_append, taken, Option.bind_some, EventMachine.run_cons, first, Option.bind_some,
        EventMachine.run_cons, second, Option.bind_some, EventMachine.run_nil]
    _ = some (inProgress (afterMiss (literal "a") 0) (afterMiss (literal "a") 1)) := by rw [left, right]

/-- After two misses nothing keeps either worker from inserting. -/
private theorem run_insertions (id : Bytes) (r t : ℤ) : ∃ s,
    DedupRun.machine.run (inProgress (afterMiss id r) (afterMiss id t))
        [.act 0, .act 1, .act 0, .act 1, .send 0, .send 1] = some s ∧
      s.pool.shared.dedup = (DedupTable.start.dedupPut id r).dedupPut id t ∧
      s.pool.history = [.invoke 0 failing, .invoke 1 passing, .respond 0 (.legacy id r), .respond 1 (.legacy id t)] ∧
      s.insertions.length = 2 :=
  ⟨_, rfl, rfl, rfl, rfl⟩

/-! ## Eviction -/

/-- Some run whose lookups are made alone leads from one state to the other. -/
def Leads (s t : DedupRun) : Prop :=
  ∃ events, DedupRun.machine.Along Alone s events ∧ DedupRun.machine.run s events = some t

theorem Leads.trans {s t u : DedupRun} (first : Leads s t) (second : Leads t u) : Leads s u := by
  obtain ⟨events, alone, ran⟩ := first
  obtain ⟨later, aloneLater, ranLater⟩ := second
  refine ⟨events ++ later, EventMachine.along_append alone ran aloneLater, ?_⟩
  rw [EventMachine.run_append, ran, Option.bind_some, ranLater]

theorem leads_step {s t : DedupRun} {event : WorkerPool.Event} (alone : Alone s event)
    (step : s.step event = some t) : Leads s t := by
  refine ⟨[event], ⟨alone, fun _ _ => trivial⟩, ?_⟩
  exact Option.bind_eq_some_iff.mpr ⟨t, step, rfl⟩

theorem alone_of_ne {s : DedupRun} {event : WorkerPool.Event} (other : ∀ request, event ≠ .act request) :
    Alone s event := fun request _ _ _ same => absurd same (other request)

/-- The last request is the only one in progress. -/
structure Working (s : DedupRun) (earlier : List Job) (payload : Bytes) (h : Handler) : Prop where
  jobs : s.pool.jobs = earlier ++ [⟨payload, some h⟩]
  done : ∀ job ∈ earlier, job.rest = none

namespace Working

variable {s : DedupRun} {jobs : List Job} {payload : Bytes} {h : Handler}

theorem found (working : Working s jobs payload h) : s.pool.jobs[jobs.length]? = some ⟨payload, some h⟩ := by
  rw [working.jobs, List.getElem?_concat_length]

theorem alone (working : Working s jobs payload h) : Alone s (.act jobs.length) := by
  rintro request askingPayload id next same asks other otherPayload res rest pending
  cases same
  rw [working.found] at asks
  cases asks
  rw [working.jobs] at pending
  rcases thread_of_concat pending with ⟨-, last⟩ | ⟨-, older⟩
  · cases last
  · cases working.done _ (List.mem_of_getElem? older)

theorem act (working : Working s jobs payload h) {shared : Shared} {rest : Handler}
    (acted : h.act s.pool.shared = some (shared, rest)) :
    ∃ t, Leads s t ∧ Working t jobs payload rest ∧ t.pool.shared = shared ∧ t.pool.history = s.pool.history ∧
      t.insertions = (s.record s.pool jobs.length h).insertions := by
  have replaced : (s.pool.actJob jobs.length payload shared rest).jobs = jobs ++ [⟨payload, some rest⟩] := by
    rw [WorkerPool.actJob, working.jobs, List.set_append_right _ _ (Nat.le_refl _), Nat.sub_self]
    rfl
  have step : s.step (.act jobs.length) =
      some (s.record (s.pool.actJob jobs.length payload shared rest) jobs.length h) := by
    simp only [DedupRun.step, WorkerPool.step, working.found, bind, Option.bind_some, acted]
  refine ⟨_, leads_step working.alone step, ⟨?_, working.done⟩, ?_⟩
  · cases h <;> exact replaced
  · cases h <;> exact ⟨rfl, rfl, rfl⟩

theorem send {r : Reply} (working : Working s jobs payload (.reply r)) :
    ∃ t, Leads s t ∧ t.pool.jobs = jobs ++ [⟨payload, none⟩] ∧ t.pool.shared = s.pool.shared ∧
      t.pool.history = s.pool.history ++ [.respond jobs.length r] ∧ t.insertions = s.insertions := by
  have step : s.step (.send jobs.length) = some { s with pool := s.pool.sendJob jobs.length payload r } := by
    simp only [DedupRun.step, WorkerPool.step, working.found, bind, Option.bind_some, Option.map_some]
  refine ⟨_, leads_step (alone_of_ne fun _ => WorkerPool.Event.noConfusion) step, ?_, rfl, rfl, rfl⟩
  dsimp only [WorkerPool.sendJob]
  rw [working.jobs, List.set_append_right _ _ (Nat.le_refl _), Nat.sub_self]
  rfl

end Working

/-- No request is in progress. -/
structure Idle (s : DedupRun) : Prop where
  caches : Caches s.pool.shared.dedup s.insertions
  done : ∀ job ∈ s.pool.jobs, job.rest = none

theorem idle_start : Idle .start := ⟨Caches.start, fun _ member => absurd member List.not_mem_nil⟩

namespace Idle

variable {s : DedupRun} {payload : Bytes}

theorem take (idle : Idle s) (named : legacyReqId payload ≠ []) :
    ∃ t, Leads s t ∧ Working t s.pool.jobs payload (.dedupFind (legacyReqId payload) (answerLegacy payload)) ∧
      t.pool.shared = s.pool.shared ∧ t.insertions = s.insertions := by
  have handler : handleLegacy payload = .dedupFind (legacyReqId payload) (answerLegacy payload) := if_neg named
  have step : s.step (.take payload) = some { s with pool := s.pool.takeJob handleLegacy payload } := rfl
  refine ⟨_, leads_step (alone_of_ne fun _ => WorkerPool.Event.noConfusion) step, ⟨?_, idle.done⟩, rfl, rfl⟩
  rw [← handler]
  rfl

/-- A decided request is logged and answered. -/
theorem finish {jobs : List Job} {name : Bytes} {res : ℤ} {r : Reply}
    (working : Working s jobs payload (.logWriteReqResult name res (.reply r)))
    (caches : Caches s.pool.shared.dedup s.insertions) :
    ∃ next, Leads s next ∧ Idle next ∧ next.insertions = s.insertions ∧
      next.pool.history.getLast? = some (.respond jobs.length r) := by
  obtain ⟨t, logged, replies, shared, -, insertions⟩ := working.act (by rfl)
  obtain ⟨next, sent, jobsAfter, sharedAfter, history, insertionsAfter⟩ := replies.send
  refine ⟨next, logged.trans sent, ⟨?_, ?_⟩, insertionsAfter.trans insertions, ?_⟩
  · rw [sharedAfter, shared, insertionsAfter, insertions]
    exact caches
  · rw [jobsAfter]
    intro job member
    rcases List.mem_append.mp member with older | last
    · exact working.done job older
    · rw [List.mem_singleton.mp last]
  · rw [history, List.getLast?_concat]

/-- A request whose id is in the table is answered from it. -/
theorem hit (idle : Idle s) (named : legacyReqId payload ≠ []) {cached : ℤ}
    (found : s.pool.shared.dedup.dedupFind (legacyReqId payload) = some cached) :
    ∃ next, Leads s next ∧ Idle next ∧ next.insertions = s.insertions ∧
      next.pool.history.getLast? = some (.respond s.pool.jobs.length (.legacy (legacyReqId payload) cached)) := by
  obtain ⟨t, taken, working, shared, insertions⟩ := idle.take named
  obtain ⟨u, asked, decided, sharedAfter, -, kept⟩ := working.act (by rfl)
  rw [shared, found] at decided
  have same : u.insertions = s.insertions := kept.trans insertions
  obtain ⟨next, finished, idleNext, still, last⟩ := finish decided (by
    rw [sharedAfter, shared, same]
    exact idle.caches)
  exact ⟨next, (taken.trans asked).trans finished, idleNext, still.trans same, last⟩

/-- A request whose id is not in the table is decided by its own op, and its result is inserted. -/
theorem miss (idle : Idle s) (named : legacyReqId payload ≠ [])
    (absent : legacyReqId payload ∉ (newest dedupMax s.insertions).map Prod.fst) :
    ∃ next, Leads s next ∧ Idle next ∧
      next.insertions = s.insertions ++ [(legacyReqId payload, legacySuccess payload)] ∧
      next.pool.history.getLast? =
        some (.respond s.pool.jobs.length (.legacy (legacyReqId payload) (legacySuccess payload))) := by
  have missed := (idle.caches.find_eq_none_iff _).mpr absent
  obtain ⟨t, taken, working, shared, insertions⟩ := idle.take named
  obtain ⟨u, asked, inserting, sharedAsked, -, kept⟩ := working.act (by rfl)
  rw [shared, missed, answerLegacy_none named] at inserting
  obtain ⟨v, inserted, decided, sharedInserted, -, grown⟩ := inserting.act (by rfl)
  have before : u.insertions = s.insertions := kept.trans insertions
  have after : v.insertions = s.insertions ++ [(legacyReqId payload, legacySuccess payload)] := by
    rw [grown, ← before]
    rfl
  obtain ⟨next, finished, idleNext, still, last⟩ := finish decided (by
    rw [sharedInserted, sharedAsked, shared, after]
    exact idle.caches.put _ named (legacyReqId_length_le payload))
  exact ⟨next, ((taken.trans asked).trans inserted).trans finished, idleNext, still.trans after, last⟩

/-- Requests with ids of their own are all inserted. -/
theorem misses (idle : Idle s) (payloads : List Bytes) (named : ∀ payload ∈ payloads, legacyReqId payload ≠ [])
    (apart : (payloads.map legacyReqId).Nodup)
    (absent : ∀ payload ∈ payloads, legacyReqId payload ∉ s.insertions.map Prod.fst) :
    ∃ next, Leads s next ∧ Idle next ∧
      next.insertions = s.insertions ++ payloads.map fun payload => (legacyReqId payload, legacySuccess payload) := by
  induction payloads generalizing s with
  | nil => exact ⟨s, ⟨[], trivial, rfl⟩, idle, (List.append_nil _).symm⟩
  | cons payload payloads ih =>
    rw [List.forall_mem_cons] at named absent
    rw [List.map_cons, List.nodup_cons] at apart
    obtain ⟨t, served, idleAfter, inserted, -⟩ := idle.miss named.1 fun member =>
      absent.1 (List.map_subset Prod.fst (List.drop_subset _ _) member)
    obtain ⟨next, leads, idleNext, all⟩ := ih idleAfter named.2 apart.2 fun later member found => by
      rw [inserted, List.map_append, List.mem_append] at found
      rcases found with older | new
      · exact absent.2 later member older
      · rw [List.map_singleton, List.mem_singleton] at new
        exact apart.1 (List.mem_map.mpr ⟨later, member, new⟩)
    refine ⟨next, served.trans leads, idleNext, ?_⟩
    rw [all, inserted, List.map_cons, List.append_assoc, List.singleton_append]

end Idle

/-- One of 4096 ids of three letters. -/
def threeLetters (i : ℕ) : Bytes :=
  [UInt8.ofNat (97 + i / 256 % 16), UInt8.ofNat (97 + i / 16 % 16), UInt8.ofNat (97 + i % 16)]

private theorem toNat_letter (n : ℕ) : (UInt8.ofNat (97 + n % 16)).toNat = 97 + n % 16 := by
  rw [UInt8.toNat_ofNat']
  omega

theorem threeLetters_inj {i j : ℕ} (inI : i < 4096) (inJ : j < 4096) (same : threeLetters i = threeLetters j) :
    i = j := by
  have letters {m n : ℕ} (equal : UInt8.ofNat (97 + m % 16) = UInt8.ofNat (97 + n % 16)) : m % 16 = n % 16 := by
    have values := congrArg UInt8.toNat equal
    rw [toNat_letter, toNat_letter] at values
    omega
  obtain ⟨first, rest⟩ := List.cons.inj same
  obtain ⟨second, rest⟩ := List.cons.inj rest
  have high := letters first
  have middle := letters second
  have low := letters (List.cons.inj rest).1
  omega

theorem quote_not_mem_threeLetters (i : ℕ) : quote ∉ threeLetters i := by
  have letter (n : ℕ) : quote ≠ UInt8.ofNat (97 + n % 16) := by
    intro same
    have value := congrArg UInt8.toNat same
    rw [toNat_letter] at value
    have quoteValue : quote.toNat = 34 := rfl
    omega
  simp only [threeLetters, List.mem_cons, List.not_mem_nil, or_false, not_or]
  exact ⟨letter _, letter _, letter _⟩

/-- A request with such an id. -/
def lettered (i : ℕ) : Bytes :=
  FlatObject.objectText [⟨literal "req_id", threeLetters i, by decide, quote_not_mem_threeLetters i⟩]

theorem legacyReqId_lettered (i : ℕ) : legacyReqId (lettered i) = threeLetters i := by
  have field : jsonField (lettered i) (literal "req_id") = some (threeLetters i) := by
    refine (FlatObject.jsonField_objectText (by decide) (by decide) _).mpr ?_
    exact fun colonIn => absurd colonIn (by decide)
  rw [legacyReqId, jsonGetStr_eq _ _ (by decide), field]
  rfl

theorem lettered_apart (i : ℕ) : legacyReqId (lettered i) ≠ [] ∧ legacyReqId (lettered i) ≠ literal "a" := by
  rw [legacyReqId_lettered]
  refine ⟨List.cons_ne_nil _ _, fun same => ?_⟩
  have short : 3 = 1 := congrArg List.length same
  omega

/-- What is inserted for the ids of three letters before the last one. -/
def others : List (Bytes × ℤ) :=
  ((List.range 4095).map lettered).map fun payload => (legacyReqId payload, legacySuccess payload)

theorem length_others : others.length = 4095 := by rw [others, List.length_map, List.length_map, List.length_range]

theorem fst_mem_others {id : Bytes} (member : id ∈ others.map Prod.fst) :
    ∃ i < 4095, id = legacyReqId (lettered i) := by
  obtain ⟨_, inserted, rfl⟩ := List.mem_map.mp member
  obtain ⟨_, taken, rfl⟩ := List.mem_map.mp inserted
  obtain ⟨i, inRange, rfl⟩ := List.mem_map.mp taken
  exact ⟨i, List.mem_range.mp inRange, rfl⟩

theorem not_mem_others : literal "a" ∉ others.map Prod.fst ∧ legacyReqId (lettered 4095) ∉ others.map Prod.fst := by
  constructor <;> intro member <;> obtain ⟨i, inRange, same⟩ := fst_mem_others member
  · exact (lettered_apart i).2 same.symm
  · rw [legacyReqId_lettered, legacyReqId_lettered] at same
    have equal := threeLetters_inj (by omega) (by omega) same
    omega

/-- The table is full, and the oldest entry in it is that of a request that failed. -/
theorem exists_full : ∃ s, Leads .start s ∧ Idle s ∧ s.insertions = (literal "a", 0) :: others := by
  have named : legacyReqId failing ≠ [] := by decide
  obtain ⟨one, first, idle, inserted, -⟩ := idle_start.miss named List.not_mem_nil
  have entry : one.insertions = [(literal "a", 0)] := by
    rw [inserted, show legacyReqId failing = literal "a" by decide, show legacySuccess failing = 0 by decide]
    rfl
  have distinct : (((List.range 4095).map lettered).map legacyReqId).Nodup := by
    rw [List.map_map]
    refine List.Nodup.map_on ?_ List.nodup_range
    intro i inI j inJ same
    rw [List.mem_range] at inI inJ
    simp only [Function.comp_apply, legacyReqId_lettered] at same
    exact threeLetters_inj (by omega) (by omega) same
  obtain ⟨s, later, idleAfter, all⟩ := idle.misses ((List.range 4095).map lettered)
    (List.forall_mem_map.mpr fun i _ => (lettered_apart i).1) distinct
    (List.forall_mem_map.mpr fun i _ member => by
      rw [entry, List.map_singleton, List.mem_singleton] at member
      exact (lettered_apart i).2 member)
  exact ⟨s, first.trans later, idleAfter, by rw [all, entry]; rfl⟩

/-- A request finds the oldest entry of the full table. One more id evicts that entry, so the next request with its id
is decided anew: two insertions lie between the two replies. -/
theorem evicted_between_replies : ∃ s t : DedupRun, Leads .start s ∧ Leads s t ∧
    (∃ request, s.pool.history.getLast? = some (.respond request (.legacy (literal "a") 0))) ∧
    (∃ request, t.pool.history.getLast? = some (.respond request (.legacy (literal "a") 1))) ∧
    t.insertions.length = s.insertions.length + 2 := by
  have id : legacyReqId passing = literal "a" := by decide
  have named : legacyReqId passing ≠ [] := by decide
  obtain ⟨full, filled, idle, inserted⟩ := exists_full
  have window : newest dedupMax full.insertions = (literal "a", 0) :: others := by
    rw [newest, inserted, List.length_cons, length_others]
    rfl
  have found : full.pool.shared.dedup.dedupFind (legacyReqId passing) = some 0 := by
    rw [id]
    cases answer : full.pool.shared.dedup.dedupFind (literal "a") with
    | none =>
      rw [idle.caches.find_eq_none_iff, window] at answer
      exact absurd List.mem_cons_self answer
    | some cached =>
      have member := idle.caches.mem_of_find answer
      rw [window, List.mem_cons] at member
      rcases member with same | other
      · exact congrArg some (Prod.mk.inj same).2
      · exact absurd (List.mem_map.mpr ⟨_, other, rfl⟩) not_mem_others.1
  obtain ⟨s, asked, idleS, kept, repliedS⟩ := idle.hit named found
  obtain ⟨u, evicted, idleU, insertedU, -⟩ := @Idle.miss s (lettered 4095) idleS (lettered_apart 4095).1 (by
    rw [kept, window, List.map_cons, List.mem_cons, not_or]
    exact ⟨(lettered_apart 4095).2, not_mem_others.2⟩)
  have windowU : newest dedupMax u.insertions =
      others ++ [(legacyReqId (lettered 4095), legacySuccess (lettered 4095))] := by
    rw [newest, insertedU, kept, inserted, List.length_append, List.length_cons, length_others]
    rfl
  obtain ⟨t, decided, -, insertedT, repliedT⟩ := idleU.miss named (by
    rw [windowU, id, List.map_append, List.mem_append, not_or, List.map_singleton, List.mem_singleton]
    exact ⟨not_mem_others.1, (lettered_apart 4095).2.symm⟩)
  rw [id] at repliedS repliedT
  refine ⟨s, t, filled.trans asked, evicted.trans decided, ⟨_, repliedS⟩, ⟨_, repliedT⟩, ?_⟩
  rw [insertedT, insertedU, List.length_append, List.length_append]
  rfl

/-- Both workers look the id up before either inserts it: two entries hold it, and the two requests are answered
differently although only their own two insertions were ever made. And in a run whose lookups are all made alone, two
replies for one id differ with two insertions between them, because the entry that decided the first was about to be
evicted. -/
theorem concurrent_duplicates_disagree :
    (∃ s, DedupRun.machine.run .start ([.take failing, .take passing, .act 0, .act 1] ++
        [.act 0, .act 1, .act 0, .act 1, .send 0, .send 1]) = some s ∧
      s.pool.shared.dedup.tab[0]? = some ⟨literal "a", 0, true⟩ ∧
      s.pool.shared.dedup.tab[1]? = some ⟨literal "a", 1, true⟩ ∧
      .respond 0 (.legacy (literal "a") 0) ∈ s.pool.history ∧
      .respond 1 (.legacy (literal "a") 1) ∈ s.pool.history ∧ s.insertions.length = 2) ∧
    ∃ s t : DedupRun, Leads .start s ∧ Leads s t ∧
      (∃ request, s.pool.history.getLast? = some (.respond request (.legacy (literal "a") 0))) ∧
      (∃ request, t.pool.history.getLast? = some (.respond request (.legacy (literal "a") 1))) ∧
      t.insertions.length = s.insertions.length + 2 := by
  obtain ⟨s, reached, dedup, history, insertions⟩ := run_insertions (literal "a") 0 1
  refine ⟨⟨s, ?_, ?_, ?_, ?_, ?_, insertions⟩, evicted_between_replies⟩
  · rw [EventMachine.run_append, run_lookups, Option.bind_some]
    exact reached
  · rw [dedup]
    rfl
  · rw [dedup]
    rfl
  · simp [history]
  · simp [history]

end ProcessMonitor.Soundness.DedupRace
