import ProcessMonitor.Machine.Core.Run
import ProcessMonitor.Machine.Core.SlidingWindow
import ProcessMonitor.Soundness.RequestFields

/-! # Legacy requests served one after another

The deduplication table is overwritten in a circle, so it holds the newest misses: `Caches` ties
its slots and position to the list of all insertions, whoever made them. Served one at a time, a
miss inserts an id that no recent miss has, so recent ids stay distinct and the scan from slot 0
finds the only entry there is. Where the cached result came from is a separate matter: the key is
the first 63 bytes of what `json_get_str` takes for the id, or a default, and requests with different
ids can share it. Nor is the op it takes always that of the request.
-/

namespace ProcessMonitor.Soundness.DedupHistory

open Machine Machine.Posix Model.Vts

/-- The entry `dedup_put` writes. -/
def entryOf (insertion : Bytes × ℤ) : DedupEntry := ⟨insertion.1.take 63, insertion.2, true⟩

/-- The slot at which the scan for an id stops. -/
def slotOf (t : DedupTable) (id : Bytes) : ℕ := t.tab.findIdx fun entry => entry.used && entry.id = id

/-- The table after a list of insertions with nonempty ids that fit. -/
structure Caches (t : DedupTable) (insertions : List (Bytes × ℤ)) : Prop where
  window : Window ⟨[], 0, false⟩ dedupMax t.tab (insertions.map entryOf)
  position : t.pos = insertions.length % dedupMax
  fits : ∀ insertion ∈ insertions, insertion.1.length ≤ 63

namespace Caches

variable {t : DedupTable} {insertions : List (Bytes × ℤ)}

theorem start : Caches .start [] where
  window := Window.start _ _
  position := rfl
  fits _ member := absurd member List.not_mem_nil

theorem put (caches : Caches t insertions) {id : Bytes} (res : ℤ) (named : id ≠ []) (short : id.length ≤ 63) :
    Caches (t.dedupPut id res) (insertions ++ [(id, res)]) := by
  have written := caches.window.write (by decide) (entryOf (id, res))
  rw [List.length_map, ← caches.position] at written
  rw [DedupTable.dedupPut, if_neg named]
  refine ⟨?_, ?_, ?_⟩
  · rw [List.map_append]
    exact written
  · simp only [caches.position, List.length_append, List.length_singleton, Nat.mod_add_mod]
  · intro insertion member
    rcases List.mem_append.mp member with older | new
    · exact caches.fits insertion older
    · rw [List.mem_singleton.mp new]
      exact short

private theorem newest_map (n : ℕ) : newest n (insertions.map entryOf) = (newest n insertions).map entryOf := by
  rw [newest, newest, List.length_map, List.map_drop]

/-- The used entries are the newest insertions. -/
theorem mem_tab_iff (caches : Caches t insertions) (id : Bytes) (res : ℤ) :
    ⟨id, res, true⟩ ∈ t.tab ↔ (id, res) ∈ newest dedupMax insertions := by
  have uncut {insertion : Bytes × ℤ} (member : insertion ∈ newest dedupMax insertions) :
      entryOf insertion = ⟨insertion.1, insertion.2, true⟩ := by
    rw [entryOf, List.take_of_length_le (caches.fits insertion (List.mem_of_mem_drop member))]
  constructor
  · intro member
    have recent := caches.window.mem_newest member (by simp)
    rw [newest_map] at recent
    obtain ⟨insertion, inWindow, same⟩ := List.mem_map.mp recent
    rw [uncut inWindow] at same
    cases same
    exact inWindow
  · intro member
    apply caches.window.mem_slots
    rw [newest_map]
    exact List.mem_map.mpr ⟨(id, res), member, uncut member⟩

/-- A hit is a recent insertion of that id. -/
theorem mem_of_find (caches : Caches t insertions) {id : Bytes} {res : ℤ}
    (hit : t.dedupFind id = some res) : (id, res) ∈ newest dedupMax insertions := by
  obtain ⟨entry, found, rfl⟩ := Option.map_eq_some_iff.mp hit
  have matched := List.find?_some found
  simp only [Bool.and_eq_true, decide_eq_true_eq] at matched
  have member := List.mem_of_find?_eq_some found
  obtain ⟨entryId, entryResult, entryUsed⟩ := entry
  obtain ⟨rfl, rfl⟩ := matched
  exact (caches.mem_tab_iff entryId entryResult).mp member

/-- A hit reads the newest insertion into the slot where the scan stops. -/
theorem insertion_of_find (caches : Caches t insertions) {id : Bytes} {res : ℤ}
    (hit : t.dedupFind id = some res) :
    insertions[latest dedupMax insertions.length (slotOf t id)]? = some (id, res) ∧
      insertions.length ≤ latest dedupMax insertions.length (slotOf t id) + dedupMax := by
  obtain ⟨entry, found, rfl⟩ := Option.map_eq_some_iff.mp hit
  have matched := List.find?_some found
  simp only [Bool.and_eq_true, decide_eq_true_eq] at matched
  rw [List.find?_eq_getElem?_findIdx] at found
  have written : entry ≠ ⟨[], 0, false⟩ := by
    rintro rfl
    exact absurd matched.1 (by decide)
  obtain ⟨-, inserted, recent⟩ := caches.window.slot found written
  rw [List.length_map] at inserted recent
  rw [List.getElem?_map] at inserted
  obtain ⟨insertion, atSlot, rfl⟩ := Option.map_eq_some_iff.mp inserted
  have whole : insertion.1 = id := by
    rw [← matched.2, entryOf, List.take_of_length_le (caches.fits insertion (List.mem_of_getElem? atSlot))]
  exact ⟨atSlot.trans (congrArg some (Prod.ext whole rfl)), recent⟩

/-- A miss means that no recent insertion has the id. -/
theorem find_eq_none_iff (caches : Caches t insertions) (id : Bytes) :
    t.dedupFind id = none ↔ id ∉ (newest dedupMax insertions).map Prod.fst := by
  rw [DedupTable.dedupFind, Option.map_eq_none_iff, List.find?_eq_none]
  constructor
  · intro miss member
    obtain ⟨⟨_, res⟩, recent, rfl⟩ := List.mem_map.mp member
    exact miss _ ((caches.mem_tab_iff _ res).mpr recent) (by simp)
  · rintro absent ⟨entryId, entryResult, entryUsed⟩ member matched
    simp only [Bool.and_eq_true, decide_eq_true_eq] at matched
    obtain ⟨rfl, rfl⟩ := matched
    exact absent (List.mem_map.mpr ⟨_, (caches.mem_tab_iff entryId entryResult).mp member, rfl⟩)

/-- Distinct recent ids are held by distinct slots. -/
theorem slot_unique (caches : Caches t insertions)
    (distinct : ((newest dedupMax insertions).map Prod.fst).Nodup) {i j : ℕ} {x y : DedupEntry}
    (atI : t.tab[i]? = some x) (atJ : t.tab[j]? = some y) (usedX : x.used = true) (usedY : y.used = true)
    (same : x.id = y.id) : i = j := by
  have keys : ((newest dedupMax (insertions.map entryOf)).map DedupEntry.id).Nodup := by
    rw [newest_map, List.map_map]
    refine (List.map_congr_left fun insertion member => ?_) ▸ distinct
    exact (List.take_of_length_le (caches.fits insertion (List.mem_of_mem_drop member))).symm
  have written {z : DedupEntry} (used : z.used = true) : z ≠ ⟨[], 0, false⟩ := by
    rintro rfl
    exact absurd used (by decide)
  exact caches.window.index_unique DedupEntry.id keys atI atJ (written usedX) (written usedY) same

end Caches

theorem legacyReqId_length_le (payload : Bytes) : (legacyReqId payload).length ≤ 63 := by
  rw [legacyReqId, jsonGetStr_eq _ _ (by decide)]
  cases jsonField payload (literal "req_id") with
  | none => decide
  | some value => exact List.length_take_le 63 value

/-- `handle_legacy` alone, on a request with an id. -/
theorem exec_handleLegacy (payload : Bytes) (s : Shared) (named : legacyReqId payload ≠ []) :
    (handleLegacy payload).exec s =
      match s.dedup.dedupFind (legacyReqId payload) with
      | some cached =>
        ({ s with logged := s.logged ++ [(legacyReqId payload, cached)] },
          .legacy (legacyReqId payload) cached)
      | none =>
        ({ s with
            dedup := s.dedup.dedupPut (legacyReqId payload) (legacySuccess payload)
            logged := s.logged ++ [(legacyReqId payload, legacySuccess payload)] },
          .legacy (legacyReqId payload) (legacySuccess payload)) := by
  rw [handleLegacy, if_neg named, Handler.exec]
  cases s.dedup.dedupFind (legacyReqId payload) with
  | some cached => rfl
  | none =>
    rw [answerLegacy, if_neg named]
    rfl

/-- An empty id is neither looked up nor inserted. -/
theorem exec_handleLegacy_unnamed (payload : Bytes) (s : Shared) (unnamed : legacyReqId payload = []) :
    (handleLegacy payload).exec s =
      ({ s with logged := s.logged ++ [(literal "-", legacySuccess payload)] },
        .legacy [] (legacySuccess payload)) := by
  rw [handleLegacy, if_pos unnamed, answerLegacy, if_pos unnamed, unnamed]
  rfl

/-- Legacy requests served so far, with the replies they got and the misses in their order. -/
structure LegacyRun where
  shared : Shared
  served : List (Bytes × Reply)
  misses : List (Bytes × ℤ)

namespace LegacyRun

def start : LegacyRun := ⟨.start, [], []⟩

def serve (s : LegacyRun) (payload : Bytes) : LegacyRun where
  shared := ((handleLegacy payload).exec s.shared).1
  served := s.served ++ [(payload, ((handleLegacy payload).exec s.shared).2)]
  misses :=
    if legacyReqId payload ≠ [] ∧ s.shared.dedup.dedupFind (legacyReqId payload) = none then
      s.misses ++ [(legacyReqId payload, legacySuccess payload)]
    else s.misses

def machine : EventMachine LegacyRun Bytes := ⟨fun s payload => some (s.serve payload)⟩

theorem serve_unnamed (s : LegacyRun) {payload : Bytes} (unnamed : legacyReqId payload = []) :
    (s.serve payload).shared.dedup = s.shared.dedup ∧ (s.serve payload).misses = s.misses ∧
      (s.serve payload).served = s.served ++ [(payload, .legacy [] (legacySuccess payload))] := by
  rw [serve, exec_handleLegacy_unnamed payload s.shared unnamed, if_neg fun named => named.1 unnamed]
  exact ⟨rfl, rfl, rfl⟩

theorem serve_hit (s : LegacyRun) {payload : Bytes} {cached : ℤ} (named : legacyReqId payload ≠ [])
    (hit : s.shared.dedup.dedupFind (legacyReqId payload) = some cached) :
    (s.serve payload).shared.dedup = s.shared.dedup ∧ (s.serve payload).misses = s.misses ∧
      (s.serve payload).served = s.served ++ [(payload, .legacy (legacyReqId payload) cached)] := by
  rw [serve, exec_handleLegacy payload s.shared named, hit, if_neg fun miss => nomatch miss.2]
  exact ⟨rfl, rfl, rfl⟩

theorem serve_miss (s : LegacyRun) {payload : Bytes} (named : legacyReqId payload ≠ [])
    (miss : s.shared.dedup.dedupFind (legacyReqId payload) = none) :
    (s.serve payload).shared.dedup =
        s.shared.dedup.dedupPut (legacyReqId payload) (legacySuccess payload) ∧
      (s.serve payload).misses = s.misses ++ [(legacyReqId payload, legacySuccess payload)] ∧
      (s.serve payload).served =
        s.served ++ [(payload, .legacy (legacyReqId payload) (legacySuccess payload))] := by
  rw [serve, exec_handleLegacy payload s.shared named, miss, if_pos ⟨named, rfl⟩]
  exact ⟨rfl, rfl, rfl⟩

end LegacyRun

/-- What serving keeps: the table holds the misses, and the recent ones have distinct ids. -/
structure Kept (s : LegacyRun) : Prop where
  caches : Caches s.shared.dedup s.misses
  distinct : ((newest dedupMax s.misses).map Prod.fst).Nodup

theorem kept_start : Kept .start := ⟨Caches.start, List.nodup_nil⟩

theorem Kept.serve {s : LegacyRun} (kept : Kept s) (payload : Bytes) : Kept (s.serve payload) := by
  by_cases named : legacyReqId payload = []
  · obtain ⟨dedup, misses, -⟩ := s.serve_unnamed named
    constructor
    · rw [dedup, misses]; exact kept.caches
    · rw [misses]; exact kept.distinct
  cases found : s.shared.dedup.dedupFind (legacyReqId payload) with
  | some cached =>
    obtain ⟨dedup, misses, -⟩ := s.serve_hit named found
    constructor
    · rw [dedup, misses]; exact kept.caches
    · rw [misses]; exact kept.distinct
  | none =>
    obtain ⟨dedup, misses, -⟩ := s.serve_miss named found
    have fresh := (kept.caches.find_eq_none_iff (legacyReqId payload)).mp found
    constructor
    · rw [dedup, misses]
      exact kept.caches.put (legacySuccess payload) named (legacyReqId_length_le payload)
    · rw [misses]
      apply List.Nodup.sublist ((newest_concat_sublist _ _ _).map Prod.fst)
      rw [List.map_append]
      apply List.Nodup.append kept.distinct (List.nodup_singleton _)
      simpa only [List.disjoint_singleton, List.map_cons, List.map_nil] using fresh

theorem kept_of_run {payloads : List Bytes} {s : LegacyRun}
    (reached : LegacyRun.machine.run .start payloads = some s) : Kept s := by
  apply EventMachine.invariant Kept _ kept_start reached
  rintro s payload next kept step
  cases step
  exact kept.serve payload

/-- The recent miss that a hit reads is the last miss of its id. -/
theorem Kept.last_miss {s : LegacyRun} (kept : Kept s) {id : Bytes} {cached : ℤ}
    (hit : s.shared.dedup.dedupFind id = some cached) :
    s.misses.reverse.find? (fun miss => miss.1 = id) = some (id, cached) := by
  have recent := kept.caches.mem_of_find hit
  have split : s.misses.reverse =
      (newest dedupMax s.misses).reverse ++ (s.misses.take (s.misses.length - dedupMax)).reverse := by
    rw [← List.reverse_append, newest, List.take_append_drop]
  rw [split, List.find?_append]
  cases found : (newest dedupMax s.misses).reverse.find? (fun miss => miss.1 = id) with
  | none =>
    have absent := List.find?_eq_none.mp found (id, cached) (List.mem_reverse.mpr recent)
    simp at absent
  | some miss =>
    have member := List.mem_reverse.mp (List.mem_of_find?_eq_some found)
    have same : miss.1 = id := by simpa using List.find?_some found
    rw [List.inj_on_of_nodup_map kept.distinct member recent same]
    rfl

/-- The table as a cache: what a request with an id meets after the requests served so far. -/
structure FifoCache (s : LegacyRun) : Prop where
  hits : ∀ payload, s.shared.dedup.dedupFind (legacyReqId payload) ≠ none ↔
    legacyReqId payload ∈ (newest dedupMax s.misses).map Prod.fst
  cached : ∀ payload result, legacyReqId payload ≠ [] →
    s.shared.dedup.dedupFind (legacyReqId payload) = some result →
      s.misses.reverse.find? (fun miss => miss.1 = legacyReqId payload) =
          some (legacyReqId payload, result) ∧
        (s.serve payload).shared.dedup = s.shared.dedup ∧
        (s.serve payload).served = s.served ++ [(payload, .legacy (legacyReqId payload) result)]
  unique : ∀ (i j : ℕ) (x y : DedupEntry), s.shared.dedup.tab[i]? = some x → s.shared.dedup.tab[j]? = some y →
    x.used = true → y.used = true → x.id = y.id → i = j
  position : s.shared.dedup.pos = s.misses.length % dedupMax

/-- Served one at a time, the table is a first-in-first-out cache of the last 4096 misses. -/
theorem dedupTable_fifoCache {payloads : List Bytes} {s : LegacyRun}
    (reached : LegacyRun.machine.run .start payloads = some s) : FifoCache s := by
  have kept := kept_of_run reached
  constructor
  · intro payload
    rw [ne_eq, kept.caches.find_eq_none_iff, not_not]
  · intro payload result named hit
    obtain ⟨dedup, -, served⟩ := s.serve_hit named hit
    exact ⟨kept.last_miss hit, dedup, served⟩
  · intro i j x y atI atJ usedX usedY same
    exact kept.caches.slot_unique kept.distinct atI atJ usedX usedY same
  · exact kept.caches.position

/-- A request and its retry: the second one is a hit. -/
theorem dedupTable_fifoCache_retry : ∃ s,
    LegacyRun.machine.run .start [literal "\x7b\"req_id\":\"a\"\x7d", literal "\x7b\"req_id\":\"a\"\x7d"] =
      some s ∧ FifoCache s := by
  have ran : ∃ s, LegacyRun.machine.run .start
      [literal "\x7b\"req_id\":\"a\"\x7d", literal "\x7b\"req_id\":\"a\"\x7d"] = some s := ⟨_, rfl⟩
  obtain ⟨s, reached⟩ := ran
  exact ⟨s, reached, dedupTable_fifoCache reached⟩

/-- Both requests have a `req_id` field, with the same whole value. -/
def SameReqId (earlier payload : Bytes) : Prop :=
  ∃ value, RequestFields.reqId earlier = some value ∧ RequestFields.reqId payload = some value

/-- An earlier request of the run carried the whole id of this one. -/
def Repeats (earlier : List (Bytes × Reply)) (payload : Bytes) : Prop :=
  ∃ served ∈ earlier, SameReqId served.1 payload

/-- A reply reports the result of the request's own op, unless the request repeats an id. -/
def Answers (earlier : List (Bytes × Reply)) (payload : Bytes) (reply : Reply) : Prop :=
  (∃ id, reply = .legacy id (RequestFields.ownResult payload)) ∨ Repeats earlier payload

/-- Deduplication never answers a request with the result of one that has another id. -/
def SoundDedup (s : LegacyRun) : Prop :=
  ∀ (k : ℕ) (payload : Bytes) (reply : Reply), s.served[k]? = some (payload, reply) →
    Answers (s.served.take k) payload reply

/-- The request repeats an id, or it gets its own result: each recent miss with the same cache key had it, and if
there is none, or the key is empty, the op as `json_get_str` takes it has the result of the request's own op. The key
is all that `handle_legacy` keeps of an id. -/
def KeyAgrees (s : LegacyRun) (payload : Bytes) : Prop :=
  Repeats s.served payload ∨
    (∀ miss ∈ newest dedupMax s.misses, legacyReqId payload ≠ [] → miss.1 = legacyReqId payload →
        miss.2 = RequestFields.ownResult payload) ∧
      ((legacyReqId payload = [] ∨ ∀ miss ∈ newest dedupMax s.misses, miss.1 ≠ legacyReqId payload) →
        legacySuccess payload = RequestFields.ownResult payload)

/-- Which result is reported decides the matter. -/
theorem answers_legacy_iff (earlier : List (Bytes × Reply)) (payload id : Bytes) (res : ℤ) :
    Answers earlier payload (.legacy id res) ↔ Repeats earlier payload ∨ res = RequestFields.ownResult payload := by
  rw [Answers, or_comm]
  apply or_congr_right
  constructor
  · rintro ⟨_, same⟩
    exact (Reply.legacy.inj same).2
  · rintro rfl
    exact ⟨id, rfl⟩

theorem soundDedup_concat {s next : LegacyRun} {payload : Bytes} {reply : Reply}
    (served : next.served = s.served ++ [(payload, reply)]) :
    SoundDedup next ↔ SoundDedup s ∧ Answers s.served payload reply := by
  constructor
  · intro sound
    constructor
    · intro k earlier answer found
      have bound := (List.getElem?_eq_some_iff.mp found).1
      have answers := sound k earlier answer (by rw [served, List.getElem?_append_left bound, found])
      rwa [served, List.take_append_of_le_length (Nat.le_of_lt bound)] at answers
    · have answers := sound s.served.length payload reply (by rw [served, List.getElem?_concat_length])
      rwa [served, List.take_left] at answers
  · rintro ⟨sound, answers⟩ k other answer found
    have bound := (List.getElem?_eq_some_iff.mp found).1
    rw [served] at found bound ⊢
    rw [List.length_append, List.length_singleton] at bound
    rcases Nat.lt_or_eq_of_le (Nat.le_of_lt_succ bound) with older | rfl
    · rw [List.getElem?_append_left older] at found
      rw [List.take_append_of_le_length (Nat.le_of_lt older)]
      exact sound k other answer found
    · rw [List.getElem?_concat_length] at found
      cases found
      rwa [List.take_left]

/-- One request is answered soundly exactly when its key agrees with the recent misses. -/
theorem Kept.soundDedup_serve_iff {s : LegacyRun} (kept : Kept s) (payload : Bytes) :
    SoundDedup (s.serve payload) ↔ SoundDedup s ∧ KeyAgrees s payload := by
  by_cases named : legacyReqId payload = []
  · rw [soundDedup_concat (s.serve_unnamed named).2.2, answers_legacy_iff]
    apply and_congr_right'
    apply or_congr_right
    constructor
    · exact fun own => ⟨fun _ _ other => absurd named other, fun _ => own⟩
    · exact fun agrees => agrees.2 (.inl named)
  cases found : s.shared.dedup.dedupFind (legacyReqId payload) with
  | none =>
    rw [soundDedup_concat (s.serve_miss named found).2.2, answers_legacy_iff]
    apply and_congr_right'
    apply or_congr_right
    have fresh : ∀ miss ∈ newest dedupMax s.misses, miss.1 ≠ legacyReqId payload := fun miss recent same =>
      (kept.caches.find_eq_none_iff _).mp found (List.mem_map.mpr ⟨miss, recent, same⟩)
    constructor
    · exact fun own => ⟨fun miss recent _ same => absurd same (fresh miss recent), fun _ => own⟩
    · exact fun agrees => agrees.2 (.inr fresh)
  | some cached =>
    rw [soundDedup_concat (s.serve_hit named found).2.2, answers_legacy_iff]
    apply and_congr_right'
    apply or_congr_right
    have recent := kept.caches.mem_of_find found
    constructor
    · intro own
      refine ⟨fun miss member _ same => ?_, ?_⟩
      · -- Recent ids are distinct, so this is the miss the hit has read.
        rw [List.inj_on_of_nodup_map kept.distinct member recent same]
        exact own
      · rintro (unnamed | fresh)
        · exact absurd unnamed named
        · exact absurd rfl (fresh _ recent)
    · exact fun agrees => agrees.1 _ recent named rfl

/-- A history is answered soundly exactly when every request's key agrees with the recent misses
at its turn. -/
theorem soundDedup_iff_keyAgrees {payloads : List Bytes} {s : LegacyRun}
    (reached : LegacyRun.machine.run .start payloads = some s) :
    SoundDedup s ↔ LegacyRun.machine.Along KeyAgrees .start payloads := by
  have initial : SoundDedup .start := fun k payload reply found => nomatch found
  have exact_run : SoundDedup s ↔ SoundDedup .start ∧ LegacyRun.machine.Along KeyAgrees .start payloads := by
    apply EventMachine.holds_iff_along Kept SoundDedup _ _ kept_start reached
    · rintro s payload next kept step
      cases step
      exact kept.serve payload
    · rintro s payload next kept step
      cases step
      exact kept.soundDedup_serve_iff payload
  rw [exact_run, and_iff_right initial]

theorem soundDedup_iff_keyAgrees_single : ∃ s,
    LegacyRun.machine.run .start [literal "\x7b\"req_id\":\"a\"\x7d"] = some s ∧
      (SoundDedup s ↔ LegacyRun.machine.Along KeyAgrees .start [literal "\x7b\"req_id\":\"a\"\x7d"]) := by
  have ran : ∃ s, LegacyRun.machine.run .start [literal "\x7b\"req_id\":\"a\"\x7d"] = some s := ⟨_, rfl⟩
  obtain ⟨s, reached⟩ := ran
  exact ⟨s, reached, soundDedup_iff_keyAgrees reached⟩

/-- A request that misses in an empty table, and one that shares its key and not its id. -/
theorem second_answered_with_first {first second : Bytes} (named : legacyReqId first ≠ [])
    (shared : legacyReqId second = legacyReqId first) (fails : legacySuccess first = 0)
    (succeeds : RequestFields.ownResult second = 1) (other : ¬ SameReqId first second) :
    ∃ s, LegacyRun.machine.run .start [first, second] = some s ∧
      s.served = [(first, .legacy (legacyReqId first) 0), (second, .legacy (legacyReqId first) 0)] ∧
      ¬ SoundDedup s := by
  have miss := @LegacyRun.serve_miss .start first named ((Caches.start.find_eq_none_iff _).mpr List.not_mem_nil)
  have found : (LegacyRun.start.serve first).shared.dedup.dedupFind (legacyReqId second) = some 0 := by
    have caches := (kept_start.serve first).caches
    have recent : newest dedupMax (LegacyRun.start.serve first).misses = [(legacyReqId first, 0)] := by
      rw [miss.2.1, fails]
      exact newest_concat 4095 [] _
    rw [shared]
    cases hit : (LegacyRun.start.serve first).shared.dedup.dedupFind (legacyReqId first) with
    | none =>
      rw [caches.find_eq_none_iff, recent] at hit
      exact absurd List.mem_cons_self hit
    | some cached =>
      have only := caches.mem_of_find hit
      rw [recent, List.mem_singleton] at only
      exact congrArg some (Prod.mk.inj only).2
  have hit := @LegacyRun.serve_hit (LegacyRun.start.serve first) second 0 (shared ▸ named) found
  have served := hit.2.2
  rw [miss.2.2, shared, fails] at served
  refine ⟨_, rfl, served, ?_⟩
  intro sound
  have answers := sound 1 second (.legacy (legacyReqId first) 0) (by rw [served]; rfl)
  rw [answers_legacy_iff, succeeds] at answers
  rcases answers with ⟨earlier, member, same⟩ | impossible
  · rw [served] at member
    obtain rfl := List.mem_singleton.mp member
    exact other same
  · exact absurd impossible (by decide)

/-- Two requests without an id share the default key, and two whose ids are numbers share the name of the member behind
them: the second one, which would succeed, is answered with the failure of the first. -/
theorem anonymous_requests_share_result :
    (∃ s, LegacyRun.machine.run .start [literal "\x7b\"op\":\"FAIL\"\x7d", literal "\x7b\"op\":\"X\"\x7d"] = some s ∧
      s.served = [(literal "\x7b\"op\":\"FAIL\"\x7d", .legacy (literal "noid") 0),
        (literal "\x7b\"op\":\"X\"\x7d", .legacy (literal "noid") 0)] ∧ ¬ SoundDedup s) ∧
    ∃ s, LegacyRun.machine.run .start [literal "\x7b\"req_id\":1,\"op\":\"FAIL\"\x7d",
        literal "\x7b\"req_id\":2,\"op\":\"X\"\x7d"] = some s ∧
      s.served = [(literal "\x7b\"req_id\":1,\"op\":\"FAIL\"\x7d", .legacy (literal "op") 0),
        (literal "\x7b\"req_id\":2,\"op\":\"X\"\x7d", .legacy (literal "op") 0)] ∧ ¬ SoundDedup s := by
  constructor
  · have noId : RequestFields.reqId (literal "\x7b\"op\":\"X\"\x7d") = none := by decide +kernel
    refine second_answered_with_first (by decide) (by decide) (by decide) (by decide +kernel) ?_
    rintro ⟨value, -, own⟩
    cases noId.symm.trans own
  · have first : RequestFields.reqId (literal "\x7b\"req_id\":1,\"op\":\"FAIL\"\x7d") = some (literal "1") := by
      decide +kernel
    have second : RequestFields.reqId (literal "\x7b\"req_id\":2,\"op\":\"X\"\x7d") = some (literal "2") := by
      decide +kernel
    refine second_answered_with_first (by decide +kernel) (by decide +kernel) (by decide +kernel) (by decide +kernel) ?_
    rintro ⟨value, earlier, own⟩
    rw [first] at earlier
    rw [second, ← earlier] at own
    exact absurd own (by decide)

end ProcessMonitor.Soundness.DedupHistory
