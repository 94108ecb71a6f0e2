import ProcessMonitor.Machine.Core.KeyedList
import ProcessMonitor.Model.LocGen.RoomStore

/-! # The room store is a finite map

The nodes of the store form a chain in which no id occurs twice, so that the first node with an id is the
only one and the chain is a finite map from ids to rooms. Every call keeps it so and does to the chain what
its name says to the map; in particular every loop ends and no pointer is followed to a freed node.
-/

namespace ProcessMonitor.Soundness.RoomMap

open Machine Machine.Posix Model.LocGen

/-! ## The map -/

abbrev Rooms := Finmap fun _ : Bytes => Room

/-- The id of a room as a string. -/
def key (r : Room) : Bytes := cstr r.id

def afterCall (m : Rooms) : StoreCall → Rooms
  | .put r _ => m.insert (key r) r
  | .del id => m.erase (cstr id)
  | .get _ | .all => m

/-- What a call may return: of `room_store_all`, the first `count` items in any order. -/
def Answers (m : Rooms) : StoreCall → StoreResult → Prop
  | .put _ _, .put ret => ret = 0
  | .del id, .del ret => ret = if cstr id ∈ m then 0 else -1
  | .get id, .get ret out => out = m.lookup (cstr id) ∧ ret = if cstr id ∈ m then 0 else -1
  | .all, .all ret items count =>
    ret = 0 ∧ count ≤ items.length ∧ (items.take count : Multiset Room) = m.entries.map Sigma.snd ∧
      count = m.keys.card
  | _, _ => False

/-- The results of a sequence of calls on the map. -/
def Conforms : Rooms → List StoreCall → List StoreResult → Prop
  | _, [], [] => True
  | m, c :: calls, result :: results => Answers m c result ∧ Conforms (afterCall m c) calls results
  | _, _, _ => False

/-! ## The chain -/

theorem sameStr_iff {a b : Bytes} : sameStr a b = true ↔ cstr a = cstr b := decide_eq_true_iff

section Loops

variable {heap : Heap Room} {ptr : Option ℕ} {nodes before after : List (ℕ × Room)} {rounds : ℕ} {id : Bytes}

/-- `find_node` returns the first node with the id. -/
theorem findFrom_eq (chain : Chain heap ptr nodes) (enough : nodes.length ≤ rounds) (id : Bytes) :
    RoomStore.findFrom heap id rounds ptr = some ((nodes.find? fun node => key node.2 = cstr id).map Prod.fst) := by
  induction chain generalizing rounds with
  | nil => cases rounds <;> rfl
  | @cons address cell rest read tail ih =>
    obtain ⟨rounds, rfl⟩ : ∃ less, rounds = less + 1 := ⟨rounds - 1, by rw [List.length_cons] at enough; omega⟩
    rw [RoomStore.findFrom, read]
    simp only [bind, Option.bind_some]
    split
    · next same =>
      have found : key cell.value = cstr id := sameStr_iff.mp same
      rw [List.find?_cons_of_pos (by simpa using found)]
      rfl
    · next other =>
      have different : ¬ key cell.value = cstr id := fun same => other (sameStr_iff.mpr same)
      rw [ih (Nat.le_of_succ_le_succ enough), List.find?_cons_of_neg (by simpa using different)]

theorem countFrom_eq (chain : Chain heap ptr nodes) (enough : nodes.length ≤ rounds) :
    RoomStore.countFrom heap rounds ptr = some nodes.length := by
  induction chain generalizing rounds with
  | nil => cases rounds <;> rfl
  | @cons address cell rest read tail ih =>
    obtain ⟨rounds, rfl⟩ : ∃ less, rounds = less + 1 := ⟨rounds - 1, by rw [List.length_cons] at enough; omega⟩
    rw [RoomStore.countFrom, read]
    simp only [bind, Option.bind_some, ih (Nat.le_of_succ_le_succ enough), List.length_cons]

/-- The rooms of the nodes go into the array one after the other. -/
theorem fillFrom_eq (chain : Chain heap ptr nodes) (enough : nodes.length ≤ rounds) {written free : List Room}
    (fits : nodes.length ≤ free.length) :
    RoomStore.fillFrom heap rounds ptr written.length (written ++ free) =
      some (written ++ nodes.map Prod.snd ++ free.drop nodes.length) := by
  induction chain generalizing rounds written free with
  | nil => cases rounds <;> simp [RoomStore.fillFrom]
  | @cons address cell rest read tail ih =>
    obtain ⟨rounds, rfl⟩ : ∃ less, rounds = less + 1 := ⟨rounds - 1, by rw [List.length_cons] at enough; omega⟩
    obtain ⟨first, free, rfl⟩ := List.exists_cons_of_length_pos (Nat.lt_of_lt_of_le (Nat.succ_pos _) fits)
    have filled : RoomStore.fillFrom heap rounds cell.next (written ++ [cell.value]).length _ = _ :=
      ih (Nat.le_of_succ_le_succ enough) (Nat.le_of_succ_le_succ fits)
    rw [List.length_append, List.length_singleton] at filled
    have inside : written.length < (written ++ first :: free).length := by simp
    have stored : (written ++ first :: free).set written.length cell.value = written ++ [cell.value] ++ free := by
      simp
    rw [RoomStore.fillFrom, read]
    simp only [bind, Option.bind_some, inside, ↓reduceIte, stored, filled]
    simp

/-- `room_store_deinit` frees the nodes of the store and no others. -/
theorem freeNodes_eq (chain : Chain heap ptr nodes) (enough : nodes.length ≤ rounds) :
    RoomStore.freeNodes rounds heap ptr =
      some fun address => if address ∈ nodes.map Prod.fst then none else heap address := by
  induction nodes generalizing heap ptr rounds with
  | nil =>
    cases chain
    cases rounds <;> simp [RoomStore.freeNodes]
  | cons first nodes ih =>
    obtain ⟨rounds, rfl⟩ : ∃ less, rounds = less + 1 := ⟨rounds - 1, by rw [List.length_cons] at enough; omega⟩
    have outside := (List.nodup_cons.mp chain.nodup).1
    cases chain with
    | @cons start cell _ read tail =>
      rw [RoomStore.freeNodes, read]
      simp only [bind, Option.bind_some, ih (tail.update outside none) (Nat.le_of_succ_le_succ enough)]
      congr 1
      funext address
      by_cases freed : address = start
      · simp [freed]
      · simp only [List.map_cons, List.mem_cons, freed, false_or, Function.update_of_ne freed]

variable {s : RoomStore}

theorem delFrom_absent (chain : Chain s.heap ptr nodes) (enough : nodes.length ≤ rounds)
    (absent : ∀ node ∈ nodes, key node.2 ≠ cstr id) (pp : Option ℕ) :
    s.delFrom id rounds pp ptr = some (s, -1) := by
  induction chain generalizing rounds pp with
  | nil => cases rounds <;> rfl
  | @cons address cell rest read tail ih =>
    obtain ⟨rounds, rfl⟩ : ∃ less, rounds = less + 1 := ⟨rounds - 1, by rw [List.length_cons] at enough; omega⟩
    obtain ⟨first, others⟩ := List.forall_mem_cons.mp absent
    rw [RoomStore.delFrom, read]
    simp only [bind, Option.bind_some]
    rw [if_neg fun same => first (sameStr_iff.mp same)]
    exact ih (Nat.le_of_succ_le_succ enough) others (some address)

/-- `room_store_del` takes out the first node with the id, through the pointer that leads to it. -/
theorem delFrom_found {address : ℕ} {old : Room} {next : Option ℕ}
    (chain : Chain s.heap ptr (before ++ (address, old) :: after)) (enough : before.length < rounds)
    (cell : s.heap address = some ⟨old, next⟩) (here : key old = cstr id)
    (absent : ∀ node ∈ before, key node.2 ≠ cstr id) (pp : Option ℕ) :
    s.delFrom id rounds pp ptr =
      (s.storeThrough ((before.getLast?.map Prod.fst).or pp) next).map fun s =>
        ({ s with heap := Function.update s.heap address none }, 0) := by
  induction before generalizing ptr rounds pp with
  | nil =>
    obtain ⟨rounds, rfl⟩ : ∃ less, rounds = less + 1 := ⟨rounds - 1, by omega⟩
    cases chain with
    | cons read tail =>
      rw [RoomStore.delFrom, cell]
      simp only [bind, Option.bind_some]
      rw [if_pos (sameStr_iff.mpr here), List.getLast?_nil, Option.map_none, Option.none_or, Option.map_eq_bind]
      rfl
  | cons first before ih =>
    obtain ⟨rounds, rfl⟩ : ∃ less, rounds = less + 1 := ⟨rounds - 1, by rw [List.length_cons] at enough; omega⟩
    obtain ⟨other, others⟩ := List.forall_mem_cons.mp absent
    cases chain with
    | @cons start firstCell _ read tail =>
      rw [RoomStore.delFrom, read]
      simp only [bind, Option.bind_some]
      rw [if_neg fun same => other (sameStr_iff.mp same), ih tail (Nat.lt_of_succ_lt_succ enough) others]
      cases before with
      | nil => rfl
      | cons second before => simp only [List.getLast?_cons_cons]; rw [List.getLast?_cons]; rfl

end Loops

/-- The nodes of the store, in order, and their rooms. -/
structure Holds (s : RoomStore) (nodes : List (ℕ × Room)) (rooms : List Room) : Prop where
  chain : Chain s.heap s.gHead nodes
  values : nodes.map Prod.snd = rooms
  distinct : KeyedList.Distinct key rooms
  counted : nodes.length ≤ s.allocations

/-- The store is the finite map. -/
def Represents (s : RoomStore) (m : Rooms) : Prop :=
  ∃ nodes rooms, ∃ holds : Holds s nodes rooms, m = KeyedList.table key rooms holds.distinct

/-- An id is in the store or not; if it is, then at one place. -/
theorem Holds.locate {s : RoomStore} {nodes : List (ℕ × Room)} {rooms : List Room} (holds : Holds s nodes rooms)
    (id : Bytes) :
    (∀ node ∈ nodes, key node.2 ≠ cstr id) ∧ s.findNode id = some none ∨
      ∃ before after address room, nodes = before ++ (address, room) :: after ∧ key room = cstr id ∧
        (∀ node ∈ before, key node.2 ≠ cstr id) ∧ s.findNode id = some (some address) := by
  have found := findFrom_eq holds.chain holds.counted id
  cases search : nodes.find? fun node => key node.2 = cstr id with
  | none =>
    rw [search] at found
    exact .inl ⟨fun node member => by simpa using List.find?_eq_none.mp search node member, found⟩
  | some node =>
    rw [search] at found
    obtain ⟨same, before, after, split, absent⟩ := List.find?_eq_some_iff_append.mp search
    exact .inr ⟨before, after, node.1, node.2, split, of_decide_eq_true same,
      fun other member => by simpa using absent other member, found⟩

theorem Holds.absent {s : RoomStore} {nodes : List (ℕ × Room)} {rooms : List Room} (holds : Holds s nodes rooms)
    {k : Bytes} (absent : ∀ node ∈ nodes, key node.2 ≠ k) : ∀ room ∈ rooms, key room ≠ k := by
  rw [← holds.values]
  intro room member
  obtain ⟨node, inside, rfl⟩ := List.mem_map.mp member
  exact absent node inside

theorem Holds.not_mem {s : RoomStore} {nodes : List (ℕ × Room)} {rooms : List Room} (holds : Holds s nodes rooms)
    {k : Bytes} (absent : ∀ node ∈ nodes, key node.2 ≠ k) : k ∉ KeyedList.table key rooms holds.distinct := by
  rw [KeyedList.mem_table_iff]
  rintro ⟨room, member, same⟩
  exact holds.absent absent room member same

/-- No node comes again behind itself. -/
theorem not_mem_after {heap : Heap Room} {ptr : Option ℕ} {before after : List (ℕ × Room)} {address : ℕ} {room : Room}
    (chain : Chain heap ptr (before ++ (address, room) :: after)) :
    address ∉ before.map Prod.fst ∧ address ∉ after.map Prod.fst := by
  have distinct := chain.nodup
  rw [List.map_append, List.map_cons] at distinct
  have outside := (List.nodup_middle.mp distinct).notMem
  exact not_or.mp (List.mem_append.not.mp outside)

/-- Storing the pointer of a node through the one that leads to it, and freeing the node, takes it out. -/
theorem unlink {s : RoomStore} {before after : List (ℕ × Room)} {address : ℕ} {old : Room} {next : Option ℕ}
    (chain : Chain s.heap s.gHead (before ++ (address, old) :: after)) (tail : Chain s.heap next after) :
    ∃ t, s.storeThrough (before.getLast?.map Prod.fst) next = some t ∧ t.allocations = s.allocations ∧
      Chain (Function.update t.heap address none) t.gHead (before ++ after) := by
  obtain ⟨notBefore, notAfter⟩ := not_mem_after chain
  rcases List.eq_nil_or_concat before with rfl | ⟨before, ⟨p, room⟩, rfl⟩
  · exact ⟨{ s with gHead := next }, rfl, rfl, tail.update notAfter none⟩
  · rw [List.concat_eq_append] at chain notBefore ⊢
    rw [List.append_assoc, List.singleton_append] at chain
    obtain ⟨_, cell, _⟩ := chain.read
    have elsewhere := (not_mem_after chain).2
    rw [List.map_cons] at elsewhere
    have linked := chain.write tail (fun member => elsewhere (List.mem_cons_of_mem _ member)) room
    refine ⟨{ s with heap := Function.update s.heap p (some ⟨room, next⟩) }, ?_, rfl, ?_⟩
    · rw [List.getLast?_concat]
      simp only [Option.map_some, RoomStore.storeThrough, cell]
    · rw [List.append_assoc, List.singleton_append]
      apply linked.update
      rw [List.map_append, List.map_cons, List.mem_append, List.mem_cons]
      rw [List.map_append, List.mem_append, List.map_singleton, List.mem_singleton] at notBefore
      rintro (early | same | late)
      · exact notBefore (.inl early)
      · exact notBefore (.inr same)
      · exact notAfter late

namespace Represents

variable {s : RoomStore} {m : Rooms}

theorem init (s : RoomStore) : Represents s.roomStoreInit ∅ :=
  ⟨[], [], ⟨.nil, rfl, KeyedList.distinct_nil key, Nat.zero_le _⟩, (KeyedList.table_nil).symm⟩

/-- `room_store_put` inserts or overwrites exactly its id. -/
theorem put (represents : Represents s m) (r : Room) {fresh : ℕ}
    (allocates : s.findNode r.id = some none → s.heap fresh = none) :
    ∃ next, s.roomStorePut r fresh = some (next, 0) ∧ Represents next (m.insert (key r) r) := by
  obtain ⟨nodes, rooms, holds, rfl⟩ := represents
  rcases holds.locate r.id with ⟨absent, search⟩ | ⟨before, after, address, old, rfl, same, -, search⟩
  · have free := allocates search
    have new := holds.absent absent
    refine ⟨⟨Function.update s.heap fresh (some ⟨r, s.gHead⟩), some fresh, s.allocations + 1⟩, ?_,
      (fresh, r) :: nodes, r :: rooms, ⟨?_, ?_, holds.distinct.cons new, ?_⟩, ?_⟩
    · rw [RoomStore.roomStorePut, search]
      simp only [bind, Option.bind_some, free, ↓reduceIte]
    · exact holds.chain.push free r
    · rw [List.map_cons, holds.values]
    · exact Nat.succ_le_succ holds.counted
    · exact (KeyedList.table_cons holds.distinct new).symm
  · obtain ⟨next, cell, tail⟩ := holds.chain.read
    have values := holds.values
    rw [List.map_append, List.map_cons] at values
    subst values
    refine ⟨{ s with heap := Function.update s.heap address (some ⟨r, next⟩) }, ?_,
      before ++ (address, r) :: after, before.map Prod.snd ++ r :: after.map Prod.snd,
      ⟨?_, ?_, holds.distinct.replace same.symm, ?_⟩, ?_⟩
    · rw [RoomStore.roomStorePut, search]
      simp only [bind, Option.bind_some, cell]
    · exact holds.chain.write tail (not_mem_after holds.chain).2 r
    · rw [List.map_append, List.map_cons]
    · have counted := holds.counted
      rw [List.length_append, List.length_cons] at counted ⊢
      exact counted
    · exact (KeyedList.table_replace holds.distinct same.symm).symm

/-- `room_store_del` takes out exactly its id. -/
theorem del (represents : Represents s m) (id : Bytes) :
    ∃ next, s.roomStoreDel id = some (next, if cstr id ∈ m then 0 else -1) ∧ Represents next (m.erase (cstr id)) := by
  obtain ⟨nodes, rooms, holds, rfl⟩ := represents
  rcases holds.locate id with ⟨absent, -⟩ | ⟨before, after, address, old, rfl, same, first, -⟩
  · rw [if_neg (holds.not_mem absent), KeyedList.table_erase holds.distinct (holds.absent absent)]
    exact ⟨s, delFrom_absent holds.chain holds.counted absent none, nodes, rooms, holds, rfl⟩
  · have values := holds.values
    rw [List.map_append, List.map_cons] at values
    subst values
    have present : cstr id ∈ KeyedList.table key _ holds.distinct := by
      rw [KeyedList.mem_table_iff]
      exact ⟨old, List.mem_append_right _ List.mem_cons_self, same⟩
    have counted := holds.counted
    rw [List.length_append, List.length_cons] at counted
    obtain ⟨next, cell, tail⟩ := holds.chain.read
    obtain ⟨notBefore, notAfter⟩ := not_mem_after holds.chain
    have deleted := delFrom_found holds.chain (show before.length < s.allocations by omega) cell same first none
    obtain ⟨unlinked, stored, allocations, chain⟩ := unlink holds.chain tail
    rw [Option.or_none, stored, Option.map_some] at deleted
    rw [if_pos present, ← same]
    refine ⟨_, deleted, before ++ after, before.map Prod.snd ++ after.map Prod.snd,
      ⟨chain, List.map_append, holds.distinct.remove, ?_⟩, (KeyedList.table_remove holds.distinct).symm⟩
    rw [List.length_append]
    change before.length + after.length ≤ unlinked.allocations
    omega

/-- `room_store_get` looks its id up. -/
theorem get (represents : Represents s m) (id : Bytes) :
    s.roomStoreGet id = some (if cstr id ∈ m then 0 else -1, m.lookup (cstr id)) := by
  obtain ⟨nodes, rooms, holds, rfl⟩ := represents
  rcases holds.locate id with ⟨absent, search⟩ | ⟨before, after, address, room, rfl, same, -, search⟩
  · have missing := holds.not_mem absent
    rw [if_neg missing, Finmap.lookup_eq_none.mpr missing, RoomStore.roomStoreGet, search]
    rfl
  · have values := holds.values
    rw [List.map_append, List.map_cons] at values
    subst values
    have found : (KeyedList.table key _ holds.distinct).lookup (cstr id) = some room := by
      rw [← same]
      exact KeyedList.lookup_table_self holds.distinct
    have present : cstr id ∈ KeyedList.table key _ holds.distinct := Finmap.mem_iff.mpr ⟨room, found⟩
    obtain ⟨next, cell, -⟩ := holds.chain.read
    rw [if_pos present, found, RoomStore.roomStoreGet, search]
    simp only [bind, Option.bind_some, cell, Option.map_some]

/-- `room_store_all` lists every room once. -/
theorem all (represents : Represents s m) :
    ∃ items count, s.roomStoreAll = some (0, items, count) ∧ count ≤ items.length ∧
      (items.take count : Multiset Room) = m.entries.map Sigma.snd ∧ count = m.keys.card := by
  obtain ⟨nodes, rooms, holds, rfl⟩ := represents
  have length : rooms.length = nodes.length := by rw [← holds.values, List.length_map]
  have counts := countFrom_eq holds.chain holds.counted
  -- The array has room for as many items as the first loop has counted, or for one.
  generalize slots : List.replicate (if nodes.length ≠ 0 then nodes.length else 1) Room.zero = arr
  have fits : nodes.length ≤ arr.length := by
    rw [← slots, List.length_replicate]
    split <;> omega
  have fills : RoomStore.fillFrom s.heap s.allocations s.gHead ([] : List Room).length ([] ++ arr) = _ :=
    fillFrom_eq holds.chain holds.counted fits
  rw [List.length_nil, List.nil_append, List.nil_append, holds.values] at fills
  refine ⟨rooms ++ arr.drop nodes.length, nodes.length, ?_, ?_, ?_, ?_⟩
  · rw [RoomStore.roomStoreAll, counts]
    simp only [bind, Option.bind_some, slots, fills]
  · rw [List.length_append, length]
    exact Nat.le_add_right _ _
  · rw [KeyedList.entries_table, ← length, List.take_left]
  · rw [KeyedList.card_keys_table, length]

end Represents

/-! ## Whole runs -/

/-- A node that is allocated is not one in use. -/
def Allocates (s : StoreHistory) : StoreCall → Prop
  | .put r fresh => s.store.findNode r.id = some none → s.store.heap fresh = none
  | _ => True

instance (s : StoreHistory) : DecidablePred (Allocates s)
  | .put _ _ => inferInstanceAs (Decidable (_ → _))
  | .del _ | .get _ | .all => .isTrue trivial

/-- A call answers as the map does and leaves what the map becomes. -/
theorem represents_call {s : StoreHistory} {m : Rooms} (represents : Represents s.store m) {c : StoreCall}
    (allocates : Allocates s c) :
    ∃ next result, s.call c = some next ∧ next.results = s.results ++ [result] ∧ Answers m c result ∧
      Represents next.store (afterCall m c) := by
  cases c with
  | put r fresh =>
    obtain ⟨store, ran, holds⟩ := represents.put r allocates
    exact ⟨⟨store, _⟩, .put 0, by rw [StoreHistory.call, ran]; rfl, rfl, rfl, holds⟩
  | del id =>
    obtain ⟨store, ran, holds⟩ := represents.del id
    exact ⟨⟨store, _⟩, .del _, by rw [StoreHistory.call, ran]; rfl, rfl, rfl, holds⟩
  | get id =>
    exact ⟨⟨s.store, _⟩, .get _ _, by rw [StoreHistory.call, represents.get id]; rfl, rfl, ⟨rfl, rfl⟩, represents⟩
  | all =>
    obtain ⟨items, count, ran, answers⟩ := represents.all
    exact ⟨⟨s.store, _⟩, .all 0 items count, by rw [StoreHistory.call, ran]; rfl, rfl, ⟨rfl, answers⟩, represents⟩

theorem represents_run {s : StoreHistory} {m : Rooms} (represents : Represents s.store m) {calls : List StoreCall}
    (allocates : StoreHistory.machine.Along Allocates s calls) :
    ∃ t results, StoreHistory.machine.run s calls = some t ∧ t.results = s.results ++ results ∧
      Conforms m calls results ∧ Represents t.store (calls.foldl afterCall m) := by
  induction calls generalizing s m with
  | nil => exact ⟨s, [], rfl, (List.append_nil _).symm, trivial, represents⟩
  | cons c calls ih =>
    obtain ⟨next, result, stepped, appended, answers, holds⟩ := represents_call represents allocates.1
    obtain ⟨t, results, ran, rest, conforms, final⟩ := ih holds (allocates.2 next stepped)
    refine ⟨t, result :: results, ?_, ?_, ⟨answers, conforms⟩, final⟩
    · rw [EventMachine.run_cons, show StoreHistory.machine.step s c = some next from stepped, Option.bind_some, ran]
    · rw [rest, appended, List.append_assoc, List.singleton_append]

/-- No id is in two nodes. -/
def NoDuplicates (s : RoomStore) : Prop :=
  ∃ nodes, Chain s.heap s.gHead nodes ∧ (nodes.map fun node => cstr node.2.id).Nodup

/-- After `room_store_init`, all calls are completed and return what a finite map from ids to rooms does, and
no id is ever in two nodes. -/
theorem roomStore_finiteMap {s : RoomStore} {calls : List StoreCall}
    (allocates : StoreHistory.machine.Along Allocates (.start s) calls) :
    ∃ t, StoreHistory.machine.run (.start s) calls = some t ∧ Conforms ∅ calls t.results ∧
      NoDuplicates t.store := by
  obtain ⟨t, results, ran, recorded, conforms, nodes, rooms, holds, -⟩ :=
    represents_run (Represents.init s) allocates
  have same : t.results = results := recorded
  refine ⟨t, ran, same ▸ conforms, nodes, holds.chain, ?_⟩
  have distinct := holds.distinct
  rw [← holds.values, KeyedList.Distinct, List.map_map] at distinct
  exact distinct

/-- Two rooms, one of them put again with another state, and one deleted twice. -/
def roomCalls : List StoreCall :=
  [.put ⟨literal "a", literal "x", .stopped⟩ 1, .put ⟨literal "b", literal "y", .started⟩ 2,
    .put ⟨literal "a", literal "x", .started⟩ 3, .get (literal "a"), .del (literal "b"), .del (literal "b"), .all]

theorem roomStore_finiteMap_two :
    StoreHistory.machine.Along Allocates (.start ⟨fun _ => none, none, 0⟩) roomCalls ∧
      ∃ t, StoreHistory.machine.run (.start ⟨fun _ => none, none, 0⟩) roomCalls = some t ∧
        Conforms ∅ roomCalls t.results ∧ NoDuplicates t.store := by
  have allocates : StoreHistory.machine.Along Allocates (.start ⟨fun _ => none, none, 0⟩) roomCalls := by decide
  exact ⟨allocates, roomStore_finiteMap allocates⟩

end ProcessMonitor.Soundness.RoomMap
