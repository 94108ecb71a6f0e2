import ProcessMonitor.Model.LocGen.LocMain
import ProcessMonitor.Soundness.RoomAgreement
import ProcessMonitor.Soundness.RoomMap

/-! # Whole runs of locgend

A run that applies a file puts every room in the store and frees the store on both of its ways out: the heap is as it
was before, and what the server got is what the loop without the store sends. Whatever the arguments are, as
long as no quote is among them, and whatever the file holds, no run changes the rooms of the server. A request is cut
to its buffer, which only takes keys away, and an attribute of the file ends at a quote.
-/

namespace ProcessMonitor.Soundness.LocgendRuns

open Machine Machine.Posix Model.Vts Model.LocGen RoomAgreement

/-! ## The rooms of a file -/

theorem nul_not_mem_cstr (text : Bytes) : 0 ∉ cstr text := by
  intro member
  have kept := List.mem_takeWhile_imp member
  simp at kept

theorem readLines_nul_free {rounds : ℕ} {stream : Bytes} {buf after : LoadBuffer} (free : 0 ∉ buf.bytes)
    (read : readLines rounds stream buf = some after) : 0 ∉ after.bytes := by
  induction rounds generalizing stream buf with
  | zero =>
    rw [readLines] at read
    split_ifs at read
    cases read
    exact free
  | succ rounds ih =>
    rw [readLines] at read
    split at read
    next => cases read; exact free
    next line rest _ =>
      obtain ⟨longer, appended, read⟩ := Option.bind_eq_some_iff.mp read
      rw [LoadBuffer.append_eq] at appended
      obtain ⟨-, same⟩ := Option.ite_none_right_eq_some.mp appended
      cases same
      refine ih ?_ read
      rw [List.mem_append, not_or]
      exact ⟨free, nul_not_mem_cstr line⟩

/-- A value ends before the next quote. -/
theorem clean_attributeValue {tag key value : Bytes} {size : ℕ} (free : 0 ∉ tag)
    (found : attributeValue tag key size = some value) : Clean value := by
  obtain ⟨suffix, searched, found⟩ := Option.bind_eq_some_iff.mp found
  obtain ⟨q, quoted, same⟩ := Option.bind_eq_some_iff.mp found
  cases same
  obtain ⟨skipped, rest, unquoted, split, rfl⟩ := strchr_some quoted
  have before : suffix.drop key.length = skipped ++ 34 :: rest := split
  rw [before, List.length_append, Nat.add_sub_cancel]
  have begins : (skipped ++ 34 :: rest).take (min skipped.length size) <+: skipped := by
    rw [List.take_append_of_le_length (Nat.min_le_left _ _)]
    exact List.take_prefix _ _
  refine ⟨fun member => unquoted (begins.subset member), fun member => free ?_⟩
  have inSuffix : 0 ∈ suffix.drop key.length := by
    rw [before]
    exact List.mem_append_left _ (begins.subset member)
  exact (strstr_some searched).2.subset (List.mem_of_mem_drop inSuffix)

/-- A room whose texts can stand between quotes. -/
def CleanRoom (r : Room) : Prop := Clean r.id ∧ Clean r.type

theorem clean_roomOfTag {tag : Bytes} (free : 0 ∉ tag) : CleanRoom (roomOfTag tag) := by
  have value (key : Bytes) (size : ℕ) : Clean ((attributeValue tag key size).getD []) := by
    cases found : attributeValue tag key size with
    | none => exact (by decide : Clean [])
    | some value => exact clean_attributeValue free found
  exact ⟨value _ _, value _ _⟩

theorem clean_roomsOfTags {text : Bytes} (free : 0 ∉ text) : ∀ r ∈ roomsOfTags (roomTags text), CleanRoom r := by
  intro r member
  obtain ⟨made, -⟩ := List.mem_filter.mp member
  obtain ⟨tag, among, rfl⟩ := List.mem_map.mp made
  apply clean_roomOfTag
  exact fun inside => free ((infix_of_mem_tags among).subset (List.mem_of_mem_take inside))

/-- Loading a file returns, with rooms that are clean or with an error. -/
theorem load_cases (file : Option Bytes) :
    (∃ ret, ret ≠ 0 ∧ locLoadRoomsXml file = some (ret, none)) ∨
      ∃ rooms, (∀ r ∈ rooms, CleanRoom r) ∧ locLoadRoomsXml file = some (0, some rooms) := by
  cases file with
  | none => exact .inl ⟨-1, by decide, rfl⟩
  | some file =>
    by_cases nonempty : file = []
    · subst nonempty
      exact .inl ⟨-2, by decide, rfl⟩
    · obtain ⟨buf, read, ⟨large, inside⟩, -⟩ := readLines_sound (Nat.le_refl _) (.inl ⟨rfl, nonempty⟩)
      have none : (⟨0, []⟩ : RoomItems).items.length ≤ 0 := Nat.le_refl _
      obtain ⟨out, scanned, items⟩ := scanRooms_eq (Nat.lt_succ_self buf.bytes.length) none
      have allocated : buf.cap ≠ 0 := by omega
      refine .inr ⟨out.items, ?_, ?_⟩
      · rw [items]
        exact clean_roomsOfTags (readLines_nul_free (by simp) read)
      · simp only [locLoadRoomsXml, read, Option.bind_eq_bind, Option.bind_some, if_neg allocated, if_pos inside,
          scanned]

/-! ## The store of a run -/

/-- The nodes of the store are the live addresses that were not there at the beginning, all of them from `used`. -/
def Stocked (initial : Heap Room) (used : List ℕ) (s : RoomStore) : Prop :=
  ∃ nodes, Chain s.heap s.gHead nodes ∧ nodes.length ≤ s.allocations ∧
    (∀ address, address ∉ nodes.map Prod.fst → s.heap address = initial address) ∧
    ∀ address ∈ nodes.map Prod.fst, initial address = none ∧ address ∈ used

theorem stocked_init (s : RoomStore) : Stocked s.heap [] s.roomStoreInit :=
  ⟨[], .nil, Nat.zero_le _, fun _ _ => rfl, by simp⟩

section Stocked

variable {initial : Heap Room} {used : List ℕ} {s : RoomStore}

theorem Stocked.put (stocked : Stocked initial used s) (r : Room) {fresh : ℕ} (free : initial fresh = none)
    (new : fresh ∉ used) :
    ∃ next, s.roomStorePut r fresh = some (next, 0) ∧ Stocked initial (fresh :: used) next := by
  obtain ⟨nodes, chain, counted, others, own⟩ := stocked
  have search : s.findNode r.id = some ((nodes.find? fun node => RoomMap.key node.2 = cstr r.id).map Prod.fst) :=
    RoomMap.findFrom_eq chain counted r.id
  rw [RoomStore.roomStorePut, search]
  cases found : nodes.find? fun node => RoomMap.key node.2 = cstr r.id with
  | none =>
    have outside : fresh ∉ nodes.map Prod.fst := fun member => new (own fresh member).2
    have unused : s.heap fresh = none := (others fresh outside).trans free
    refine ⟨⟨Function.update s.heap fresh (some ⟨r, s.gHead⟩), some fresh, s.allocations + 1⟩, ?_,
      (fresh, r) :: nodes, chain.push unused r, Nat.succ_le_succ counted, ?_, ?_⟩
    · simp only [Option.map_none, bind, Option.bind_some, unused, ↓reduceIte]
    · intro address elsewhere
      rw [List.map_cons, List.mem_cons, not_or] at elsewhere
      change Function.update s.heap fresh _ address = _
      rw [Function.update_of_ne elsewhere.1, others address elsewhere.2]
    · intro address member
      rcases List.mem_cons.mp member with rfl | older
      · exact ⟨free, List.mem_cons_self⟩
      · exact ⟨(own address older).1, List.mem_cons_of_mem _ (own address older).2⟩
  | some node =>
    obtain ⟨address, old⟩ := node
    obtain ⟨before, after, rfl⟩ := List.append_of_mem (List.mem_of_find?_eq_some found)
    obtain ⟨next, cell, tail⟩ := chain.read
    have same : (before ++ (address, r) :: after).map Prod.fst = (before ++ (address, old) :: after).map Prod.fst := by
      simp
    refine ⟨{ s with heap := Function.update s.heap address (some ⟨r, next⟩) }, ?_,
      before ++ (address, r) :: after, chain.write tail (RoomMap.not_mem_after chain).2 r, ?_, ?_, ?_⟩
    · simp only [Option.map_some, bind, Option.bind_some, cell]
    · rw [List.length_append, List.length_cons] at counted ⊢
      exact counted
    · intro other elsewhere
      rw [same] at elsewhere
      have different : other ≠ address := fun equal => elsewhere (by simp [equal])
      change Function.update s.heap address _ other = _
      rw [Function.update_of_ne different, others other elsewhere]
    · intro other member
      rw [same] at member
      exact ⟨(own other member).1, List.mem_cons_of_mem _ (own other member).2⟩

/-- `room_store_deinit` gives the heap back. -/
theorem Stocked.deinit (stocked : Stocked initial used s) :
    ∃ t, s.roomStoreDeinit = some t ∧ t.heap = initial ∧ t.gHead = none := by
  obtain ⟨nodes, chain, counted, others, own⟩ := stocked
  refine ⟨_, by rw [RoomStore.roomStoreDeinit, RoomMap.freeNodes_eq chain counted]; rfl, ?_, rfl⟩
  funext address
  by_cases member : address ∈ nodes.map Prod.fst
  · exact (if_pos member).trans (own address member).1.symm
  · exact (if_neg member).trans (others address member)

end Stocked

/-! ## Applying a file -/

section Apply

variable {σ : Type} {ε : Type*} {peer : Endpoint σ ε} {w : LocWorld ε}

/-- From room `i` on, the loop with the store does to the server what the one without does, and frees the store. -/
theorem applyStored_eq {initial : Heap Room} (free : ∀ i, initial (w.fresh i) = none)
    (distinct : Function.Injective w.fresh) {i : ℕ} {rooms : List Room} {store : RoomStore}
    (stocked : Stocked initial ((List.range i).map w.fresh) store) (s : σ) :
    ∃ e, applyStored peer w i rooms store s = some e ∧ e.store.heap = initial ∧ e.store.gHead = none ∧
      (e.server, e.status) = applyRooms peer w.calls i rooms s := by
  induction rooms generalizing i store s with
  | nil =>
    obtain ⟨t, freed, heap, head⟩ := stocked.deinit
    exact ⟨⟨s, t, [], [], 0⟩, by rw [applyStored, freed]; rfl, heap, head, rfl⟩
  | cons r rooms ih =>
    have new : w.fresh i ∉ (List.range i).map w.fresh := by
      intro member
      obtain ⟨j, earlier, same⟩ := List.mem_map.mp member
      rw [distinct same] at earlier
      exact absurd (List.mem_range.mp earlier) (Nat.lt_irrefl i)
    obtain ⟨next, stored, stocked⟩ := stocked.put r (free i) new
    rw [applyStored, applyRooms, stored]
    simp only [Option.bind_eq_bind, Option.bind_some]
    generalize vtsApplyRoom peer r (w.calls i) s = applied
    obtain ⟨t, ret⟩ := applied
    by_cases failed : ret ≠ 0
    · obtain ⟨last, freed, heap, head⟩ := stocked.deinit
      simp only [if_pos failed, freed, Option.bind_some]
      exact ⟨_, rfl, heap, head, rfl⟩
    · simp only [if_neg failed]
      apply ih
      obtain ⟨nodes, chain, counted, others, own⟩ := stocked
      refine ⟨nodes, chain, counted, others, fun address member => ⟨(own address member).1, ?_⟩⟩
      rw [List.range_succ, List.map_append, List.mem_append]
      exact ((List.mem_cons.mp (own address member).2).imp_left List.mem_singleton.mpr).symm

end Apply

def emptyStore : RoomStore := ⟨fun _ => none, none, 0⟩

/-- Nothing goes wrong on the way to the server, and every file holds one room. -/
def smoothWorld : LocWorld Serving where
  file _ := some (literal "<room id=\"r1\" type=\"cpu\"/>")
  view := ⟨fun _ => false, fun _ => none, none⟩
  script := ⟨⟨⟨0, 0⟩, by norm_num, by norm_num⟩, ⟨⟨0, 0⟩, by norm_num, by norm_num⟩, []⟩
  calls _ := smoothCall
  fresh i := i

/-- A request that is cut is as harmless as the whole one. -/
theorem harmless_cut {first : Bytes} {rest : List Bytes} (clean : ∀ segment ∈ first :: rest, Clean segment)
    (few : ¬ ∀ key ∈ cliKeys, key ∈ rest.dropLast) (n : ℕ) :
    Harmless ((joinSegments quote (first :: rest)).take n) := by
  obtain ⟨k, last, bound, cut, whole, among, begins⟩ := take_joinSegments quote (List.cons_ne_nil first rest) n
  have cleanLast : Clean last :=
    ⟨fun member => (clean whole among).1 (begins.subset member),
      fun member => (clean whole among).2 (begins.subset member)⟩
  rw [cut]
  cases k with
  | zero =>
    rw [List.take_zero, List.nil_append]
    apply harmless_of_segments
    · intro segment member
      rw [List.mem_singleton.mp member]
      exact cleanLast
    · exact fun all => absurd (all (literal "cmd") List.mem_cons_self) List.not_mem_nil
  | succ k =>
    rw [List.take_succ_cons, List.cons_append]
    apply harmless_of_segments
    · intro segment member
      rw [← List.cons_append, ← List.take_succ_cons] at member
      rcases List.mem_append.mp member with kept | new
      · exact clean segment (List.mem_of_mem_take kept)
      · rw [List.mem_singleton.mp new]
        exact cleanLast
    · intro all
      apply few
      intro key isKey
      have kept := all key isKey
      rw [List.dropLast_concat] at kept
      rw [List.length_cons] at bound
      rw [List.dropLast_eq_take]
      exact (List.take_subset_take_left rest (by omega)) kept

/-- A request in a buffer of the client, cut or not. -/
theorem plainRequest_cut {segments : List Bytes} (clean : ∀ segment ∈ literal "\x7b" :: segments, Clean segment)
    (few : ¬ ∀ key ∈ cliKeys, key ∈ segments.dropLast) {size : ℕ} (large : 1 < size) (small : size ≤ 512) :
    PlainRequest (snprintf size (joinSegments quote (literal "\x7b" :: segments))).1 := by
  have positive : 0 < (joinSegments quote (literal "\x7b" :: segments)).length := by
    cases segments with
    | nil => exact (by decide : 0 < (literal "\x7b").length)
    | cons second rest =>
      rw [joinSegments_cons_cons, List.length_append]
      exact Nat.add_pos_left (by decide) _
  refine ⟨harmless_cut clean few _, ?_, ?_⟩
  · rw [snprintf, List.length_take]
    omega
  · rw [snprintf, List.length_take]
    omega

theorem plainRequest_room (nowMs : ℕ) {r : Room} (clean : CleanRoom r) : PlainRequest (applyReq nowMs r) := by
  rw [applyReq, applyText_eq]
  apply plainRequest_cut _ (few_keys (applySegments_words _ _)) (by decide) (by decide)
  have state : Clean (roomStateStr r.state) := by cases r.state <;> decide
  simp only [applySegments, List.forall_mem_cons, List.not_mem_nil, false_imp_iff, implies_true, and_true]
  exact ⟨by decide, by decide, by decide, by decide, by decide, by decide, clean_number _, by decide, by decide,
    by decide, by decide, clean.1, by decide, by decide, by decide, clean.2, by decide, by decide, by decide, state,
    by decide⟩

theorem plainRequest_named (nowMs : ℕ) {command id : Bytes} (plain : Clean command) (noKey : command ∉ cliKeys)
    (clean : Clean id) : PlainRequest (snprintf 256 (namedText command (genReqId nowMs) id)).1 := by
  rw [namedText_eq]
  apply plainRequest_cut _ (few_keys (namedSegments_words noKey _ _)) (by decide) (by decide)
  simp only [namedSegments, List.forall_mem_cons, List.not_mem_nil, false_imp_iff, implies_true, and_true]
  exact ⟨by decide, by decide, by decide, plain, by decide, by decide, clean_number _, by decide, by decide, clean,
    by decide⟩

/-- A buffer of any size for the answer. -/
theorem command_rooms {text : Bytes} (plain : PlainRequest text) (respsz : ℕ) (attempts : List (Attempt Serving))
    (s : Shared) : (vtsCmdWithRetry vtsEndpoint text respsz attempts s).1.rooms = s.rooms := by
  refine vtsCmdWithRetry_invariant (fun t : Shared => t.rooms = s.rooms) ?_ rfl
  intro t sent e before part
  have pushed := FrameDecoding.pushed_of_part (admits_of_plain plain) part e.fd e.events
  refine (processAll_rooms plain.harmless ?_ t).trans before
  intro work member
  exact List.mem_singleton.mp (pushed.subset (List.mem_map_of_mem member))

theorem clean_take {text : Bytes} (clean : Clean text) (n : ℕ) : Clean (text.take n) :=
  ⟨fun member => clean.1 (List.mem_of_mem_take member), fun member => clean.2 (List.mem_of_mem_take member)⟩

section Rooms

variable {w : LocWorld Serving} {store : RoomStore} {s : Shared} {e : LocEnd Shared}

theorem vtsApplyRoom_rooms_clean {r : Room} (clean : CleanRoom r) (call : Call Serving) (s : Shared) :
    (vtsApplyRoom vtsEndpoint r call s).1.rooms = s.rooms := command_rooms (plainRequest_room call.nowMs clean) _ _ _

theorem applyStored_rooms {i : ℕ} {rooms : List Room} (clean : ∀ r ∈ rooms, CleanRoom r)
    (ended : applyStored vtsEndpoint w i rooms store s = some e) : e.server.rooms = s.rooms := by
  induction rooms generalizing i store s with
  | nil =>
    obtain ⟨freed, -, same⟩ := Option.bind_eq_some_iff.mp ended
    cases same
    rfl
  | cons r rooms ih =>
    obtain ⟨first, others⟩ := List.forall_mem_cons.mp clean
    have unchanged := vtsApplyRoom_rooms_clean first (w.calls i) s
    obtain ⟨⟨stored, _⟩, -, ended⟩ := Option.bind_eq_some_iff.mp ended
    dsimp only at ended
    split at ended
    next =>
      obtain ⟨freed, -, same⟩ := Option.bind_eq_some_iff.mp ended
      cases same
      exact unchanged
    next => exact (ih others ended).trans unchanged

theorem applyFile_rooms {path : Bytes} (ended : applyFile vtsEndpoint w path store s = some e) :
    e.server.rooms = s.rooms := by
  rw [applyFile] at ended
  rcases load_cases (w.file path) with ⟨ret, -, loaded⟩ | ⟨rooms, clean, loaded⟩
  · rw [loaded] at ended
    simp only [Option.bind_eq_bind, Option.bind_some, Option.some.injEq] at ended
    rw [← ended]
  · rw [loaded] at ended
    exact applyStored_rooms clean ended

theorem showRoom_rooms {id : Bytes} (clean : Clean id) {viaLibpm : Bool}
    (ended : showRoom vtsEndpoint w id viaLibpm store s = some e) : e.server.rooms = s.rooms := by
  have unchanged : (vtsShowRoom vtsEndpoint id 4096 (w.calls 0) s).1.rooms = s.rooms :=
    command_rooms (plainRequest_named _ (by decide) (by decide) clean) _ _ _
  rw [showRoom] at ended
  cases viaLibpm with
  | true =>
    obtain ⟨shown, -, ended⟩ := Option.bind_eq_some_iff.mp ended
    cases shown with
    | none => cases ended; rfl
    | some out => cases ended; rfl
  | false =>
    simp only [Bool.false_eq_true, if_false] at ended
    split at ended
    · cases ended; exact unchanged
    · cases ended; exact unchanged

theorem report_server {σ : Type} (store : RoomStore) (failure : Bytes) (result : σ × ℤ) :
    (report store failure result).server = result.1 := by
  rw [report]
  split <;> rfl

/-- No run of locgend whose arguments are free of quotes changes the rooms of the server, whatever files, proc entries,
and answers it meets. -/
theorem locgend_leaves_rooms {argv : List Bytes} (clean : ∀ arg ∈ argv, Clean arg)
    (ended : main vtsEndpoint w argv store s = some e) : e.server.rooms = s.rooms := by
  have usage (printed : some ⟨s, store, [], usageText, 1⟩ = some e) : e.server.rooms = s.rooms := by
    cases printed
    rfl
  unfold main at ended
  dsimp only at ended
  split at ended
  next program command args =>
    have cleanArg (arg : Bytes) (member : arg ∈ args) : Clean arg :=
      clean arg (List.mem_cons_of_mem _ (List.mem_cons_of_mem _ member))
    split at ended
    next =>
      split at ended
      next path flag more =>
        split at ended
        · exact applyFile_rooms ended
        · exact usage ended
      next => exact usage ended
    next =>
      split at ended
      next id =>
        have cleanId := cleanArg id List.mem_cons_self
        split at ended
        · exact showRoom_rooms cleanId ended
        · split at ended
          · cases ended
            rw [report_server]
            exact command_rooms (plainRequest_named _ (by decide) (by decide) cleanId) _ _ _
          · exact usage ended
      next id second third =>
        have cleanId := cleanArg id List.mem_cons_self
        have cleanType := cleanArg second (List.mem_cons_of_mem _ List.mem_cons_self)
        split at ended
        · exact showRoom_rooms cleanId ended
        · split at ended
          · cases ended
            rw [report_server]
            exact vtsApplyRoom_rooms_clean ⟨clean_take cleanId 63, clean_take cleanType 31⟩ _ _
          · exact usage ended
      next => exact usage ended
  next => exact usage ended

end Rooms

/-- locgend reports that a room is deleted. -/
theorem locgend_leaves_rooms_deleted : ∃ e,
    main vtsEndpoint smoothWorld [literal "locgend", literal "delete", literal "r1"] emptyStore Shared.start = some e ∧
      e.status = 0 ∧ e.server.rooms = Shared.start.rooms := by
  have ended :
      main vtsEndpoint smoothWorld [literal "locgend", literal "delete", literal "r1"] emptyStore Shared.start =
      some (report emptyStore (literal "delete fail\n")
        (vtsDeleteRoom vtsEndpoint (literal "r1") smoothCall Shared.start)) := by
    rw [main]
    rfl
  have success : (vtsDeleteRoom vtsEndpoint (literal "r1") smoothCall Shared.start).2 = 0 :=
    vtsDeleteRoom_smooth plainR1 Shared.start
  refine ⟨_, ended, ?_, locgend_leaves_rooms (by decide) ended⟩
  rw [report, if_neg (not_not_intro success)]

end ProcessMonitor.Soundness.LocgendRuns
