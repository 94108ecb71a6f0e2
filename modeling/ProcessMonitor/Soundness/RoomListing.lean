import ProcessMonitor.Model.LocGen.CompatShim

/-! # The text that `loc_read_rooms` leaves

Whatever the list of rooms and the size of the buffer, the buffer holds the longest beginning of the text of all
lines that fits in front of a NUL. After every round the offset is the length of what is there.
-/

namespace ProcessMonitor.Soundness.RoomListing

open Machine Machine.Posix Model.LocGen

/-- The lines of the rooms, one behind the other. -/
def listing (rooms : List Room) : Bytes := rooms.flatMap roomLine

theorem listing_concat (rooms : List Room) (r : Room) : listing (rooms ++ [r]) = listing rooms ++ roomLine r := by
  rw [listing, List.flatMap_append, List.flatMap_singleton]
  rfl

/-- The state of the loop behind the rooms `printed`; `object` is the buffer as the caller gave it. -/
structure Prints (outlen : ℕ) (object : Bytes) (printed : List Room) (s : Listing) : Prop where
  out : s.out = holding ((listing printed).take (outlen - 1)) object
  off : s.off = min (listing printed).length (outlen - 1)
  status : s.status = if (listing printed).length < outlen then .running else .full

section Loop

variable {outlen : ℕ} {object : Bytes}

/-- The loop has still space: the text so far is there whole. -/
theorem Prints.running {printed : List Room} {s : Listing} (prints : Prints outlen object printed s)
    (space : (listing printed).length < outlen) :
    s = ⟨holding (listing printed) object, (listing printed).length, .running⟩ := by
  obtain ⟨out, off, status⟩ := s
  obtain ⟨rfl, rfl, rfl⟩ := prints
  rw [List.take_of_length_le (by omega), Nat.min_eq_left (by omega), if_pos space]

theorem Prints.full {printed : List Room} {s : Listing} (prints : Prints outlen object printed s)
    (none : outlen ≤ (listing printed).length) :
    s = ⟨holding ((listing printed).take (outlen - 1)) object, outlen - 1, .full⟩ := by
  obtain ⟨out, off, status⟩ := s
  obtain ⟨rfl, rfl, rfl⟩ := prints
  rw [Nat.min_eq_right (by omega), if_neg (Nat.not_lt.mpr none)]

variable (word : outlen < 2 ^ 64) (fits : outlen ≤ object.length)
include word fits

/-- One round. -/
theorem Prints.writeRoom {printed : List Room} {s : Listing} (prints : Prints outlen object printed s) {r : Room}
    (short : (roomLine r).length < 2 ^ 31) :
    ∃ next, s.writeRoom outlen r = some next ∧ Prints outlen object (printed ++ [r]) next := by
  have longer : (listing (printed ++ [r])).length = (listing printed).length + (roomLine r).length := by
    rw [listing_concat, List.length_append]
  rcases Nat.lt_or_ge (listing printed).length outlen with space | none
  · -- `snprintf` puts behind the text what fits of the line
    have cut : listing printed ++ (roomLine r).take (outlen - (listing printed).length - 1) =
        (listing (printed ++ [r])).take (outlen - 1) := by
      have whole : (listing printed).take (outlen - 1) = listing printed := List.take_of_length_le (by omega)
      rw [listing_concat, List.take_append, whole, Nat.sub_right_comm]
    have room : 0 < outlen - (listing printed).length := Nat.sub_pos_of_lt space
    have inside : (listing printed).length + (outlen - (listing printed).length) ≤ object.length := by omega
    have difference : (outlen + 2 ^ 64 - (listing printed).length) % 2 ^ 64 = outlen - (listing printed).length := by
      omega
    rw [prints.running space, Listing.writeRoom]
    simp only [if_pos space, snprintfAt_holding room inside, cut, bind, Option.bind_some, difference,
      if_neg (Nat.not_le.mpr short)]
    split
    next beyond =>
      have length : ((listing (printed ++ [r])).take (outlen - 1)).length = outlen - 1 := by
        rw [List.length_take]
        omega
      have stored := @store_end ((listing (printed ++ [r])).take (outlen - 1)) object
      rw [length] at stored
      rw [stored]
      refine ⟨_, rfl, rfl, ?_, (if_neg (by omega)).symm⟩
      dsimp only
      omega
    next under =>
      exact ⟨_, rfl, rfl, by dsimp only; omega, (if_pos (by omega)).symm⟩
  · -- the loop has been left
    rw [prints.full none, Listing.writeRoom]
    refine ⟨_, rfl, ?_, ?_, (if_neg (by omega)).symm⟩
    · rw [listing_concat, List.take_append_of_le_length (by omega)]
    · dsimp only
      omega

theorem Prints.run {printed rooms : List Room} {s : Listing} (prints : Prints outlen object printed s)
    (short : ∀ r ∈ rooms, (roomLine r).length < 2 ^ 31) :
    ∃ t, (Listing.machine outlen).run s rooms = some t ∧ Prints outlen object (printed ++ rooms) t := by
  induction rooms generalizing printed s with
  | nil => exact ⟨s, rfl, by rwa [List.append_nil]⟩
  | cons r rooms ih =>
    obtain ⟨next, stepped, prints⟩ := prints.writeRoom word fits (short r List.mem_cons_self)
    obtain ⟨t, ran, prints⟩ := ih prints fun later member => short later (List.mem_cons_of_mem r member)
    rw [List.append_assoc, List.singleton_append] at prints
    refine ⟨t, ?_, prints⟩
    rw [EventMachine.run_cons, show (Listing.machine outlen).step s r = some next from stepped, Option.bind_some, ran]

end Loop

/-! ## Loaded rooms -/

theorem attributeValue_length_le {tag key value : Bytes} {size : ℕ} (found : attributeValue tag key size = some value) :
    value.length ≤ size := by
  simp only [attributeValue, bind, Option.bind_eq_some_iff, Option.some.injEq] at found
  obtain ⟨start, -, q, -, rfl⟩ := found
  rw [List.length_take]
  omega

/-- The fields of a room that comes from a tag fit into a `room_t`. -/
theorem roomOfTag_length_le (tag : Bytes) : (roomOfTag tag).id.length ≤ 63 ∧ (roomOfTag tag).type.length ≤ 31 := by
  have bounded (key : Bytes) (size : ℕ) : ((attributeValue tag key size).getD []).length ≤ size := by
    cases found : attributeValue tag key size with
    | none => exact Nat.zero_le size
    | some value => exact attributeValue_length_le found
  exact ⟨bounded _ 63, bounded _ 31⟩

theorem roomLine_length_lt {r : Room} (id : r.id.length ≤ 63) (type : r.type.length ≤ 31) :
    (roomLine r).length < 2 ^ 31 := by
  have first : (cstr r.id).length ≤ r.id.length := (List.takeWhile_prefix _).length_le
  have second : (cstr r.type).length ≤ r.type.length := (List.takeWhile_prefix _).length_le
  have third : (roomStateStr r.state).length = 7 := by cases r.state <;> decide
  have words : (literal "id=").length = 3 ∧ (literal " type=").length = 6 ∧ (literal " state=").length = 7 ∧
      (literal "\n").length = 1 := by decide
  simp only [roomLine, List.length_append]
  omega

theorem short_of_loaded {file : Option Bytes} {rooms : List Room}
    (loaded : locLoadRoomsXml file = some (0, some rooms)) : ∀ r ∈ rooms, (roomLine r).length < 2 ^ 31 := by
  cases file with
  | none => cases loaded
  | some file =>
    obtain ⟨buf, -, loaded⟩ := Option.bind_eq_some_iff.mp loaded
    split at loaded
    · cases loaded
    split at loaded
    · obtain ⟨out, scanned, same⟩ := Option.bind_eq_some_iff.mp loaded
      cases same
      have none : (⟨0, []⟩ : RoomItems).items.length ≤ 0 := Nat.le_refl _
      obtain ⟨after, again, items⟩ := scanRooms_eq (Nat.lt_succ_self buf.bytes.length) none
      cases scanned.symm.trans again
      intro r member
      rw [items, List.nil_append, roomsOfTags, List.mem_filter, List.mem_map] at member
      obtain ⟨⟨tag, -, rfl⟩, -⟩ := member
      obtain ⟨id, type⟩ := roomOfTag_length_le (tag.take 511)
      exact roomLine_length_lt id type
    · cases loaded

/-- The buffer ends up with the beginning of the text that fits, a NUL, and the caller's own bytes behind that;
at the head of every round the offset is inside. -/
theorem locReadRooms_longest {file : Option Bytes} {rooms : List Room} {out : Bytes} {outlen : ℕ}
    (loaded : locLoadRoomsXml file = some (0, some rooms)) (space : 1 ≤ outlen) (fits : outlen ≤ out.length)
    (word : outlen < 2 ^ 64) :
    (∃ after, locReadRooms file (some out) outlen = some (0, some after) ∧
      after = (listing rooms).take (outlen - 1) ++ 0 :: out.drop (min (listing rooms).length (outlen - 1) + 1) ∧
      after.drop outlen = out.drop outlen) ∧
    ∀ first, first <+: rooms → ∃ s, (Listing.machine outlen).run ⟨0 :: out.drop 1, 0, .running⟩ first = some s ∧
      s.off ≤ outlen - 1 := by
  have start : Prints outlen out [] ⟨holding [] out, 0, .running⟩ := by
    refine ⟨?_, ?_, ?_⟩
    · rw [listing, List.flatMap_nil, List.take_nil]
    · exact (Nat.zero_min _).symm
    · exact (if_pos space).symm
  have short := short_of_loaded loaded
  constructor
  · obtain ⟨t, ran, prints⟩ := start.run word fits short
    rw [List.nil_append] at prints
    have cleared : store out 0 [0] = some (holding [] out) := store_nul (List.length_pos_iff.mp (by omega))
    have returned : t.status ≠ .failed := by
      rw [prints.status]
      split <;> decide
    have length : ((listing rooms).take (outlen - 1)).length = min (listing rooms).length (outlen - 1) := by
      rw [List.length_take, Nat.min_comm]
    refine ⟨t.out, ?_, ?_, ?_⟩
    · simp only [locReadRooms, if_neg (Nat.ne_of_gt space), cleared, loaded, bind, Option.bind_some, ran,
        if_neg returned]
    · rw [prints.out, holding, length]
    · rw [prints.out, drop_holding]
      omega
  · intro first within
    obtain ⟨t, ran, prints⟩ := start.run word fits fun r member => short r (within.subset member)
    refine ⟨t, ran, ?_⟩
    rw [prints.off]
    exact Nat.min_le_right _ _

/-- A file with one room. -/
def oneRoomFile : Bytes := literal "<room id=\"a\" type=\"b\"/>"

/-- Of a line of 26 bytes a buffer of 8 takes 7; the two bytes behind it stay. -/
theorem locReadRooms_longest_cut :
    locLoadRoomsXml (some oneRoomFile) = some (0, some [⟨literal "a", literal "b", .stopped⟩]) ∧
      locReadRooms (some oneRoomFile) (some (List.replicate 10 7)) 8 =
        some (0, some (literal "id=a ty" ++ [0, 7, 7])) := by
  have loaded : locLoadRoomsXml (some oneRoomFile) = some (0, some [⟨literal "a", literal "b", .stopped⟩]) := by
    decide +kernel
  have fits : 8 ≤ (List.replicate 10 (7 : UInt8)).length := by decide
  obtain ⟨⟨after, returned, text, -⟩, -⟩ := locReadRooms_longest loaded (by decide) fits (by decide)
  refine ⟨loaded, ?_⟩
  rw [returned, text]
  decide +kernel

end ProcessMonitor.Soundness.RoomListing
