import ProcessMonitor.Machine.Posix.Files
import ProcessMonitor.Machine.Posix.Tags
import ProcessMonitor.Model.LocGen.RoomStore

/-! # The rooms file of locgend

`xml_loader.c` reads the file into a buffer that grows, a line or 1023 bytes at a time, and then looks for tags;
it knows neither comments nor the nesting of elements. Writing past the end of an allocation has no value.
Allocations succeed.
-/

namespace ProcessMonitor.Model.LocGen

open Machine Machine.Posix

def roomStateFromStr (s : Bytes) : RoomState := if cstr s = literal "started" then .started else .stopped

/-- `buf` with its size `cap`, which is zero for a null pointer. The first `len` bytes of it are `bytes`. -/
structure LoadBuffer where
  cap : ℕ
  bytes : Bytes
deriving DecidableEq, Repr

/-- One line is copied behind the others. The buffer grows once, by doubling. -/
def LoadBuffer.append (buf : LoadBuffer) (line : Bytes) : Option LoadBuffer :=
  let len := buf.bytes.length
  let cap := if len + line.length + 1 > buf.cap then (if buf.cap ≠ 0 then buf.cap * 2 else 4096) else buf.cap
  if len + line.length ≤ cap then some ⟨cap, buf.bytes ++ line⟩ else none

/-- The reading loop; what follows a NUL in a line is not copied. -/
def readLines : ℕ → Bytes → LoadBuffer → Option LoadBuffer
  | 0, stream, buf => if stream = [] then some buf else none
  | rounds + 1, stream, buf =>
    match fgets 1024 stream with
    | none => some buf
    | some (line, stream) => do readLines rounds stream (← buf.append (cstr line))

/-- The value behind the first `key` in a tag, up to the next quote and cut to the size of its field. -/
def attributeValue (tag key : Bytes) (size : ℕ) : Option Bytes := do
  let found ← strstr tag key
  let value := found.drop key.length
  let q ← strchr value 34
  some (value.take (min (value.length - q.length) size))

/-- The `room_t` that is filled in from a tag. -/
def roomOfTag (tag : Bytes) : Room where
  id := (attributeValue tag (literal "id=\"") 63).getD Room.zero.id
  type := (attributeValue tag (literal "type=\"") 31).getD Room.zero.type
  state :=
    match attributeValue tag (literal "state=\"") 31 with
    | none => Room.zero.state
    | some tmp => roomStateFromStr tmp

/-- `items`, `cnt` of them, in an allocation for `allocd`. -/
structure RoomItems where
  allocd : ℕ
  items : List Room
deriving DecidableEq, Repr

def RoomItems.push (out : RoomItems) (r : Room) : Option RoomItems :=
  let cnt := out.items.length
  let allocd := if cnt = out.allocd then (if out.allocd ≠ 0 then out.allocd * 2 else 8) else out.allocd
  if cnt < allocd then some ⟨allocd, out.items ++ [r]⟩ else none

/-- The tag loop. A room without id or type is passed over. -/
def scanRooms : ℕ → Bytes → RoomItems → Option RoomItems
  | 0, _, _ => none
  | rounds + 1, p, out =>
    match strstr p (literal "<room") with
    | none => some out
    | some p =>
      match strchr p 62 with
      | none => some out
      | some e =>
        let r := roomOfTag (p.take (min (p.length - e.length + 1) 511))
        if r.id.headD 0 = 0 ∨ r.type.headD 0 = 0 then scanRooms rounds (e.drop 1) out
        else do scanRooms rounds (e.drop 1) (← out.push r)

/-- The return value, and the rooms in `out` where it is zero. A file that cannot be opened is `none`. -/
def locLoadRoomsXml : Option Bytes → Option (ℤ × Option (List Room))
  | none => some (-1, none)
  | some file => do
    let buf ← readLines file.length file ⟨0, []⟩
    if buf.cap = 0 then some (-2, none)
    else if buf.bytes.length < buf.cap then
      let out ← scanRooms (buf.bytes.length + 1) buf.bytes ⟨0, []⟩
      some (0, some out.items)
    else none

/-! ## Reading -/

namespace LoadBuffer

/-- `cap` when the line is copied. -/
def grown (buf : LoadBuffer) (line : Bytes) : ℕ :=
  if buf.bytes.length + line.length + 1 > buf.cap then (if buf.cap ≠ 0 then buf.cap * 2 else 4096) else buf.cap

theorem append_eq (buf : LoadBuffer) (line : Bytes) : buf.append line =
    if buf.bytes.length + line.length ≤ buf.grown line then some ⟨buf.grown line, buf.bytes ++ line⟩ else none := rfl

/-- Allocated, with room for a line in the doubled buffer and for the NUL in this one. -/
def Sound (buf : LoadBuffer) : Prop := 4096 ≤ buf.cap ∧ buf.bytes.length < buf.cap

variable {buf : LoadBuffer} (before : buf = ⟨0, []⟩ ∨ buf.Sound) {line : Bytes} (short : line.length < 1024)
include before short

/-- No line is longer than the buffer was, so it has room when the buffer has been doubled. -/
theorem grown_of_short : 4096 ≤ buf.grown line ∧ buf.bytes.length + line.length < buf.grown line := by
  rcases before with rfl | ⟨large, inside⟩
  · simp only [grown, List.length_nil]
    split_ifs <;> omega
  · simp only [grown]
    split_ifs <;> omega

theorem append_of_short :
    ∃ after, buf.append line = some after ∧ after.bytes = buf.bytes ++ line ∧ after.Sound := by
  obtain ⟨large, inside⟩ := grown_of_short before short
  refine ⟨⟨buf.grown line, buf.bytes ++ line⟩, if_pos inside.le, rfl, large, ?_⟩
  rw [List.length_append]
  exact inside

end LoadBuffer

/-- The loop ends with a sound buffer. A file without NUL is read whole. -/
theorem readLines_sound {rounds : ℕ} {stream : Bytes} (enough : stream.length ≤ rounds) {buf : LoadBuffer}
    (before : buf = ⟨0, []⟩ ∧ stream ≠ [] ∨ buf.Sound) :
    ∃ after, readLines rounds stream buf = some after ∧ after.Sound ∧
      (0 ∉ stream → after.bytes = buf.bytes ++ stream) := by
  induction rounds generalizing stream buf with
  | zero =>
    obtain rfl := List.length_eq_zero_iff.mp (Nat.le_zero.mp enough)
    have sound := before.resolve_left fun empty => empty.2 rfl
    exact ⟨buf, rfl, sound, fun _ => (List.append_nil _).symm⟩
  | succ rounds ih =>
    rw [readLines]
    cases read : fgets 1024 stream with
    | none =>
      obtain rfl : stream = [] := by simpa [fgets] using read
      have sound := before.resolve_left fun empty => empty.2 rfl
      exact ⟨buf, rfl, sound, fun _ => (List.append_nil _).symm⟩
    | some found =>
      obtain ⟨line, rest⟩ := found
      obtain ⟨nonempty, short, rfl⟩ := fgets_some (by decide) read
      have copied : (cstr line).length < 1024 := Nat.lt_of_le_of_lt (List.takeWhile_prefix _).length_le short
      obtain ⟨longer, appended, bytes, sound⟩ := LoadBuffer.append_of_short (before.imp_left And.left) copied
      have positive := List.length_pos_iff.mpr nonempty
      rw [List.length_append] at enough
      have fewer : rest.length ≤ rounds := by omega
      obtain ⟨after, ended, final, all⟩ := ih fewer (.inr sound)
      refine ⟨after, ?_, final, fun free => ?_⟩
      · simp only [appended]
        exact ended
      · obtain ⟨lineFree, restFree⟩ := not_or.mp fun member => free (List.mem_append.mpr member)
        rw [all restFree, bytes, cstr_of_nul_free lineFree, List.append_assoc]

/-! ## The tags -/

/-- A tag that makes a room. -/
def Room.Given (r : Room) : Prop := r.id.headD 0 ≠ 0 ∧ r.type.headD 0 ≠ 0

instance (r : Room) : Decidable r.Given := inferInstanceAs (Decidable (_ ∧ _))

/-- The tags the loop sees. -/
def roomTags (text : Bytes) : List Bytes := tags (literal "<room") 62 text

/-- One room for each tag that makes one. -/
def roomsOfTags (tags : List Bytes) : List Room :=
  (tags.map fun tag => roomOfTag (tag.take 511)).filter fun r => decide r.Given

theorem roomsOfTags_append (first second : List Bytes) :
    roomsOfTags (first ++ second) = roomsOfTags first ++ roomsOfTags second := by
  rw [roomsOfTags, List.map_append, List.filter_append]
  rfl

theorem roomsOfTags_eq_nil_iff (tags : List Bytes) :
    roomsOfTags tags = [] ↔ ∀ tag ∈ tags, ¬(roomOfTag (tag.take 511)).Given := by
  simp only [roomsOfTags, List.filter_eq_nil_iff, List.mem_map, decide_eq_true_eq, forall_exists_index, and_imp,
    forall_apply_eq_imp_iff₂]

theorem RoomItems.push_of_le {out : RoomItems} (inside : out.items.length ≤ out.allocd) (r : Room) :
    ∃ after, out.push r = some after ∧ after.items = out.items ++ [r] ∧ after.items.length ≤ after.allocd := by
  let allocd :=
    if out.items.length = out.allocd then (if out.allocd ≠ 0 then out.allocd * 2 else 8) else out.allocd
  have grown : out.items.length < allocd := by
    simp only [allocd]
    split_ifs <;> omega
  refine ⟨⟨allocd, out.items ++ [r]⟩, if_pos grown, rfl, ?_⟩
  rw [List.length_append]
  exact grown

/-- One round, by the next tag. -/
private theorem scanRooms_succ (rounds : ℕ) (p : Bytes) (out : RoomItems) : scanRooms (rounds + 1) p out =
    match nextTag (literal "<room") 62 p with
    | none => some out
    | some (tag, rest) =>
      if (roomOfTag (tag.take 511)).Given then (out.push (roomOfTag (tag.take 511))).bind (scanRooms rounds rest)
      else scanRooms rounds rest out := by
  rw [scanRooms, nextTag]
  cases strstr p (literal "<room") with
  | none => rfl
  | some p =>
    simp only [Option.bind_some]
    cases strchr p 62 with
    | none => rfl
    | some e =>
      simp only [Option.map_some, List.take_take, Nat.min_comm 511, Room.Given, ← not_or, ite_not]
      rfl

theorem scanRooms_eq {rounds : ℕ} {p : Bytes} (enough : p.length < rounds) {out : RoomItems}
    (inside : out.items.length ≤ out.allocd) :
    ∃ after, scanRooms rounds p out = some after ∧ after.items = out.items ++ roomsOfTags (roomTags p) := by
  induction rounds generalizing p out with
  | zero => exact absurd enough (Nat.not_lt_zero _)
  | succ rounds ih =>
    rw [scanRooms_succ, roomsOfTags, roomTags]
    cases next : nextTag (literal "<room") 62 p with
    | none => exact ⟨out, rfl, by rw [tags_of_none next]; exact (List.append_nil _).symm⟩
    | some found =>
      obtain ⟨tag, rest⟩ := found
      have shorter : rest.length < rounds := by
        have := nextTag_length_lt next
        omega
      rw [tags_of_some next, List.map_cons, List.filter_cons]
      by_cases given : (roomOfTag (tag.take 511)).Given
      · obtain ⟨longer, pushed, items, fits⟩ := RoomItems.push_of_le inside (roomOfTag (tag.take 511))
        obtain ⟨after, ended, all⟩ := ih shorter fits
        refine ⟨after, ?_, ?_⟩
        · simp only [if_pos given, pushed, Option.bind_some, ended]
        · rw [all, items, if_pos (decide_eq_true given), List.append_assoc]
          rfl
      · obtain ⟨after, ended, all⟩ := ih shorter inside
        refine ⟨after, ?_, ?_⟩
        · simp only [if_neg given, ended]
        · rw [all, if_neg (by simpa using given)]
          rfl

/-- A file that is not empty and has no NUL gives the rooms of its text. -/
theorem locLoadRoomsXml_of_nul_free {file : Bytes} (nonempty : file ≠ []) (free : 0 ∉ file) :
    locLoadRoomsXml (some file) = some (0, some (roomsOfTags (roomTags file))) := by
  obtain ⟨buf, read, ⟨large, inside⟩, bytes⟩ := readLines_sound (Nat.le_refl _) (.inl ⟨rfl, nonempty⟩)
  have bytes := bytes free
  have none : (⟨0, []⟩ : RoomItems).items.length ≤ 0 := Nat.le_refl _
  obtain ⟨out, scanned, items⟩ := scanRooms_eq (Nat.lt_succ_self buf.bytes.length) none
  have allocated : buf.cap ≠ 0 := by omega
  rw [List.nil_append] at bytes items
  rw [bytes] at items inside scanned
  simp only [locLoadRoomsXml, read, Option.bind_eq_bind, Option.bind_some, if_neg allocated, bytes, if_pos inside]
  rw [scanned, Option.bind_some, items]

end ProcessMonitor.Model.LocGen
