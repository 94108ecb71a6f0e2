import Mathlib.Data.List.Perm.Subperm
import ProcessMonitor.Model.LocGen.XmlLoader

/-! # Rooms files

The written form of a list of rooms: one element for each, its attributes in any order, and text without markup
around the elements. The loader gives the list back. It finds an attribute by its name, wherever in the
tag that stands; since neither a name nor a value contains an equals sign, the text before one ends with
one name only. A comment is text with markup in it. It ends with the byte that closes a tag, so what it adds to the
rooms depends on its own text alone.
-/

namespace ProcessMonitor.Soundness.RoomsFile

open Machine Machine.Posix Model.LocGen

/-- Text without markup. -/
structure Gap where
  bytes : Bytes
  nulFree : 0 ∉ bytes
  markupFree : 60 ∉ bytes

/-- A byte of an attribute value: no NUL, quote, angle bracket, or equals sign. -/
def Plain (c : UInt8) : Prop := c ∉ ([0, 34, 60, 61, 62] : Bytes)

instance (c : UInt8) : Decidable (Plain c) := inferInstanceAs (Decidable (_ ∉ _))

theorem plain_of_all {value : Bytes} (all : value.all (fun c => decide (Plain c)) = true) : ∀ c ∈ value, Plain c :=
  fun c member => of_decide_eq_true (List.all_eq_true.mp all c member)

inductive Attribute
  | id
  | type
  | state
deriving DecidableEq

namespace Attribute

def name : Attribute → Bytes
  | id => literal "id"
  | type => literal "type"
  | state => literal "state"

def value (r : Room) : Attribute → Bytes
  | id => r.id
  | type => r.type
  | state => roomStateStr r.state

def key (a : Attribute) : Bytes := a.name ++ [61, 34]

/-- An attribute with the space before it. -/
def text (r : Room) (a : Attribute) : Bytes := 32 :: a.key ++ a.value r ++ [34]

end Attribute

/-- A room and the attributes it is written with; the state may be left out where the room is stopped. -/
structure Element where
  room : Room
  order : List Attribute
  idSize : 1 ≤ room.id.length ∧ room.id.length ≤ 63
  typeSize : 1 ≤ room.type.length ∧ room.type.length ≤ 31
  idPlain : ∀ c ∈ room.id, Plain c
  typePlain : ∀ c ∈ room.type, Plain c
  once : order.Nodup
  named : .id ∈ order ∧ .type ∈ order
  stopped : .state ∉ order → room.state = .stopped

namespace Element

def attributes (e : Element) : Bytes := e.order.flatMap (·.text e.room)

def text (e : Element) : Bytes := literal "<room" ++ e.attributes ++ literal "/>"

end Element

/-- What stands between the tags of the root element, in order. -/
inductive Part
  | gap (text : Gap)
  | room (element : Element)

def Part.text : Part → Bytes
  | gap text => text.bytes
  | room element => element.text

def Part.room? : Part → Option Room
  | gap _ => none
  | room element => some element.room

def content (parts : List Part) : Bytes := parts.flatMap Part.text

def rooms (parts : List Part) : List Room := parts.filterMap Part.room?

/-- The root element with some content. -/
def root (lead : Gap) (inside : Bytes) (trail : Gap) : Bytes :=
  lead.bytes ++ (literal "<rooms>" ++ (inside ++ (literal "</rooms>" ++ trail.bytes)))

/-- A comment holds no two hyphens in a row. -/
structure Comment where
  bytes : Bytes
  nulFree : 0 ∉ bytes
  single : ¬[45, 45] <:+: bytes

def Comment.text (c : Comment) : Bytes := literal "<!--" ++ c.bytes ++ literal "-->"

/-! ## The attributes of an element -/

namespace Attribute

/-- Names are made of small letters. -/
theorem not_mem_name (a : Attribute) {c : UInt8} (symbol : c < 97) : c ∉ a.name := by
  have letters : a.name.all (fun c => decide (97 ≤ c)) = true := by cases a <;> decide
  intro member
  exact absurd (of_decide_eq_true (List.all_eq_true.mp letters c member)) (UInt8.not_le.mpr symbol)

/-- No name ends another one. -/
theorem not_suffix {a b : Attribute} (other : b ≠ a) (front : Bytes) : ¬a.name <:+ front ++ 32 :: b.name := by
  intro ends
  rcases List.suffix_or_suffix_of_suffix ends (List.suffix_append front (32 :: b.name)) with within | within
  · revert within
    cases a <;> cases b <;> first | decide | exact absurd rfl other
  · revert within
    cases a <;> cases b <;> decide

/-- One attribute is passed, or is the one that is looked for. -/
private theorem strstr_text (r : Room) (a b : Attribute) {front : Bytes} (frontFree : 61 ∉ front) (rest : Bytes) :
    strstr (front ++ (b.text r ++ rest)) a.key =
      if b = a then some (a.key ++ (a.value r ++ 34 :: rest)) else
        strstr (34 :: (b.value r ++ [34]) ++ rest) a.key := by
  have skippedFree : 61 ∉ front ++ 32 :: b.name := by
    simp only [List.mem_append, List.mem_cons, not_or]
    exact ⟨frontFree, by decide, b.not_mem_name (by decide)⟩
  have split : front ++ (b.text r ++ rest) = (front ++ 32 :: b.name) ++ 61 :: (34 :: (b.value r ++ [34]) ++ rest) := by
    simp [text, key]
  have nonempty : a.name ≠ [] := by cases a <;> decide
  rw [split, key, strstr_key nonempty (a.not_mem_name (by decide)) [34] skippedFree]
  by_cases same : b = a
  · subst same
    have ends : b.name <:+ front ++ 32 :: b.name := (List.suffix_cons 32 b.name).trans (List.suffix_append front _)
    rw [if_pos ⟨ends, by simp⟩, if_pos rfl]
    simp
  · rw [if_neg fun found => not_suffix same front found.1, if_neg same]

variable {r : Room} (free : ∀ a : Attribute, 61 ∉ a.value r)

include free

theorem strstr_found {a : Attribute} {before : List Attribute} (absent : a ∉ before) (after : List Attribute)
    {front : Bytes} (frontFree : 61 ∉ front) (tail : Bytes) :
    strstr (front ++ ((before ++ a :: after).flatMap (text r) ++ tail)) a.key =
      some (a.key ++ (a.value r ++ 34 :: (after.flatMap (text r) ++ tail))) := by
  induction before generalizing front with
  | nil => rw [List.nil_append, List.flatMap_cons, List.append_assoc, strstr_text r a a frontFree, if_pos rfl]
  | cons b before ih =>
    obtain ⟨other, absent⟩ := not_or.mp fun found => absent (List.mem_cons.mpr found)
    have quoted : 61 ∉ (34 :: (b.value r ++ [34]) : Bytes) := by simp [free b]
    rw [List.cons_append, List.flatMap_cons, List.append_assoc, strstr_text r a b frontFree,
      if_neg (Ne.symm other)]
    exact ih absent quoted

theorem strstr_missing {a : Attribute} {order : List Attribute} (absent : a ∉ order) {front : Bytes}
    (frontFree : 61 ∉ front) {tail : Bytes} (tailFree : 61 ∉ tail) :
    strstr (front ++ (order.flatMap (text r) ++ tail)) a.key = none := by
  induction order generalizing front with
  | nil =>
    have needed : 61 ∈ a.key := List.mem_append_right a.name List.mem_cons_self
    exact strstr_of_not_mem needed (by simp [frontFree, tailFree])
  | cons b order ih =>
    obtain ⟨other, absent⟩ := not_or.mp fun found => absent (List.mem_cons.mpr found)
    have quoted : 61 ∉ (34 :: (b.value r ++ [34]) : Bytes) := by simp [free b]
    rw [List.flatMap_cons, List.append_assoc, strstr_text r a b frontFree, if_neg (Ne.symm other)]
    exact ih absent quoted

end Attribute

namespace Element

variable (e : Element)

theorem value_plain (a : Attribute) : ∀ c ∈ a.value e.room, Plain c := by
  cases a with
  | id => exact e.idPlain
  | type => exact e.typePlain
  | state =>
    apply plain_of_all
    rw [Attribute.value]
    cases e.room.state <;> decide

theorem value_free (a : Attribute) : 61 ∉ a.value e.room := fun member => e.value_plain a 61 member (by decide)

theorem value_unquoted (a : Attribute) : 34 ∉ a.value e.room := fun member => e.value_plain a 34 member (by decide)

/-- An attribute that is written is read back. -/
theorem attributeValue_of_mem {a : Attribute} (given : a ∈ e.order) {size : ℕ}
    (fits : (a.value e.room).length ≤ size) : attributeValue e.text a.key size = some (a.value e.room) := by
  obtain ⟨before, after, order, absent⟩ := List.eq_append_cons_of_mem given
  have found : strstr e.text a.key =
      some (a.key ++ (a.value e.room ++ 34 :: (after.flatMap (·.text e.room) ++ literal "/>"))) := by
    rw [text, attributes, order, List.append_assoc]
    exact Attribute.strstr_found e.value_free absent after (by decide) _
  simp only [attributeValue, found, Option.bind_eq_bind, Option.bind_some, List.drop_left,
    strchr_skip (e.value_unquoted a), strchr_self]
  rw [List.length_append, Nat.add_sub_cancel, Nat.min_eq_left fits, List.take_left]

theorem attributeValue_of_not_mem {a : Attribute} (missing : a ∉ e.order) (size : ℕ) :
    attributeValue e.text a.key size = none := by
  have nowhere : strstr e.text a.key = none := by
    rw [text, attributes, List.append_assoc]
    exact Attribute.strstr_missing e.value_free missing (by decide) (by decide)
  rw [attributeValue, nowhere]
  rfl

theorem roomStateFromStr_roomStateStr (s : RoomState) : roomStateFromStr (roomStateStr s) = s := by
  cases s <;> decide

/-- A tag of an element gives the room it was written for. -/
theorem roomOfTag_text : roomOfTag e.text = e.room := by
  have id : attributeValue e.text (literal "id=\"") 63 = some e.room.id :=
    e.attributeValue_of_mem e.named.1 e.idSize.2
  have type : attributeValue e.text (literal "type=\"") 31 = some e.room.type :=
    e.attributeValue_of_mem e.named.2 e.typeSize.2
  have state : (roomOfTag e.text).state = e.room.state := by
    by_cases given : .state ∈ e.order
    · have short : (Attribute.state.value e.room).length ≤ 31 := by
        rw [Attribute.value]
        cases e.room.state <;> decide
      have state : attributeValue e.text (literal "state=\"") 31 = some (roomStateStr e.room.state) :=
        e.attributeValue_of_mem given short
      simp only [roomOfTag, state, roomStateFromStr_roomStateStr]
    · have state : attributeValue e.text (literal "state=\"") 31 = none := e.attributeValue_of_not_mem given 31
      simp only [roomOfTag, state, e.stopped given]
      rfl
  change Room.mk (roomOfTag e.text).id (roomOfTag e.text).type (roomOfTag e.text).state = e.room
  rw [state, roomOfTag, id, type]
  rfl

private theorem attribute_length_le (a : Attribute) : (a.text e.room).length ≤ 72 := by
  have key : a.key.length ≤ 7 := by cases a <;> decide
  have value : (a.value e.room).length ≤ 63 := by
    cases a with
    | id => exact e.idSize.2
    | type => exact e.typeSize.2.trans (by decide)
    | state =>
      rw [Attribute.value]
      cases e.room.state <;> decide
  simp only [Attribute.text, List.length_append, List.length_cons, List.length_nil]
  omega

/-- The scratch buffer for a tag is larger than any element. -/
theorem text_length_le : e.text.length ≤ 511 := by
  have few : e.order.length ≤ [Attribute.id, .type, .state].length := by
    apply List.Subperm.length_le
    apply List.Nodup.subperm e.once
    intro a _
    cases a <;> decide
  have sum : ∀ order : List Attribute, (order.flatMap (·.text e.room)).length ≤ 72 * order.length := by
    intro order
    induction order with
    | nil => exact Nat.le_refl 0
    | cons a order ih =>
      have := e.attribute_length_le a
      rw [List.flatMap_cons, List.length_append, List.length_cons]
      omega
  have attributes := sum e.order
  have ends : (literal "<room").length = 5 ∧ (literal "/>").length = 2 := by decide
  rw [List.length_cons, List.length_cons, List.length_singleton] at few
  rw [text, Element.attributes, List.length_append, List.length_append]
  omega

theorem given_room : e.room.Given := by
  have first : ∀ value : Bytes, 1 ≤ value.length → (∀ c ∈ value, Plain c) → value.headD 0 ≠ 0 := by
    intro value nonempty plain
    cases value with
    | nil => exact absurd nonempty (by decide)
    | cons c value =>
      rintro (rfl : c = 0)
      exact plain 0 List.mem_cons_self (by decide)
  exact ⟨first e.room.id e.idSize.1 e.idPlain, first e.room.type e.typeSize.1 e.typePlain⟩

/-- An excluded byte is in the attributes only as part of their notation. -/
private theorem not_mem_attributes {c : UInt8} (excluded : ¬Plain c) (foreign : c ∉ ([32, 34, 61] : Bytes))
    (symbol : c < 97) : c ∉ e.attributes := by
  intro member
  obtain ⟨a, -, within⟩ := List.mem_flatMap.mp member
  have value := fun among => excluded (e.value_plain a c among)
  have name := a.not_mem_name symbol
  simp only [Attribute.text, Attribute.key, List.cons_append, List.mem_cons, List.mem_append, List.not_mem_nil,
    or_false, not_or] at within foreign
  tauto

theorem nul_free : 0 ∉ e.text := by
  have attributes := e.not_mem_attributes (c := 0) (by decide) (by decide) (by decide)
  simp only [text, List.mem_append, not_or]
  exact ⟨⟨by decide, attributes⟩, by decide⟩

/-- The first closing byte of an element is its last byte. -/
theorem text_eq : ∃ inner, 62 ∉ inner ∧ e.text = literal "<room" ++ inner ++ [62] := by
  have attributes := e.not_mem_attributes (c := 62) (by decide) (by decide) (by decide)
  refine ⟨e.attributes ++ [47], ?_, ?_⟩
  · simp [attributes]
  · simp only [text, List.append_assoc]
    rfl

end Element

/-! ## The rooms of a file -/

private theorem opening_apart : literal "<room" ≠ [] ∧ 62 ∉ literal "<room" := by decide

theorem roomTags_gap (gap : Gap) (text : Bytes) : roomTags (gap.bytes ++ text) = roomTags text :=
  tags_skip gap.markupFree text

theorem roomTags_element (e : Element) (text : Bytes) : roomTags (e.text ++ text) = e.text :: roomTags text := by
  obtain ⟨inner, free, same⟩ := e.text_eq
  rw [same, List.append_assoc, List.singleton_append]
  exact tags_cons opening_apart.1 opening_apart.2 free text

/-- What precedes the end of a comment leaves no tag open. -/
theorem roomTags_comment (c : Comment) (text : Bytes) :
    roomTags (c.text ++ text) = roomTags c.text ++ roomTags text := by
  have ends : c.text = literal "<!--" ++ c.bytes ++ [45, 45] ++ [62] := by
    simp only [Comment.text, List.append_assoc]
    rfl
  rw [ends, List.append_assoc _ [62] text]
  exact tags_append_close opening_apart.1 opening_apart.2 _ text

/-- The tag of the root names no room, and its end tag is none. -/
theorem roomTags_root (lead : Gap) (inside : Bytes) (trail : Gap) :
    roomTags (root lead inside trail) =
      literal "<rooms>" :: roomTags (inside ++ (literal "</rooms>" ++ trail.bytes)) := by
  rw [root, roomTags_gap]
  have opened : literal "<rooms>" = literal "<room" ++ literal "s" ++ [62] := by decide
  rw [opened, List.append_assoc _ [62]]
  exact tags_cons opening_apart.1 opening_apart.2 (by decide) _

theorem roomTags_end (trail : Gap) : roomTags (literal "</rooms>" ++ trail.bytes) = [] := by
  apply tags_of_strstr_none
  have other : ¬literal "<room" <+: 60 :: (literal "/rooms>" ++ trail.bytes) := by
    intro here
    have second := List.cons_prefix_cons.mp here
    exact absurd (List.cons_prefix_cons.mp second.2).1 (by decide)
  have free : 60 ∉ literal "/rooms>" ++ trail.bytes := by
    intro member
    exact (List.mem_append.mp member).elim (by decide) trail.markupFree
  change strstr (60 :: (literal "/rooms>" ++ trail.bytes)) (literal "<room") = none
  rw [strstr, if_neg other, strstr_of_not_mem (by decide : 60 ∈ literal "<room") free]

/-- The elements of a content, each with its tag. -/
def elements (parts : List Part) : List Element := parts.filterMap fun
  | .gap _ => none
  | .room element => some element

theorem rooms_eq (parts : List Part) : rooms parts = (elements parts).map Element.room := by
  induction parts with
  | nil => rfl
  | cons part parts ih =>
    cases part with
    | gap text => exact ih
    | room element => exact congrArg (element.room :: ·) ih

theorem roomTags_content (parts : List Part) (text : Bytes) :
    roomTags (content parts ++ text) = (elements parts).map Element.text ++ roomTags text := by
  induction parts with
  | nil => rfl
  | cons part parts ih =>
    rw [content, List.flatMap_cons, List.append_assoc]
    cases part with
    | gap gap => exact (roomTags_gap gap _).trans ih
    | room element => exact (roomTags_element element _).trans (congrArg (element.text :: ·) ih)

theorem roomsOfTags_elements (parts : List Part) :
    roomsOfTags ((elements parts).map Element.text) = rooms parts := by
  rw [rooms_eq]
  induction elements parts with
  | nil => rfl
  | cons e rest ih =>
    have whole : e.text.take 511 = e.text := List.take_of_length_le e.text_length_le
    rw [roomsOfTags, List.map_cons, List.map_cons, List.filter_cons, whole, e.roomOfTag_text,
      if_pos (decide_eq_true e.given_room)]
    exact congrArg (e.room :: ·) ih

theorem content_nul_free (parts : List Part) : 0 ∉ content parts := by
  intro member
  obtain ⟨part, -, within⟩ := List.mem_flatMap.mp member
  cases part with
  | gap text => exact text.nulFree within
  | room element => exact element.nul_free within

theorem Comment.text_nul_free (c : Comment) : 0 ∉ c.text := by
  simp only [text, List.mem_append, not_or]
  exact ⟨⟨by decide, c.nulFree⟩, by decide⟩

/-- A file with one root element gives the rooms of the tags in it. -/
theorem load_root (lead : Gap) {inside : Bytes} (free : 0 ∉ inside) (trail : Gap) :
    locLoadRoomsXml (some (root lead inside trail)) =
      some (0, some (roomsOfTags (roomTags (inside ++ (literal "</rooms>" ++ trail.bytes))))) := by
  have nonempty : root lead inside trail ≠ [] := by simp [root, literal]
  have nulFree : 0 ∉ root lead inside trail := by
    simp only [root, List.mem_append, not_or]
    exact ⟨lead.nulFree, by decide, free, by decide, trail.nulFree⟩
  have unnamed : roomsOfTags [literal "<rooms>"] = [] := by decide
  rw [locLoadRoomsXml_of_nul_free nonempty nulFree, roomTags_root, ← List.singleton_append, roomsOfTags_append, unnamed]
  rfl

/-- Loading undoes writing, whatever the order of the attributes, the text between the elements and their number. -/
theorem locLoadRoomsXml_root (lead : Gap) (parts : List Part) (trail : Gap) :
    locLoadRoomsXml (some (root lead (content parts) trail)) = some (0, some (rooms parts)) := by
  rw [load_root lead (content_nul_free parts), roomTags_content, roomTags_end, List.append_nil, roomsOfTags_elements]

/-! ## Comments -/

/-- The rooms before a comment and those after it are loaded, and between them what the comment's own tags give. -/
theorem load_commented (lead : Gap) (first : List Part) (c : Comment) (second : List Part) (trail : Gap) :
    locLoadRoomsXml (some (root lead (content first ++ (c.text ++ content second)) trail)) =
      some (0, some (rooms first ++ (roomsOfTags (roomTags c.text) ++ rooms second))) := by
  have free : 0 ∉ content first ++ (c.text ++ content second) := by
    simp only [List.mem_append, not_or]
    exact ⟨content_nul_free first, c.text_nul_free, content_nul_free second⟩
  rw [load_root lead free, List.append_assoc, List.append_assoc, roomTags_content, roomTags_comment, roomTags_content,
    roomTags_end, List.append_nil, roomsOfTags_append, roomsOfTags_append, roomsOfTags_elements, roomsOfTags_elements]

/-- Behind the first key in a tag stands a quoted value that is not empty. -/
def Filled (tag key : Bytes) : Prop :=
  ∃ value rest, value ≠ [] ∧ 34 ∉ value ∧ strstr tag key = some (key ++ (value ++ 34 :: rest))

theorem headD_attributeValue {tag : Bytes} (free : 0 ∉ tag) (key : Bytes) {size : ℕ} (positive : 0 < size) :
    ((attributeValue tag key size).getD []).headD 0 ≠ 0 ↔ Filled tag key := by
  constructor
  · intro head
    cases result : attributeValue tag key size with
    | none => exact absurd (by rw [result]; rfl) head
    | some cut =>
      obtain ⟨found, searched, result⟩ := Option.bind_eq_some_iff.mp result
      obtain ⟨q, quoted, -⟩ := Option.bind_eq_some_iff.mp result
      obtain ⟨behind, rfl⟩ := (strstr_some searched).1
      rw [List.drop_left] at quoted
      obtain ⟨value, rest, unquoted, rfl, rfl⟩ := strchr_some quoted
      refine ⟨value, rest, ?_, unquoted, searched⟩
      rintro rfl
      rw [List.nil_append] at searched quoted
      exact head (by simp [attributeValue, searched, quoted])
  · rintro ⟨value, rest, nonempty, unquoted, found⟩
    have cut : attributeValue tag key size = some ((value ++ 34 :: rest).take (min value.length size)) := by
      simp only [attributeValue, found, Option.bind_eq_bind, Option.bind_some, List.drop_left, strchr_skip unquoted,
        strchr_self, List.length_append, Nat.add_sub_cancel]
    obtain ⟨c, others, rfl⟩ := List.exists_cons_of_ne_nil nonempty
    obtain ⟨size, rfl⟩ := Nat.exists_eq_succ_of_ne_zero positive.ne'
    have within : c ∈ tag := (strstr_some found).2.subset (by simp)
    rw [cut]
    intro zero
    obtain rfl : c = 0 := by simpa using zero
    exact free within

/-- The tag has a value for each of the two attributes a room needs. -/
theorem given_roomOfTag_iff {tag : Bytes} (free : 0 ∉ tag) :
    (roomOfTag tag).Given ↔ Filled tag (literal "id=\"") ∧ Filled tag (literal "type=\"") :=
  and_congr (headD_attributeValue free _ (by decide)) (headD_attributeValue free _ (by decide))

/-- A comment changes nothing exactly if none of its tags names a room. -/
theorem comment_ignored_iff (lead : Gap) (first : List Part) (c : Comment) (second : List Part) (trail : Gap) :
    locLoadRoomsXml (some (root lead (content first ++ (c.text ++ content second)) trail)) =
        locLoadRoomsXml (some (root lead (content (first ++ second)) trail)) ↔
      ∀ tag ∈ roomTags c.text,
        ¬(Filled (tag.take 511) (literal "id=\"") ∧ Filled (tag.take 511) (literal "type=\"")) := by
  have without : rooms (first ++ second) = rooms first ++ rooms second := List.filterMap_append
  rw [load_commented, load_root lead (content_nul_free _), roomTags_content, roomTags_end, List.append_nil,
    roomsOfTags_elements, without]
  simp only [Option.some.injEq, Prod.mk.injEq, true_and, List.append_cancel_left_eq, List.append_left_eq_self]
  rw [roomsOfTags_eq_nil_iff]
  apply forall₂_congr
  intro tag member
  have free : 0 ∉ tag.take 511 := fun zero =>
    c.text_nul_free ((infix_of_mem_tags member).subset (List.mem_of_mem_take zero))
  exact not_congr (given_roomOfTag_iff free)

/-- No text at all. -/
def Gap.empty : Gap := ⟨[], by decide, by decide⟩

def cpuRoom : Element where
  room := ⟨literal "cpu_room", literal "cpu", .started⟩
  order := [.id, .type, .state]
  idSize := by decide
  typeSize := by decide
  idPlain := plain_of_all (by decide)
  typePlain := plain_of_all (by decide)
  once := by decide
  named := by decide
  stopped := by decide

/-- A room that has been commented out. -/
def hiddenRoom : Comment := ⟨literal " <room id=\"mem_room\" type=\"mem\"/> ", by decide, by decide +kernel⟩

theorem hiddenRoom_loaded :
    locLoadRoomsXml (some (root .empty (content [.room cpuRoom] ++ (hiddenRoom.text ++ content [])) .empty)) =
        some (0, some [cpuRoom.room, ⟨literal "mem_room", literal "mem", .stopped⟩]) ∧
      locLoadRoomsXml (some (root .empty (content ([.room cpuRoom] ++ [])) .empty)) =
        some (0, some [cpuRoom.room]) := by
  have tag : roomTags hiddenRoom.text = [literal "<room id=\"mem_room\" type=\"mem\"/>"] := by decide +kernel
  have seen : roomsOfTags [literal "<room id=\"mem_room\" type=\"mem\"/>"] =
      [⟨literal "mem_room", literal "mem", .stopped⟩] := by decide +kernel
  constructor
  · rw [load_commented, tag, seen]
    rfl
  · rw [load_root .empty (content_nul_free _), roomTags_content, roomTags_end, List.append_nil, roomsOfTags_elements]
    rfl

end ProcessMonitor.Soundness.RoomsFile
