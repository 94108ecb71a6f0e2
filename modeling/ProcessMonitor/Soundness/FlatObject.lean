import ProcessMonitor.Model.Cli.SystemMonitor
import ProcessMonitor.Model.Vts.ReqHandler

/-! # Fields of a flat object

`json_get_str` looks for the quoted key, then for a colon, then for the next quoted text. It does not know
keys from values: the first quoted word that spells the key counts, be it a key, a value, or the `:` or `,`
between two quotes. The words of an object are gone through in order, and what is read from
each place is compared with the field that was asked for.
-/

namespace ProcessMonitor.Soundness.FlatObject

open Machine Machine.Posix Model.Vts

def comma : UInt8 := 44

/-- A member of an object, in characters that need no escape. -/
structure Field where
  key : Bytes
  val : Bytes
  keyFree : quote ∉ key
  valFree : quote ∉ val

/-- `"key":"val"` -/
def Field.text (f : Field) : Bytes := quote :: (f.key ++ quote :: colon :: quote :: (f.val ++ [quote]))

/-- The members after the first, up to the closing brace. -/
def membersText : List Field → Bytes
  | [] => literal "\x7d"
  | f :: rest => comma :: (f.text ++ membersText rest)

/-- The object in compact form. -/
def objectText : List Field → Bytes
  | [] => literal "\x7b\x7d"
  | f :: rest => literal "\x7b" ++ (f.text ++ membersText rest)

/-- The value of a key. -/
def valueOf (key : Bytes) : List Field → Option Bytes
  | [] => none
  | f :: rest => if f.key = key then some f.val else valueOf key rest

/-! ## The words of an object -/

/-- The texts between the quotes from the end of a value on. -/
def tailWords : List Field → List Bytes
  | [] => [literal "\x7d"]
  | f :: rest => [comma] :: f.key :: [colon] :: f.val :: tailWords rest

def fieldWords (f : Field) (rest : List Field) : List Bytes := f.key :: [colon] :: f.val :: tailWords rest

theorem tailWords_cons (f : Field) (rest : List Field) : tailWords (f :: rest) = [comma] :: fieldWords f rest := rfl

theorem tailWords_ne_nil (fields : List Field) : ∃ first rest, tailWords fields = first :: rest := by
  cases fields with
  | nil => exact ⟨_, _, rfl⟩
  | cons f rest => exact ⟨_, _, rfl⟩

theorem join_fieldWords (f : Field) (rest : List Field) :
    quote :: joinSegments quote (fieldWords f rest) = f.text ++ joinSegments quote (tailWords rest) := by
  obtain ⟨first, more, eq⟩ := tailWords_ne_nil rest
  simp only [fieldWords, eq, joinSegments_cons_cons, Field.text, List.cons_append, List.append_assoc, List.nil_append]

theorem join_tailWords (fields : List Field) : joinSegments quote (tailWords fields) = membersText fields := by
  induction fields with
  | nil => rfl
  | cons f rest ih =>
    rw [tailWords_cons, membersText, ← ih, ← join_fieldWords]
    rfl

theorem objectText_cons (f : Field) (rest : List Field) :
    objectText (f :: rest) = joinSegments quote (literal "\x7b" :: fieldWords f rest) := by
  rw [objectText, ← join_tailWords, ← join_fieldWords]
  rfl

theorem quote_not_mem_tailWords (fields : List Field) : ∀ word ∈ tailWords fields, quote ∉ word := by
  induction fields with
  | nil => decide
  | cons f rest ih =>
    simp only [tailWords, List.forall_mem_cons]
    exact ⟨by decide, f.keyFree, by decide, f.valFree, ih⟩

/-! ## What is read from each place -/

/-- From the key of a field: its value, but for a colon in the key itself. -/
theorem valueAfterColon_fieldWords (f : Field) (rest : List Field) :
    valueAfterColon (fieldWords f rest) = some (if colon ∈ f.key then [colon] else f.val) := by
  obtain ⟨first, more, eq⟩ := tailWords_ne_nil rest
  rw [fieldWords, eq, valueAfterColon]
  by_cases inKey : colon ∈ f.key
  · rw [if_pos inKey, if_pos inKey]
  · rw [if_neg inKey, if_neg inKey, valueAfterColon, if_pos List.mem_cons_self]

/-- From a value that spells `key`: something of the next field, if there is one. -/
def readPast (key : Bytes) : List Field → Option Bytes
  | [] => none
  | next :: _ => some (if colon ∈ key then [comma] else if colon ∈ next.key then [colon] else next.val)

theorem valueAfterColon_value (key : Bytes) (rest : List Field) :
    valueAfterColon (key :: tailWords rest) = readPast key rest := by
  cases rest with
  | nil => rfl
  | cons next rest =>
    by_cases inKey : colon ∈ key
    · rw [tailWords, valueAfterColon, if_pos inKey, readPast, if_pos inKey]
    · have separator : colon ∉ [comma] := by decide
      rw [valueAfterColon_skip inKey, tailWords_cons, valueAfterColon_skip separator, valueAfterColon_fieldWords,
        readPast, if_neg inKey]

/-- The search of `json_get_str` through quoted words. -/
def search (key : Bytes) (words : List Bytes) : Option Bytes := (segmentsFrom key words).bind valueAfterColon

theorem search_self (word second : Bytes) (rest : List Bytes) :
    search word (word :: second :: rest) = valueAfterColon (word :: second :: rest) := by
  rw [search, segmentsFrom_self, Option.bind_some]

theorem search_skip {key first : Bytes} (other : first ≠ key) (second : Bytes) (rest : List Bytes) :
    search key (first :: second :: rest) = search key (second :: rest) := by
  rw [search, segmentsFrom_skip other, search]

/-- The search from the comma before a field on, which may itself spell the key. -/
theorem search_tailWords_cons (key : Bytes) (next : Field) (rest : List Field) :
    search key (tailWords (next :: rest)) =
      if key = [comma] then readPast key (next :: rest) else search key (fieldWords next rest) := by
  rw [tailWords_cons]
  by_cases separator : key = [comma]
  · have noColon : colon ∉ [comma] := by decide
    rw [if_pos separator, separator, readPast, if_neg noColon, ← valueAfterColon_fieldWords,
      ← valueAfterColon_skip noColon]
    exact search_self [comma] _ _
  · rw [if_neg separator]
    exact search_skip (Ne.symm separator) _ _

/-- The search from the key of a field on. -/
theorem search_fieldWords (key : Bytes) (f : Field) (rest : List Field) :
    search key (fieldWords f rest) =
      if f.key = key then some (if colon ∈ key then [colon] else f.val)
      else if key = [colon] then some f.val
      else if f.val = key then readPast key rest
      else search key (tailWords rest) := by
  obtain ⟨first, more, eq⟩ := tailWords_ne_nil rest
  by_cases own : f.key = key
  · rw [if_pos own, ← own, ← valueAfterColon_fieldWords]
    exact search_self f.key _ _
  · rw [if_neg own, fieldWords, search_skip own]
    by_cases separator : key = [colon]
    · rw [if_pos separator, separator, eq, search_self, valueAfterColon, if_pos List.mem_cons_self]
    · rw [if_neg separator, search_skip (Ne.symm separator)]
      by_cases value : f.val = key
      · rw [if_pos value, value, ← valueAfterColon_value, eq, search_self]
      · rw [if_neg value, eq, search_skip value]

/-- The first word of the object that spells `key` is one from which the value of `key` is read. A colon as
the key is spelled by what stands between a key and its value, and a comma by what stands between two
fields. -/
def Located (key : Bytes) : List Field → Prop
  | [] => True
  | f :: rest =>
    if f.key = key then colon ∈ key → f.val = [colon]
    else if key = [colon] then valueOf key rest = some f.val
    else if f.val = key ∨ key = [comma] then valueOf key rest = readPast key rest
    else Located key rest

instance decidableLocated (key : Bytes) : DecidablePred (Located key)
  | [] => .isTrue trivial
  | f :: rest =>
    have := decidableLocated key rest
    by unfold Located; infer_instance

/-- One field of the induction: the rest is settled from the comma after it on. -/
private theorem search_step {key : Bytes} (f : Field) {rest : List Field}
    (tail : search key (tailWords rest) = valueOf key rest ↔
      if key = [comma] then valueOf key rest = readPast key rest else Located key rest) :
    search key (fieldWords f rest) = valueOf key (f :: rest) ↔ Located key (f :: rest) := by
  rw [search_fieldWords, valueOf, Located]
  by_cases own : f.key = key
  · simp only [if_pos own, Option.some.injEq]
    by_cases inKey : colon ∈ key
    · simp only [inKey, if_true, forall_const, eq_comm]
    · simp only [inKey, if_false, IsEmpty.forall_iff]
  · simp only [if_neg own]
    by_cases separator : key = [colon]
    · rw [if_pos separator, if_pos separator, eq_comm]
    · rw [if_neg separator, if_neg separator]
      by_cases value : f.val = key
      · rw [if_pos value, if_pos (.inl value), eq_comm]
      · rw [if_neg value, tail]
        simp only [value, false_or]

theorem search_tail_iff (key : Bytes) (rest : List Field) :
    search key (tailWords rest) = valueOf key rest ↔
      if key = [comma] then valueOf key rest = readPast key rest else Located key rest := by
  induction rest with
  | nil =>
    have both : search key (tailWords []) = valueOf key [] := rfl
    refine iff_of_true both ?_
    split
    · rfl
    · trivial
  | cons next rest ih =>
    rw [search_tailWords_cons]
    by_cases separator : key = [comma]
    · rw [if_pos separator, if_pos separator, eq_comm]
    · rw [if_neg separator, if_neg separator]
      exact search_step next ih

theorem jsonField_objectText {key : Bytes} (short : key.length ≤ 61) (keyFree : quote ∉ key) (fields : List Field) :
    jsonField (objectText fields) key = valueOf key fields ↔ Located key fields := by
  cases fields with
  | nil =>
    have unquoted : ∀ segment ∈ [literal "\x7b\x7d"], quote ∉ segment := by decide
    have absent := jsonField_joinSegments short keyFree (literal "\x7b\x7d") unquoted
    exact iff_of_true absent trivial
  | cons f rest =>
    have free : ∀ segment ∈ literal "\x7b" :: fieldWords f rest, quote ∉ segment := by
      simp only [fieldWords, List.forall_mem_cons]
      exact ⟨by decide, f.keyFree, by decide, f.valFree, quote_not_mem_tailWords rest⟩
    rw [objectText_cons, jsonField_joinSegments short keyFree _ free]
    exact search_step f (search_tail_iff key rest)

/-- The field is read right into every buffer. -/
def Reads (fields : List Field) (key : Bytes) : Prop :=
  ∀ outsz, 0 < outsz → jsonGetStr (objectText fields) key outsz = (valueOf key fields).map (List.take (outsz - 1))

theorem reads_iff_jsonField (fields : List Field) (key : Bytes) :
    Reads fields key ↔ jsonField (objectText fields) key = valueOf key fields := by
  constructor
  · intro reads
    -- a buffer that is large enough for both texts cuts neither
    generalize found : jsonField (objectText fields) key = read
    generalize asked : valueOf key fields = value
    have room : 0 < (read.getD []).length + (value.getD []).length + 1 := Nat.succ_pos _
    have same := reads _ room
    rw [jsonGetStr_eq _ _ room, found, asked, Nat.add_sub_cancel] at same
    cases read with
    | none => exact (Option.map_eq_none_iff.mp same.symm).symm
    | some read =>
      cases value with
      | none => cases same
      | some value =>
        simp only [Option.map_some, Option.some.injEq, Option.getD_some] at same ⊢
        rwa [List.take_of_length_le (Nat.le_add_right _ _), List.take_of_length_le (Nat.le_add_left _ _)] at same
  · intro same outsz room
    rw [jsonGetStr_eq _ _ room, same]

/-! ## The edit command -/

/-- The arguments of `edit TARGET NAME --set KEY VAL` in characters that need no escape. -/
structure Edit where
  target : Bytes
  name : Bytes
  arg : Bytes
  val : Bytes
  targetFree : quote ∉ target
  nameFree : quote ∉ name
  argFree : quote ∉ arg
  valFree : quote ∉ val

namespace Edit

def fields (e : Edit) : List Field :=
  [⟨literal "cmd", literal "edit", by decide, by decide⟩, ⟨literal "target", e.target, by decide, e.targetFree⟩,
    ⟨literal "name", e.name, by decide, e.nameFree⟩, ⟨literal "key", e.arg, by decide, e.argFree⟩,
    ⟨literal "val", e.val, by decide, e.valFree⟩]

/-- The text that `build_payload` formats is the object of the five fields. -/
theorem objectText_fields (e : Edit) :
    objectText e.fields = Model.Cli.editText (literal "edit") e.target e.name e.arg e.val := by
  simp only [fields, objectText, membersText, Field.text, Model.Cli.editText, Model.Cli.namedText, List.append_assoc,
    List.cons_append, List.nil_append]
  rfl

/-- Both fields that `handle_cli` takes from the payload are the ones that were given. -/
def Recovered (e : Edit) : Prop :=
  ∀ outsz, 0 < outsz →
    jsonGetStr (Model.Cli.editText (literal "edit") e.target e.name e.arg e.val) (literal "key") outsz =
        some (e.arg.take (outsz - 1)) ∧
      jsonGetStr (Model.Cli.editText (literal "edit") e.target e.name e.arg e.val) (literal "val") outsz =
        some (e.val.take (outsz - 1))

theorem recovered_iff_reads (e : Edit) :
    e.Recovered ↔ Reads e.fields (literal "key") ∧ Reads e.fields (literal "val") := by
  have arg : valueOf (literal "key") e.fields = some e.arg := rfl
  have val : valueOf (literal "val") e.fields = some e.val := rfl
  rw [Recovered, Reads, Reads, arg, val, objectText_fields]
  simp only [Option.map_some, forall_and]

/-- No argument before a field spells its name, or what follows that argument is the same text. -/
def Unmistaken (e : Edit) : Prop :=
  (e.target = literal "key" → e.name = e.arg) ∧ (e.target = literal "val" → e.name = e.val) ∧
    (e.target ≠ literal "val" → e.name = literal "val" → e.arg = e.val)

instance : DecidablePred Unmistaken := fun e =>
  inferInstanceAs (Decidable ((e.target = literal "key" → e.name = e.arg) ∧ (e.target = literal "val" → _) ∧ (_ → _)))

theorem located_key_iff (e : Edit) :
    Located (literal "key") e.fields ↔ (e.target = literal "key" → e.name = e.arg) := by
  have noColon : colon ∉ literal "key" := by decide
  have others : literal "cmd" ≠ literal "key" ∧ literal "edit" ≠ literal "key" ∧ literal "target" ≠ literal "key" ∧
    literal "name" ≠ literal "key" ∧ literal "key" ≠ [colon] ∧ literal "key" ≠ [comma] ∧
      colon ∉ literal "name" := by decide
  obtain ⟨cmd, edit, target, name, isColon, isComma, inName⟩ := others
  simp only [fields, Located, valueOf, readPast, cmd, edit, target, name, isColon, isComma, noColon, inName, if_false,
    if_true, or_false, IsEmpty.forall_iff, Option.some.injEq, ite_self]
  by_cases spelled : e.target = literal "key"
  · simp only [spelled, if_true, forall_const, eq_comm]
  · simp only [spelled, if_false, IsEmpty.forall_iff]

theorem located_val_iff (e : Edit) :
    Located (literal "val") e.fields ↔ (e.target = literal "val" → e.name = e.val) ∧
      (e.target ≠ literal "val" → e.name = literal "val" → e.arg = e.val) := by
  have noColon : colon ∉ literal "val" := by decide
  have others : literal "cmd" ≠ literal "val" ∧ literal "edit" ≠ literal "val" ∧ literal "target" ≠ literal "val" ∧
    literal "name" ≠ literal "val" ∧ literal "key" ≠ literal "val" ∧ literal "val" ≠ [colon] ∧
      literal "val" ≠ [comma] ∧ colon ∉ literal "name" ∧ colon ∉ literal "key" := by decide
  obtain ⟨cmd, edit, target, name, key, isColon, isComma, inName, inKey⟩ := others
  simp only [fields, Located, valueOf, readPast, cmd, edit, target, name, key, isColon, isComma, noColon, inName, inKey,
    if_false, if_true, or_false, IsEmpty.forall_iff, Option.some.injEq, ite_self]
  by_cases spelled : e.target = literal "val"
  · simp only [spelled, if_true, forall_const, ne_eq, not_true_eq_false, IsEmpty.forall_iff, and_true, eq_comm]
  · simp only [spelled, if_false, IsEmpty.forall_iff, ne_eq, not_false_eq_true, forall_const, true_and]
    by_cases named : e.name = literal "val"
    · simp only [named, if_true, forall_const, eq_comm]
    · simp only [named, if_false, IsEmpty.forall_iff]

end Edit

/-- A field is read right exactly if the words that spell its key lead to it; the two fields of an edit
command, exactly if no argument before them is mistaken for their name. -/
theorem fields_read_iff {key : Bytes} (short : key.length ≤ 61) (keyFree : quote ∉ key) (fields : List Field) :
    (Reads fields key ↔ Located key fields) ∧ ∀ e : Edit, e.Recovered ↔ e.Unmistaken := by
  have located {key : Bytes} (short : key.length ≤ 61) (keyFree : quote ∉ key) (fields : List Field) :
      Reads fields key ↔ Located key fields := by
    rw [reads_iff_jsonField, jsonField_objectText short keyFree]
  refine ⟨located short keyFree fields, fun e => ?_⟩
  rw [e.recovered_iff_reads, located (by decide) (by decide), located (by decide) (by decide), e.located_key_iff,
    e.located_val_iff, Edit.Unmistaken]

/-- `edit room cpu --set poll 5` -/
def plainEdit : Edit :=
  ⟨literal "room", literal "cpu", literal "poll", literal "5", by decide, by decide, by decide, by decide⟩

theorem fields_read_iff_edit : Reads plainEdit.fields (literal "name") ∧ plainEdit.Recovered := by
  have short : (literal "name").length ≤ 61 := by decide
  have read := fields_read_iff short (by decide : quote ∉ literal "name") plainEdit.fields
  exact ⟨read.1.mpr (by decide +kernel), (read.2 plainEdit).mpr (by decide +kernel)⟩

/-- A room with the name `val`: the value read for `val` is the argument for `key`. -/
def roomNamedVal : Edit := { plainEdit with name := literal "val", nameFree := by decide }

/-- An object with a value that spells an absent key. -/
def spelledKey : List Field :=
  [⟨literal "a", literal "b", by decide, by decide⟩, ⟨literal "c", literal "d", by decide, by decide⟩]

theorem spelled_keys_misread :
    jsonGetStr (Model.Cli.editText (literal "edit") (literal "room") (literal "val") (literal "poll") (literal "5"))
        (literal "val") 128 = some (literal "poll") ∧ ¬ roomNamedVal.Recovered ∧
      jsonGetStr (objectText spelledKey) (literal "b") 128 = some (literal "d") ∧
        valueOf (literal "b") spelledKey = none ∧ ¬ Reads spelledKey (literal "b") := by
  have val : jsonGetStr (Model.Cli.editText (literal "edit") (literal "room") (literal "val") (literal "poll")
      (literal "5")) (literal "val") 128 = some (literal "poll") := by decide +kernel
  have absent : jsonGetStr (objectText spelledKey) (literal "b") 128 = some (literal "d") := by decide +kernel
  refine ⟨val, fun recovered => ?_, absent, rfl, fun reads => ?_⟩
  · have right := (recovered 128 (by decide)).2
    exact absurd (val.symm.trans right) (by decide)
  · have right := reads 128 (by decide)
    exact absurd (absent.symm.trans right) (by decide)

end ProcessMonitor.Soundness.FlatObject
