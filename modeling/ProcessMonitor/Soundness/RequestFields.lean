import ProcessMonitor.Machine.Text.Members
import ProcessMonitor.Soundness.FlatObject

/-! # The fields that a legacy request has

What a request says is a matter of its text and not of how `json_get_str` searches it. Its id is the value of its member
`req_id`, and it is to fail exactly if its `op` is the string `FAIL`. On a flat object the search and the members agree
where the words that spell a key lead to its value.
-/

namespace ProcessMonitor.Soundness.RequestFields

open Machine Machine.Posix Machine.Text Model.Vts FlatObject

/-- The value of the request's `req_id` as it is written. -/
def reqId (payload : Bytes) : Option Bytes := memberOf payload (literal "req_id")

/-- The id as it is written between its quotes, if it is a string. -/
def writtenId (payload : Bytes) : Option Bytes := (reqId payload).bind inQuotes

/-- The id that the request's text denotes. -/
def denotedId (payload : Bytes) : Option Bytes := (writtenId payload).bind Json.unescape

/-- The operation that the request's text denotes. -/
def denotedOp (payload : Bytes) : Option Bytes :=
  ((memberOf payload (literal "op")).bind inQuotes).bind Json.unescape

/-- The result of the request's own operation. -/
def ownResult (payload : Bytes) : ℤ := if denotedOp payload = some (literal "FAIL") then 0 else 1

/-! ## Flat objects -/

/-- A field whose key and value need no escapes. -/
def PlainField (f : Field) : Prop := (∀ c ∈ f.key, Json.Plain c) ∧ Unescaped f.val

theorem unescaped_of_plain {raw : Bytes} (clean : ∀ c ∈ raw, Json.Plain c) : Unescaped raw :=
  ⟨fun member => (clean 34 member).2.1 rfl, fun member => (clean 92 member).2.2 rfl⟩

theorem text_eq (f : Field) : f.text = inQuotation f.key ++ 58 :: inQuotation f.val := (inQuotation_append _ _).symm

theorem memberTexts_text {f : Field} (plain : PlainField f) (text : Bytes) :
    memberTexts .top (f.text ++ text) = (memberTexts .top text).modifyHead (f.text ++ ·) := by
  have value : memberTexts .top (58 :: (inQuotation f.val ++ text)) =
      (memberTexts .top (inQuotation f.val ++ text)).modifyHead (58 :: ·) := rfl
  rw [text_eq, List.append_assoc, memberTexts_string (unescaped_of_plain plain.1), List.cons_append, value,
    memberTexts_string plain.2, List.modifyHead_modifyHead, List.modifyHead_modifyHead]
  congr 1
  funext rest
  simp

theorem splitColon_text {f : Field} (plain : PlainField f) :
    splitColon .top f.text = some (inQuotation f.key, inQuotation f.val) := by
  rw [text_eq, splitColon_string (unescaped_of_plain plain.1)]
  change some (inQuotation f.key ++ [], inQuotation f.val) = _
  rw [List.append_nil]

theorem memberTexts_membersText {fields : List Field} (plain : ∀ f ∈ fields, PlainField f) :
    memberTexts .top (membersText fields) = [] :: fields.map Field.text := by
  induction fields with
  | nil => rfl
  | cons f rest ih =>
    rw [List.forall_mem_cons] at plain
    change [] :: memberTexts .top (f.text ++ membersText rest) = _
    rw [memberTexts_text plain.1, ih plain.2]
    simp

/-- The members of a flat object are its fields. -/
theorem members_objectText {fields : List Field} (plain : ∀ f ∈ fields, PlainField f) :
    members (objectText fields) = fields.map fun f => (inQuotation f.key, inQuotation f.val) := by
  cases fields with
  | nil => rfl
  | cons f rest =>
    rw [List.forall_mem_cons] at plain
    have texts : memberTexts .top (f.text ++ membersText rest) = (f :: rest).map Field.text := by
      rw [memberTexts_text plain.1, memberTexts_membersText plain.2]
      simp
    change (memberTexts .top (f.text ++ membersText rest)).filterMap _ = _
    rw [texts, List.filterMap_map, ← List.filterMap_eq_map]
    apply List.filterMap_congr
    intro g member
    have plainField : PlainField g := by
      rcases List.mem_cons.mp member with rfl | later
      exacts [plain.1, plain.2 g later]
    simp [splitColon_text plainField, trimSpace_inQuotation]

theorem memberOf_objectText {fields : List Field} (plain : ∀ f ∈ fields, PlainField f) (key : Bytes) :
    memberOf (objectText fields) key = (valueOf key fields).map inQuotation := by
  rw [memberOf, members_objectText plain]
  induction fields with
  | nil => rfl
  | cons f rest ih =>
    rw [List.forall_mem_cons] at plain
    have name : (inQuotes (inQuotation f.key)).bind Json.unescape = some f.key := by
      rw [inQuotes_inQuotation (unescaped_of_plain plain.1.1), Option.bind_some, Json.unescape_plain plain.1.1]
    rw [List.map_cons, valueOf]
    by_cases own : f.key = key
    · rw [if_pos own, List.find?_cons_of_pos]
      · rfl
      · exact decide_eq_true (name.trans (congrArg some own))
    · rw [if_neg own, List.find?_cons_of_neg, ih plain.2]
      exact fun same => own (Option.some.inj (name.symm.trans (of_decide_eq_true same)))

theorem valueOf_mem {key value : Bytes} {fields : List Field} (found : valueOf key fields = some value) :
    ∃ f ∈ fields, f.val = value := by
  induction fields with
  | nil => cases found
  | cons f rest ih =>
    rw [valueOf] at found
    split_ifs at found
    · exact ⟨f, List.mem_cons_self, Option.some.inj found⟩
    · obtain ⟨g, member, same⟩ := ih found
      exact ⟨g, List.mem_cons_of_mem f member, same⟩

/-- From a flat object `json_get_str` takes the object's own field exactly where the words lead to it. -/
theorem jsonField_eq_memberOf_iff {fields : List Field} (plain : ∀ f ∈ fields, PlainField f) {key : Bytes}
    (short : key.length ≤ 61) (keyFree : quote ∉ key) :
    jsonField (objectText fields) key = (memberOf (objectText fields) key).bind inQuotes ↔ Located key fields := by
  have own : (memberOf (objectText fields) key).bind inQuotes = valueOf key fields := by
    rw [memberOf_objectText plain]
    cases found : valueOf key fields with
    | none => rfl
    | some value =>
      obtain ⟨f, member, rfl⟩ := valueOf_mem found
      exact inQuotes_inQuotation (plain f member).2
  rw [own, jsonField_objectText short keyFree]

end ProcessMonitor.Soundness.RequestFields
