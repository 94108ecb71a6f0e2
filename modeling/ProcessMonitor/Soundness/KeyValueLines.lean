import ProcessMonitor.Machine.Core.Delimited
import ProcessMonitor.Model.LibPm.Parser

/-! # What `pm_parse_kv` finds

The walk over the text visits its lines in order, the last one with or without a newline. The three tests on a line
hold exactly if the line is the key, an equals sign and a value that is not empty, whatever follows the line in the
text. The value goes through the buffer of the caller, which keeps its bytes behind `val_sz`.
-/

namespace ProcessMonitor.Soundness.KeyValueLines

open Machine Machine.Posix Model.LibPm

/-- The pieces between the newlines. -/
def lines (text : Bytes) : List Bytes := text.splitOn newline

/-- The line gives the key a value. -/
def Assigns (key line value : Bytes) : Prop := value ≠ [] ∧ line = key ++ equals :: value

instance (key line value : Bytes) : Decidable (Assigns key line value) := inferInstanceAs (Decidable (_ ∧ _))

/-- A key without an equals sign is the whole key of the line, which ends at its first equals sign. -/
theorem assigns_iff {key : Bytes} (free : equals ∉ key) (line value : Bytes) :
    Assigns key line value ↔
      value ≠ [] ∧ line.takeWhile (· ≠ equals) = key ∧ line.dropWhile (· ≠ equals) = equals :: value := by
  rw [Assigns]
  apply and_congr_right
  intro _
  constructor
  · rintro rfl
    have before : ∀ c ∈ key, decide (c ≠ equals) = true := fun c member =>
      decide_eq_true fun same => free (same ▸ member)
    constructor
    · rw [List.takeWhile_append_of_pos before, List.takeWhile_cons_of_neg (by simp), List.append_nil]
    · rw [List.dropWhile_append_of_pos before, List.dropWhile_cons_of_neg (by simp)]
  · rintro ⟨taken, dropped⟩
    rw [← List.takeWhile_append_dropWhile (p := (· ≠ equals)) (l := line), taken, dropped]

/-! ## One line -/

section Line

variable {line more : Bytes} (free : newline ∉ line) (ends : more = [] ∨ ∃ rest, more = newline :: rest)
include free ends

theorem takeWhile_first : (line ++ more).takeWhile (· ≠ newline) = line := by
  rcases ends with rfl | ⟨rest, rfl⟩
  · rw [List.append_nil, List.takeWhile_eq_self_iff]
    exact fun c member => decide_eq_true fun same => free (same ▸ member)
  · exact takeWhile_line free rest

theorem dropWhile_first : (line ++ more).dropWhile (· ≠ newline) = more := by
  rcases ends with rfl | ⟨rest, rfl⟩
  · rw [List.append_nil, List.dropWhile_eq_nil_iff]
    exact fun c member => decide_eq_true fun same => free (same ▸ member)
  · exact dropWhile_line free rest

omit free ends in
/-- The tests look at the line alone. -/
theorem tests_iff (key line more : Bytes) :
    key.length + 1 < line.length ∧ key <+: line ++ more ∧ (line ++ more)[key.length]? = some equals ↔
      ∃ value, Assigns key line value := by
  constructor
  · rintro ⟨long, begins, sign⟩
    have within : key <+: line :=
      List.prefix_of_prefix_length_le begins (List.prefix_append line more) (by omega)
    obtain ⟨tail, rfl⟩ := within
    rw [List.length_append] at long
    rw [List.append_assoc, List.getElem?_append_right le_rfl, Nat.sub_self] at sign
    obtain ⟨c, value, rfl⟩ := List.exists_cons_of_length_pos (show 0 < tail.length by omega)
    cases sign
    refine ⟨value, ?_, rfl⟩
    rintro rfl
    rw [List.length_singleton] at long
    omega
  · rintro ⟨value, nonempty, rfl⟩
    have positive := List.length_pos_iff.mpr nonempty
    refine ⟨?_, ?_, ?_⟩
    · rw [List.length_append, List.length_cons]
      omega
    · rw [List.append_assoc]
      exact List.prefix_append _ _
    · rw [List.append_assoc, List.getElem?_append_right le_rfl, Nat.sub_self]
      rfl

/-- A line without a value for the key is passed over. -/
theorem pmParseKvInto_skip {key : Bytes} (other : ∀ value, ¬ Assigns key line value) (val : Bytes) (valSz : ℕ) :
    pmParseKvInto (line ++ more) key val valSz = pmParseKvInto more.tail key val valSz := by
  by_cases empty : line ++ more = []
  · obtain ⟨-, rfl⟩ := List.append_eq_nil_iff.mp empty
    rw [empty, List.tail_nil]
  · have fails := mt (tests_iff key line more).mp fun found => other _ found.choose_spec
    rw [pmParseKvInto, if_neg empty, takeWhile_first free ends, if_neg fails, dropWhile_first free ends]

/-- What the caller finds after a line with a value. -/
theorem pmParseKvInto_found {key value val : Bytes} {valSz : ℕ} (assigns : Assigns key line value)
    (string : 0 ∉ line) (room : 1 ≤ valSz) (buffer : valSz ≤ val.length) (word : valSz < 2 ^ 64) :
    ∃ after, pmParseKvInto (line ++ more) key val valSz = some (0, after) ∧
      cstr after = trim (value.take (valSz - 1)) ∧ after.length = val.length ∧
      after.drop valSz = val.drop valSz := by
  have passes := (tests_iff key line more).mpr ⟨value, assigns⟩
  have whole : line ++ more ≠ [] := by
    intro empty
    rw [(List.append_eq_nil_iff.mp empty).1] at passes
    exact absurd passes.1 (Nat.not_lt_zero _)
  rw [pmParseKvInto, if_neg whole, takeWhile_first free ends, if_pos passes]
  obtain ⟨-, rfl⟩ := assigns
  have string : 0 ∉ value.take (valSz - 1) := fun member =>
    string (List.mem_append_right key (List.mem_cons_of_mem equals (List.mem_of_mem_take member)))
  generalize kept : value.take (valSz - 1) = text at string
  have length : text.length = min (valSz - 1) value.length := by rw [← kept, List.length_take]
  have rest : (key ++ equals :: value).length - (key.length + 1) = value.length := by
    rw [List.length_append, List.length_cons]
    omega
  have copy : (if valSz ≤ value.length then (valSz + 2 ^ 64 - 1) % 2 ^ 64 else value.length) = text.length := by
    split <;> omega
  have behind : (key ++ equals :: value ++ more).drop (key.length + 1) = value ++ more := by
    rw [List.append_cons, List.append_assoc, List.drop_left' (by rw [List.length_append]; rfl)]
  have source : (value ++ more).take text.length = text := by
    rw [List.take_append_of_le_length (by omega), length, ← List.take_take, List.take_length, kept]
  obtain ⟨filler, trimmed, size⟩ := trimInPlace_string string (val.drop (text.length + 1))
  have stored := store_string (show text.length < val.length by omega)
  obtain ⟨copied, first, second⟩ := Option.bind_eq_some_iff.mp stored
  have inner : 0 ∉ trim text := fun member =>
    string ((List.dropWhile_suffix _).subset ((List.rdropWhile_prefix _ _).subset member))
  simp only [rest, copy, behind, source, first, second, bind, Option.bind_some]
  rw [holding, trimmed, Option.bind_some]
  refine ⟨_, rfl, cstr_append_nul inner _, ?_, ?_⟩
  · simp only [List.length_append, List.length_cons, List.length_drop]
    omega
  · have regrouped : trim text ++ 0 :: (filler ++ val.drop (text.length + 1)) =
        trim text ++ 0 :: filler ++ val.drop (text.length + 1) := by
      rw [List.append_assoc, List.cons_append]
    have front : (trim text ++ 0 :: filler).length = text.length + 1 := by
      rw [List.length_append, List.length_cons]
      omega
    obtain ⟨beyond, sum⟩ := Nat.exists_eq_add_of_le (show text.length + 1 ≤ valSz by omega)
    rw [regrouped, sum, ← List.drop_drop, List.drop_left' front, List.drop_drop]

end Line

/-! ## The text -/

/-- The first line of a text and what follows it. -/
theorem exists_line (text : Bytes) :
    ∃ line more, newline ∉ line ∧ (more = [] ∨ ∃ rest, more = newline :: rest) ∧ text = line ++ more := by
  induction text using Delimited.lines_induction (d := newline) with
  | rest last free => exact ⟨last, [], free, .inl rfl, (List.append_nil last).symm⟩
  | line first stream free => exact ⟨first, newline :: stream, free, .inr ⟨stream, rfl⟩, rfl⟩

theorem lines_of_free {text : Bytes} (free : newline ∉ text) : lines text = [text] := List.splitOn_eq_singleton free

theorem lines_append {line : Bytes} (free : newline ∉ line) (stream : Bytes) :
    lines (line ++ newline :: stream) = line :: lines stream := by
  have inside : ∀ c ∈ line, (c == newline) = false := fun c member =>
    beq_false_of_ne fun same => free (same ▸ member)
  exact List.splitOnP_append_cons_of_forall_mem inside newline (beq_self_eq_true _) stream

section Text

variable {key val : Bytes} {valSz : ℕ}

/-- The value comes from the first line that has one. -/
theorem pmParseKvInto_of_first (room : 1 ≤ valSz) (buffer : valSz ≤ val.length) (word : valSz < 2 ^ 64)
    {before after : List Bytes} {line value : Bytes}
    (earlier : ∀ other ∈ before, ∀ value, ¬ Assigns key other value) (assigns : Assigns key line value)
    (text : Bytes) (string : 0 ∉ text) (split : lines text = before ++ line :: after) :
    ∃ after, pmParseKvInto text key val valSz = some (0, after) ∧
      cstr after = trim (value.take (valSz - 1)) ∧ after.length = val.length ∧
      after.drop valSz = val.drop valSz := by
  induction text using Delimited.lines_induction (d := newline) generalizing before with
  | rest last free =>
    rw [lines_of_free free] at split
    rw [← List.append_nil last]
    cases before with
    | nil =>
      cases split
      exact pmParseKvInto_found free (.inl rfl) assigns string room buffer word
    | cons other before => simp at split
  | line first stream free ih =>
    rw [lines_append free] at split
    obtain ⟨firstString, restString⟩ := not_or.mp fun member => string (List.mem_append.mpr member)
    cases before with
    | nil =>
      cases split
      exact pmParseKvInto_found free (.inr ⟨stream, rfl⟩) assigns firstString room buffer word
    | cons other before =>
      rw [List.cons_append] at split
      obtain ⟨rfl, later⟩ := List.cons.inj split
      rw [pmParseKvInto_skip free (.inr ⟨stream, rfl⟩) (earlier first List.mem_cons_self)]
      refine ih ?_ ?_ later
      · exact fun other member => earlier other (List.mem_cons_of_mem first member)
      · exact fun member => restString (List.mem_cons_of_mem newline member)

theorem pmParseKvInto_of_none (val : Bytes) (valSz : ℕ) (text : Bytes)
    (none : ∀ line ∈ lines text, ∀ value, ¬ Assigns key line value) :
    pmParseKvInto text key val valSz = some (-1, val) := by
  have nothing : pmParseKvInto [] key val valSz = some (-1, val) := by
    rw [pmParseKvInto, if_pos rfl]
  induction text using Delimited.lines_induction (d := newline) with
  | rest last free =>
    rw [lines_of_free free] at none
    rw [← List.append_nil last, pmParseKvInto_skip free (.inl rfl) (none last List.mem_cons_self)]
    exact nothing
  | line first stream free ih =>
    rw [lines_append free] at none
    rw [pmParseKvInto_skip free (.inr ⟨stream, rfl⟩) (none first List.mem_cons_self)]
    exact ih fun line member => none line (List.mem_cons_of_mem first member)

/-- The function on strings, which the texts of the driver are read with, is what the caller sees of this one. -/
theorem pmParseKv_eq {text : Bytes} (string : 0 ∉ text) (room : 1 ≤ valSz) (buffer : valSz ≤ val.length)
    (word : valSz < 2 ^ 64) :
    pmParseKv text key valSz =
      (pmParseKvInto text key val valSz).bind fun (ret, after) => if ret = 0 then some (cstr after) else none := by
  fun_induction pmParseKv text key valSz with
  | case1 => rw [pmParseKvInto, if_pos rfl]; rfl
  | case2 text nonempty passes =>
    obtain ⟨line, more, free, ends, rfl⟩ := exists_line text
    rw [takeWhile_first free ends] at passes ⊢
    obtain ⟨value, assigns⟩ := (tests_iff key line more).mp passes
    have lineString : 0 ∉ line := fun member => string (List.mem_append_left more member)
    obtain ⟨after, returned, trimmed, -⟩ := pmParseKvInto_found free ends assigns lineString room buffer word
    obtain ⟨-, rfl⟩ := assigns
    have behind : (key ++ equals :: value).drop (key.length + 1) = value := by
      rw [List.append_cons, List.drop_left' (by rw [List.length_append]; rfl)]
    rw [returned, behind, copied_eq room, ← trimmed]
    rfl
  | case3 text nonempty fails ih =>
    rw [pmParseKvInto, if_neg nonempty, if_neg fails]
    exact ih fun member => string ((List.dropWhile_suffix _).subset (List.mem_of_mem_tail member))

/-- The call succeeds iff a line has a value for the key. It leaves the value of the first such line, cut to the
buffer and then trimmed, and otherwise the buffer as it was. -/
theorem pmParseKv_exact {text : Bytes} (string : 0 ∉ text) (room : 1 ≤ valSz) (buffer : valSz ≤ val.length)
    (word : valSz < 2 ^ 64) :
    ((∃ after, pmParseKvInto text key val valSz = some (0, after)) ↔
      ∃ line ∈ lines text, ∃ value, Assigns key line value) ∧
    (∀ before line after value, lines text = before ++ line :: after →
      (∀ other ∈ before, ∀ value, ¬ Assigns key other value) → Assigns key line value →
      ∃ after, pmParseKvInto text key val valSz = some (0, after) ∧
        cstr after = trim (value.take (valSz - 1)) ∧ after.length = val.length ∧
        after.drop valSz = val.drop valSz) ∧
    ((∀ line ∈ lines text, ∀ value, ¬ Assigns key line value) →
      pmParseKvInto text key val valSz = some (-1, val)) ∧
    (equals ∉ key → ∀ line value, Assigns key line value ↔
      value ≠ [] ∧ line.takeWhile (· ≠ equals) = key ∧ line.dropWhile (· ≠ equals) = equals :: value) := by
  have found (before : List Bytes) (line : Bytes) (after : List Bytes) (value : Bytes)
      (split : lines text = before ++ line :: after)
      (earlier : ∀ other ∈ before, ∀ value, ¬ Assigns key other value) (assigns : Assigns key line value) :=
    pmParseKvInto_of_first room buffer word earlier assigns text string split
  refine ⟨⟨?_, ?_⟩, found, pmParseKvInto_of_none val valSz text, assigns_iff⟩
  · rintro ⟨after, returned⟩
    by_contra none
    have untouched := pmParseKvInto_of_none val valSz text fun line member value assigns =>
      none ⟨line, member, value, assigns⟩
    cases untouched.symm.trans returned
  · rintro ⟨line, member, value, assigns⟩
    obtain ⟨before, first, after, split, ⟨value, assigns⟩, earlier⟩ :=
      @Delimited.exists_cut _ (fun line => ∃ value, Assigns key line value) _ _ member ⟨value, assigns⟩
    obtain ⟨after, returned, -⟩ := found before first after value split
      (fun other among value assigns => earlier other among ⟨value, assigns⟩) assigns
    exact ⟨after, returned⟩

/-- The value of the second line, cut to five bytes and trimmed; the key of the first line is longer. -/
theorem pmParseKv_exact_cut : ∃ after,
    pmParseKvInto (literal "load1=7\nload= 1.25 \n") (literal "load") (List.replicate 8 9) 6 = some (0, after) ∧
      cstr after = literal "1.25" ∧ after.drop 6 = [9, 9] := by
  have string : 0 ∉ literal "load1=7\nload= 1.25 \n" := by decide
  have buffer : 6 ≤ (List.replicate 8 (9 : UInt8)).length := by decide
  have assigns : Assigns (literal "load") (literal "load= 1.25 ") (literal " 1.25 ") := by decide
  have earlier : ∀ other ∈ [literal "load1=7"], ∀ value, ¬ Assigns (literal "load") other value := by
    intro other member value assigns
    obtain rfl := List.mem_singleton.mp member
    have keyed := ((assigns_iff (by decide) _ _).mp assigns).2.1
    exact absurd keyed (by decide)
  have split : lines (literal "load1=7\nload= 1.25 \n") = [literal "load1=7"] ++ literal "load= 1.25 " :: [[]] := by
    decide
  obtain ⟨after, returned, value, -, behind⟩ :=
    (pmParseKv_exact string (by decide) buffer (by decide)).2.1 _ _ _ _ split earlier assigns
  refine ⟨after, returned, ?_, behind⟩
  rw [value]
  decide

end Text

end ProcessMonitor.Soundness.KeyValueLines
