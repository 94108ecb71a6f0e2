import Mathlib.Data.List.DropRight
import ProcessMonitor.Machine.Posix.Memory

/-! # Key-value texts

`pm_parse_kv` goes through a text line by line and takes the value from the first line that begins with the
key and an equals sign. The value reaches to the end of the line, is cut to the caller's buffer, and
then loses the white space around it.
-/

namespace ProcessMonitor.Model.LibPm

open Machine Machine.Posix

def newline : UInt8 := 10

def equals : UInt8 := 61

/-- White space in the C locale. -/
def isspace (c : UInt8) : Bool := c == 32 || 9 ≤ c && c ≤ 13

def trim (s : Bytes) : Bytes := (s.dropWhile isspace).rdropWhile isspace

/-- The bytes of the value that end up in a buffer of `valSz` bytes. -/
def copied (value : Bytes) (valSz : ℕ) : Bytes :=
  value.take (if valSz ≤ value.length then valSz - 1 else value.length)

theorem copied_eq {value : Bytes} {valSz : ℕ} (room : 0 < valSz) : copied value valSz = value.take (valSz - 1) := by
  rw [copied]
  split
  · rfl
  · rw [List.take_length, List.take_of_length_le (by omega)]

/-- The string left in `val` on success. -/
def pmParseKv (text key : Bytes) (valSz : ℕ) : Option Bytes :=
  if text = [] then none
  else if key.length + 1 < (text.takeWhile (· ≠ newline)).length ∧ key <+: text ∧ text[key.length]? = some equals then
    some (trim (copied ((text.takeWhile (· ≠ newline)).drop (key.length + 1)) valSz))
  else pmParseKv (text.dropWhile (· ≠ newline)).tail key valSz
termination_by text.length
decreasing_by
  rename_i nonempty _
  have shorter := List.length_dropWhile_le (· ≠ newline) text
  have positive := List.length_pos_iff.mpr nonempty
  rw [List.length_tail]
  omega

theorem pmParseKv_nil (key : Bytes) (valSz : ℕ) : pmParseKv [] key valSz = none := by
  rw [pmParseKv, if_pos rfl]

section Lines

variable {line : Bytes} (free : newline ∉ line) (rest : Bytes)
include free

theorem takeWhile_line : (line ++ newline :: rest).takeWhile (· ≠ newline) = line := by
  rw [List.takeWhile_append_of_pos, List.takeWhile_cons_of_neg (by simp), List.append_nil]
  exact fun c member => decide_eq_true fun same => free (same ▸ member)

theorem dropWhile_line : (line ++ newline :: rest).dropWhile (· ≠ newline) = newline :: rest := by
  rw [List.dropWhile_append_of_pos, List.dropWhile_cons_of_neg (by simp)]
  exact fun c member => decide_eq_true fun same => free (same ▸ member)

/-- A line that does not begin with the key is passed over. -/
theorem pmParseKv_skip {key : Bytes} (other : ¬ key <+: line ++ newline :: rest) (valSz : ℕ) :
    pmParseKv (line ++ newline :: rest) key valSz = pmParseKv rest key valSz := by
  rw [pmParseKv, if_neg (by simp), if_neg fun found => other found.2.1, dropWhile_line free, List.tail_cons]

end Lines

/-- The value of the line that begins with the key. -/
theorem pmParseKv_found {key value : Bytes} (free : newline ∉ key ++ equals :: value) (nonempty : value ≠ [])
    (rest : Bytes) (valSz : ℕ) :
    pmParseKv (key ++ equals :: value ++ newline :: rest) key valSz = some (trim (copied value valSz)) := by
  have positive := List.length_pos_iff.mpr nonempty
  have long : key.length + 1 < (key ++ equals :: value).length := by
    rw [List.length_append, List.length_cons]
    omega
  have begins : key <+: key ++ equals :: value ++ newline :: rest := by
    rw [List.append_assoc]
    exact List.prefix_append _ _
  have sign : (key ++ equals :: value ++ newline :: rest)[key.length]? = some equals := by
    rw [List.append_assoc, List.getElem?_append_right le_rfl, Nat.sub_self]
    rfl
  rw [pmParseKv, if_neg (by simp), takeWhile_line free, if_pos ⟨long, begins, sign⟩, List.append_cons,
    List.drop_left' (by rw [List.length_append]; rfl)]

/-- Text without white space at its ends stays. -/
theorem trim_eq_self {first last : UInt8} {middle : Bytes} (head : isspace first = false)
    (tail : isspace last = false) :
    trim (first :: (middle ++ [last])) = first :: (middle ++ [last]) := by
  rw [trim, List.dropWhile_cons_of_neg (by simp [head]), ← List.cons_append,
    List.rdropWhile_concat_neg _ _ _ (by simp [tail])]

/-! ## In the caller's buffer

The same function with the memory it writes. A pointer into the buffer is what is left of it from there on, and
reading behind the end has no value.
-/

/-- `while(isspace((unsigned char)*p)) p++;` -/
def skipSpace : Bytes → Option Bytes
  | [] => none
  | c :: p => if isspace c then skipSpace p else some (c :: p)

def strlen : Bytes → Option ℕ
  | [] => none
  | c :: p => if c = 0 then some 0 else (strlen p).map (· + 1)

/-- `while(len>0 && isspace((unsigned char)p[len-1])) p[--len]='\0';` -/
def cutSpace (p : Bytes) : ℕ → Option (Bytes × ℕ)
  | 0 => some (p, 0)
  | len + 1 => do
    let c ← p[len]?
    if isspace c then cutSpace (p.set len 0) len else some (p, len + 1)

/-- `trim`, with a `memmove` to the front if there was white space there. -/
def trimInPlace (s : Bytes) : Option Bytes := do
  let p ← skipSpace s
  let front := s.length - p.length
  let (p, len) ← cutSpace p (← strlen p)
  if front = 0 then some p else store (s.take front ++ p) 0 (p.take (len + 1))

/-- The return value and the contents of `val`. -/
def pmParseKvInto (text key val : Bytes) (valSz : ℕ) : Option (ℤ × Bytes) :=
  if text = [] then some (-1, val)
  else if key.length + 1 < (text.takeWhile (· ≠ newline)).length ∧ key <+: text ∧
      text[key.length]? = some equals then do
    let copy := (text.takeWhile (· ≠ newline)).length - (key.length + 1)
    let copy := if valSz ≤ copy then (valSz + 2 ^ 64 - 1) % 2 ^ 64 else copy
    let val ← store val 0 ((text.drop (key.length + 1)).take copy)
    let val ← store val copy [0]
    some (0, ← trimInPlace val)
  else pmParseKvInto (text.dropWhile (· ≠ newline)).tail key val valSz
termination_by text.length
decreasing_by
  rename_i nonempty _
  have shorter := List.length_dropWhile_le (· ≠ newline) text
  have positive := List.length_pos_iff.mpr nonempty
  rw [List.length_tail]
  omega

section Trim

theorem skipSpace_string (text rest : Bytes) :
    skipSpace (text ++ 0 :: rest) = some (text.dropWhile isspace ++ 0 :: rest) := by
  induction text with
  | nil => rfl
  | cons c text ih =>
    rw [List.cons_append, skipSpace, List.dropWhile_cons]
    split
    · exact ih
    · rfl

theorem strlen_string {text : Bytes} (string : 0 ∉ text) (rest : Bytes) :
    strlen (text ++ 0 :: rest) = some text.length := by
  induction text with
  | nil => rfl
  | cons c text ih =>
    obtain ⟨other, string⟩ := not_or.mp fun member => string (List.mem_cons.mpr member)
    rw [List.cons_append, strlen, if_neg (Ne.symm other), ih string]
    rfl

/-- The white space at the end becomes NULs. -/
theorem cutSpace_string (text rest : Bytes) :
    ∃ nuls, cutSpace (text ++ 0 :: rest) text.length =
        some (text.rdropWhile isspace ++ 0 :: (nuls ++ rest), (text.rdropWhile isspace).length) ∧
      (text.rdropWhile isspace).length + nuls.length = text.length := by
  induction text using List.reverseRecOn generalizing rest with
  | nil => exact ⟨[], rfl, rfl⟩
  | append_singleton text c ih =>
    have last : (text ++ [c] ++ 0 :: rest)[text.length]? = some c := by simp
    rw [List.length_append, List.length_singleton, cutSpace, last]
    simp only [bind, Option.bind_some]
    cases space : isspace c with
    | true =>
      have overwritten : (text ++ [c] ++ 0 :: rest).set text.length 0 = text ++ 0 :: (0 :: rest) := by simp
      obtain ⟨nuls, cut, length⟩ := ih (0 :: rest)
      rw [if_pos rfl, overwritten, cut, List.rdropWhile_concat_pos _ _ _ space]
      refine ⟨nuls ++ [0], by rw [List.append_assoc]; rfl, ?_⟩
      rw [List.length_append, List.length_singleton]
      omega
    | false =>
      rw [if_neg Bool.false_ne_true, List.rdropWhile_concat_neg _ _ _ (Bool.eq_false_iff.mp space)]
      exact ⟨[], by simp, by simp⟩

/-- A string is trimmed where it stands; nothing behind it changes. -/
theorem trimInPlace_string {text : Bytes} (string : 0 ∉ text) (rest : Bytes) :
    ∃ filler, trimInPlace (text ++ 0 :: rest) = some (trim text ++ 0 :: (filler ++ rest)) ∧
      (trim text).length + filler.length = text.length := by
  have inner : 0 ∉ text.dropWhile isspace := fun member => string ((List.dropWhile_suffix _).subset member)
  obtain ⟨nuls, cut, length⟩ := cutSpace_string (text.dropWhile isspace) rest
  change cutSpace _ _ = some (trim text ++ _, (trim text).length) at cut
  change (trim text).length + _ = _ at length
  obtain ⟨blanks, split⟩ : ∃ blanks, text = blanks ++ text.dropWhile isspace :=
    ⟨text.takeWhile isspace, List.takeWhile_append_dropWhile.symm⟩
  have whole : text.length = blanks.length + (text.dropWhile isspace).length := by
    rw [← List.length_append, ← split]
  have front : (text ++ 0 :: rest).length - (text.dropWhile isspace ++ 0 :: rest).length = blanks.length := by
    rw [List.length_append, List.length_append]
    omega
  have before : (text ++ 0 :: rest).take blanks.length = blanks := by
    rw [split, List.append_assoc, List.take_left]
  simp only [trimInPlace, skipSpace_string, strlen_string inner, cut, bind, Option.bind_some, front, before]
  split
  next none => exact ⟨nuls, rfl, by omega⟩
  next =>
    -- the string moves over the white space, and what it has left behind stays
    have moved : (trim text ++ 0 :: (nuls ++ rest)).take ((trim text).length + 1) = trim text ++ [0] := by
      rw [List.append_cons]
      exact List.take_left' (by rw [List.length_append, List.length_singleton])
    have inside : 0 + (trim text ++ [0]).length ≤ (blanks ++ (trim text ++ 0 :: (nuls ++ rest))).length := by
      simp only [List.length_append, List.length_cons, List.length_nil]
      omega
    have left : (blanks ++ (trim text ++ 0 :: (nuls ++ rest))).drop (trim text ++ [0]).length =
        (blanks ++ trim text ++ [0]).drop ((trim text).length + 1) ++ (nuls ++ rest) := by
      have regrouped : blanks ++ (trim text ++ 0 :: (nuls ++ rest)) = blanks ++ trim text ++ [0] ++ (nuls ++ rest) := by
        simp only [List.append_assoc, List.singleton_append]
      rw [regrouped, List.length_append, List.length_singleton]
      apply List.drop_append_of_le_length
      simp only [List.length_append, List.length_singleton]
      omega
    refine ⟨(blanks ++ trim text ++ [0]).drop ((trim text).length + 1) ++ nuls, ?_, ?_⟩
    · rw [moved, store, if_pos inside, List.take_zero, List.nil_append, Nat.zero_add, left]
      simp only [List.append_assoc, List.singleton_append]
    · simp only [List.length_append, List.length_drop, List.length_singleton]
      omega

end Trim

end ProcessMonitor.Model.LibPm
