import ProcessMonitor.Machine.Posix.CString
import ProcessMonitor.Machine.Text.Utf8

/-! # JSON texts

The readers take a value off the front of a text and return what follows it. A string is the UTF-8 bytes it
stands for, with its escapes resolved; two escapes that are the halves of one character count as that character. The
depth bounds the recursion. It is no part of the format, so a text denotes what it is read as at any depth that
suffices.
-/

namespace ProcessMonitor.Machine.Text

open Posix

inductive Json
  | null
  | bool (value : Bool)
  /-- The digits after the point and the exponent are kept as they are written, empty where there are none. -/
  | number (negative : Bool) (whole : ℕ) (fraction exponent : Bytes)
  | string (bytes : Bytes)
  | array (items : List Json)
  | object (members : List (Bytes × Json))

namespace Json

/-- The integer that a number without fraction and exponent is. -/
def int? : Json → Option ℤ
  | number negative whole [] [] => some (if negative then -whole else whole)
  | _ => none

def string? : Json → Option Bytes
  | string bytes => some bytes
  | _ => none

def members? : Json → Option (List (Bytes × Json))
  | object members => some members
  | _ => none

/-! ## Strings -/

/-- One unit between the quotes: a byte, or the half of a character that `\u` gives. -/
inductive CodeUnit
  | byte (b : UInt8)
  | half (n : ℕ)
deriving DecidableEq, Repr

def hexDigit (c : UInt8) : Option ℕ :=
  if 48 ≤ c ∧ c ≤ 57 then some (c.toNat - 48)
  else if 65 ≤ c ∧ c ≤ 70 then some (c.toNat - 55)
  else if 97 ≤ c ∧ c ≤ 102 then some (c.toNat - 87)
  else none

/-- What a backslash and one byte stand for. -/
def escaped (c : UInt8) : Option UInt8 :=
  if c = 34 ∨ c = 92 ∨ c = 47 then some c
  else if c = 98 then some 8
  else if c = 102 then some 12
  else if c = 110 then some 10
  else if c = 114 then some 13
  else if c = 116 then some 9
  else none

/-- Where a string stands: in no escape, behind a backslash, or with some hexadecimal digits still to come. -/
inductive Escape
  | none
  | backslash
  | hex (n missing : ℕ)
deriving DecidableEq, Repr

/-- The units up to the closing quote. -/
def codeUnits : Escape → Bytes → Option (List CodeUnit × Bytes)
  | _, [] => none
  | .none, c :: text =>
    if c = 34 then some ([], text)
    else if c = 92 then codeUnits .backslash text
    else if c < 32 then none
    else (codeUnits .none text).map (.map (.byte c :: ·) id)
  | .backslash, c :: text =>
    if c = 117 then codeUnits (.hex 0 4) text
    else (escaped c).bind fun b => (codeUnits .none text).map (.map (.byte b :: ·) id)
  | .hex n missing, c :: text =>
    (hexDigit c).bind fun digit =>
      if missing = 1 then (codeUnits .none text).map (.map (.half (n * 16 + digit) :: ·) id)
      else codeUnits (.hex (n * 16 + digit) (missing - 1)) text

/-- A half without its other half is no character. -/
def charBytes (n : ℕ) : Bytes :=
  String.utf8EncodeChar (if n.isValidChar then Char.ofNat n else Char.ofNat 0xfffd)

def unitsBytes : List CodeUnit → Bytes
  | [] => []
  | .byte b :: units => b :: unitsBytes units
  | .half high :: .half low :: units =>
    if 0xd800 ≤ high ∧ high < 0xdc00 ∧ 0xdc00 ≤ low ∧ low < 0xe000 then
      charBytes (0x10000 + (high - 0xd800) * 0x400 + (low - 0xdc00)) ++ unitsBytes units
    else charBytes high ++ unitsBytes (.half low :: units)
  | .half n :: units => charBytes n ++ unitsBytes units

/-- A string after its opening quote. -/
def readString (text : Bytes) : Option (Bytes × Bytes) :=
  (codeUnits .none text).map (.map unitsBytes id)

/-- What the bytes between two quotes stand for. -/
def unescape (raw : Bytes) : Option Bytes :=
  match readString (raw ++ [34]) with
  | some (bytes, []) => some bytes
  | _ => none

/-! ## Values -/

def skipSpace (text : Bytes) : Bytes := text.dropWhile fun c => c = 32 ∨ c = 9 ∨ c = 10 ∨ c = 13

def isDigit (c : UInt8) : Bool := 48 ≤ c ∧ c ≤ 57

/-- A byte that has to stand here. -/
def expect (c : UInt8) : Bytes → Option Bytes
  | [] => none
  | d :: text => if d = c then some text else none

def readFraction (text : Bytes) : Option (Bytes × Bytes) :=
  match expect 46 text with
  | none => some ([], text)
  | some text =>
    let digits := text.takeWhile isDigit
    if digits = [] then none else some (digits, text.dropWhile isDigit)

def readExponent (text : Bytes) : Option (Bytes × Bytes) :=
  match (expect 101 text).or (expect 69 text) with
  | none => some ([], text)
  | some text =>
    let sign := (text.take 1).filter fun c => c = 43 ∨ c = 45
    let text := text.drop sign.length
    let digits := text.takeWhile isDigit
    if digits = [] then none else some (sign ++ digits, text.dropWhile isDigit)

def readNumber (text : Bytes) : Option (Json × Bytes) := do
  let negative := (expect 45 text).isSome
  let text := (expect 45 text).getD text
  let digits := text.takeWhile isDigit
  if digits = [] ∨ (1 < digits.length ∧ digits.head? = some 48) then none
  else
    let (fraction, text) ← readFraction (text.dropWhile isDigit)
    let (exponent, text) ← readExponent text
    some (.number negative (digits.foldl (fun n c => n * 10 + (c.toNat - 48)) 0) fraction exponent, text)

def readWord (text : Bytes) : Option (Json × Bytes) :=
  if literal "null" <+: text then some (.null, text.drop 4)
  else if literal "true" <+: text then some (.bool true, text.drop 4)
  else if literal "false" <+: text then some (.bool false, text.drop 5)
  else none

mutual

/-- A value; the space before it has been skipped. -/
def readValue : ℕ → Bytes → Option (Json × Bytes)
  | 0, _ => none
  | _ + 1, [] => none
  | depth + 1, c :: text =>
    if c = 34 then (readString text).map fun (bytes, rest) => (.string bytes, rest)
    else if c = 123 then
      match expect 125 (skipSpace text) with
      | some rest => some (.object [], rest)
      | none => (readMembers depth (skipSpace text)).map fun (members, rest) => (.object members, rest)
    else if c = 91 then
      match expect 93 (skipSpace text) with
      | some rest => some (.array [], rest)
      | none => (readItems depth (skipSpace text)).map fun (items, rest) => (.array items, rest)
    else (readWord (c :: text)).or (readNumber (c :: text))

/-- The members of an object from one on. -/
def readMembers : ℕ → Bytes → Option (List (Bytes × Json) × Bytes)
  | 0, _ => none
  | depth + 1, text => do
    let (key, text) ← readString (← expect 34 text)
    let (value, text) ← readValue depth (skipSpace (← expect 58 (skipSpace text)))
    match expect 44 (skipSpace text) with
    | some text =>
      let (members, rest) ← readMembers depth (skipSpace text)
      some ((key, value) :: members, rest)
    | none => (expect 125 (skipSpace text)).map fun rest => ([(key, value)], rest)

def readItems : ℕ → Bytes → Option (List Json × Bytes)
  | 0, _ => none
  | depth + 1, text => do
    let (value, text) ← readValue depth text
    match expect 44 (skipSpace text) with
    | some text =>
      let (items, rest) ← readItems depth (skipSpace text)
      some (value :: items, rest)
    | none => (expect 93 (skipSpace text)).map fun rest => ([value], rest)

end

def read (depth : ℕ) (text : Bytes) : Option Json := do
  let (value, rest) ← readValue depth (skipSpace text)
  if skipSpace rest = [] then some value else none

/-- The bytes are a JSON text for the value. -/
def Denotes (text : Bytes) (value : Json) : Prop := IsUtf8 text ∧ ∃ depth, read depth text = some value

/-! ## What strings stand for -/

/-- A byte that stands for itself in a string. -/
def Plain (c : UInt8) : Prop := 32 ≤ c ∧ c ≠ 34 ∧ c ≠ 92

instance (c : UInt8) : Decidable (Plain c) := inferInstanceAs (Decidable (_ ∧ _))

theorem codeUnits_plain {plain : Bytes} (clean : ∀ c ∈ plain, Plain c) (rest : Bytes) :
    codeUnits .none (plain ++ 34 :: rest) = some (plain.map .byte, rest) := by
  induction plain with
  | nil => rfl
  | cons c plain ih =>
    obtain ⟨printable, unquoted, whole⟩ := clean c List.mem_cons_self
    have later := ih fun d member => clean d (List.mem_cons_of_mem c member)
    rw [List.cons_append, codeUnits, if_neg unquoted, if_neg whole, if_neg (by simpa using printable), later]
    rfl

private theorem unitsBytes_byte (plain : Bytes) : unitsBytes (plain.map .byte) = plain := by
  induction plain with
  | nil => rfl
  | cons c plain ih => rw [List.map_cons, unitsBytes, ih]

theorem readString_plain {plain : Bytes} (clean : ∀ c ∈ plain, Plain c) (rest : Bytes) :
    readString (plain ++ 34 :: rest) = some (plain, rest) := by
  rw [readString, codeUnits_plain clean, Option.map_some, Prod.map_apply, unitsBytes_byte]
  rfl

theorem unescape_eq_some_iff {raw bytes : Bytes} :
    unescape raw = some bytes ↔ readString (raw ++ [34]) = some (bytes, []) := by
  rw [unescape]
  split
  next found read => simp [read]
  next other =>
    refine iff_of_false (by simp) fun read => ?_
    exact other bytes read

theorem unescape_plain {plain : Bytes} (clean : ∀ c ∈ plain, Plain c) : unescape plain = some plain :=
  unescape_eq_some_iff.mpr (readString_plain clean [])

private theorem map_cons_eq_some {unit : CodeUnit} {text behind : Bytes} {units : List CodeUnit}
    (read : (codeUnits .none text).map (.map (unit :: ·) id) = some (units, behind)) :
    ∃ later, units = unit :: later ∧ codeUnits .none text = some (later, behind) := by
  obtain ⟨⟨later, rest⟩, found, same⟩ := Option.map_eq_some_iff.mp read
  cases same
  exact ⟨later, rfl, found⟩

/-- A string does not depend on what is behind it. -/
private theorem codeUnits_append {text : Bytes} {escape : Escape} {units : List CodeUnit} {behind : Bytes}
    (read : codeUnits escape text = some (units, behind)) (more : Bytes) :
    codeUnits escape (text ++ more) = some (units, behind ++ more) := by
  induction text generalizing escape units with
  | nil => cases escape <;> cases read
  | cons c text ih =>
    have next {unit : CodeUnit}
        (read : (codeUnits .none text).map (.map (unit :: ·) id) = some (units, behind)) :
        (codeUnits .none (text ++ more)).map (.map (unit :: ·) id) = some (units, behind ++ more) := by
      obtain ⟨later, rfl, found⟩ := map_cons_eq_some read
      rw [ih found]
      rfl
    rw [List.cons_append]
    cases escape with
    | none =>
      rw [codeUnits] at read ⊢
      split_ifs at read ⊢
      · cases read
        rfl
      · exact ih read
      · exact next read
    | backslash =>
      rw [codeUnits] at read ⊢
      split_ifs at read ⊢
      · exact ih read
      · obtain ⟨b, stands, read⟩ := Option.bind_eq_some_iff.mp read
        exact Option.bind_eq_some_iff.mpr ⟨b, stands, next read⟩
    | hex n missing =>
      rw [codeUnits] at read ⊢
      obtain ⟨digit, isDigit, read⟩ := Option.bind_eq_some_iff.mp read
      refine Option.bind_eq_some_iff.mpr ⟨digit, isDigit, ?_⟩
      split_ifs at read ⊢
      · exact next read
      · exact ih read

/-- The first quote ends the string, or it is escaped and the string goes on behind it. -/
private theorem codeUnits_quote {raw : Bytes} (unquoted : 34 ∉ raw) {escape : Escape} {rest behind : Bytes}
    {units : List CodeUnit} (read : codeUnits escape (raw ++ 34 :: rest) = some (units, behind)) :
    codeUnits escape (raw ++ [34]) = some (units, []) ∧ behind = rest ∨
      ∃ later, codeUnits .none rest = some (later, behind) := by
  induction raw generalizing escape units with
  | nil =>
    cases escape with
    | none =>
      cases read
      exact .inl ⟨rfl, rfl⟩
    | backslash =>
      obtain ⟨later, -, found⟩ := map_cons_eq_some read
      exact .inr ⟨later, found⟩
    | hex n missing => cases read
  | cons c raw ih =>
    obtain ⟨other, unquoted⟩ := not_or.mp fun found => unquoted (List.mem_cons.mpr found)
    have next {unit : CodeUnit}
        (read : (codeUnits .none (raw ++ 34 :: rest)).map (.map (unit :: ·) id) = some (units, behind)) :
        (codeUnits .none (raw ++ [34])).map (.map (unit :: ·) id) = some (units, []) ∧ behind = rest ∨
          ∃ later, codeUnits .none rest = some (later, behind) := by
      obtain ⟨later, rfl, found⟩ := map_cons_eq_some read
      rcases ih unquoted found with ⟨ended, same⟩ | goesOn
      · rw [ended]
        exact .inl ⟨rfl, same⟩
      · exact .inr goesOn
    rw [List.cons_append] at read ⊢
    cases escape with
    | none =>
      rw [codeUnits, if_neg (Ne.symm other)] at read ⊢
      split_ifs at read ⊢
      · exact ih unquoted read
      · exact next read
    | backslash =>
      rw [codeUnits] at read ⊢
      split_ifs at read ⊢
      · exact ih unquoted read
      · obtain ⟨b, stands, read⟩ := Option.bind_eq_some_iff.mp read
        rw [stands]
        exact next read
    | hex n missing =>
      rw [codeUnits] at read ⊢
      obtain ⟨digit, isDigit, read⟩ := Option.bind_eq_some_iff.mp read
      rw [isDigit, Option.bind_some]
      split_ifs at read ⊢
      · exact next read
      · exact ih unquoted read

theorem readString_of_unescape {raw bytes : Bytes} (stands : unescape raw = some bytes) (rest : Bytes) :
    readString (raw ++ 34 :: rest) = some (bytes, rest) := by
  obtain ⟨⟨units, behind⟩, found, same⟩ := Option.map_eq_some_iff.mp (unescape_eq_some_iff.mp stands)
  cases same
  rw [readString, List.append_cons, codeUnits_append found rest]
  rfl

/-- The bytes up to the first quote stand for the string, unless that quote is escaped. -/
theorem unescape_of_readString {raw : Bytes} (unquoted : 34 ∉ raw) {rest bytes behind : Bytes}
    (read : readString (raw ++ 34 :: rest) = some (bytes, behind)) :
    unescape raw = some bytes ∧ behind = rest ∨ ∃ later, readString rest = some (later, behind) := by
  obtain ⟨⟨units, _⟩, found, same⟩ := Option.map_eq_some_iff.mp read
  cases same
  rcases codeUnits_quote unquoted found with ⟨ended, same⟩ | ⟨later, goesOn⟩
  · refine .inl ⟨unescape_eq_some_iff.mpr ?_, same⟩
    rw [readString, ended]
    rfl
  · refine .inr ⟨unitsBytes later, ?_⟩
    rw [readString, goesOn]
    rfl

/-! ## Depth -/

/-- One more level of depth reads the same. -/
private theorem read_succ (depth : ℕ) :
    (∀ {text result}, readValue depth text = some result → readValue (depth + 1) text = some result) ∧
    (∀ {text result}, readMembers depth text = some result → readMembers (depth + 1) text = some result) ∧
    (∀ {text result}, readItems depth text = some result → readItems (depth + 1) text = some result) := by
  induction depth with
  | zero =>
    refine ⟨?_, ?_, ?_⟩ <;> intro text result read <;> cases read
  | succ depth ih =>
    obtain ⟨value, members, items⟩ := ih
    refine ⟨?_, ?_, ?_⟩
    · intro text result read
      cases text with
      | nil => cases read
      | cons c text =>
        rw [readValue] at read ⊢
        split_ifs at read ⊢
        · exact read
        · cases closed : expect 125 (skipSpace text) with
          | some rest => rwa [closed] at read
          | none =>
            rw [closed] at read
            obtain ⟨found, inner, rfl⟩ := Option.map_eq_some_iff.mp read
            exact Option.map_eq_some_iff.mpr ⟨found, members inner, rfl⟩
        · cases closed : expect 93 (skipSpace text) with
          | some rest => rwa [closed] at read
          | none =>
            rw [closed] at read
            obtain ⟨found, inner, rfl⟩ := Option.map_eq_some_iff.mp read
            exact Option.map_eq_some_iff.mpr ⟨found, items inner, rfl⟩
        · exact read
    · intro text result read
      rw [readMembers] at read ⊢
      obtain ⟨quoted, opened, read⟩ := Option.bind_eq_some_iff.mp read
      obtain ⟨key, named, read⟩ := Option.bind_eq_some_iff.mp read
      obtain ⟨behind, colon, read⟩ := Option.bind_eq_some_iff.mp read
      obtain ⟨found, first, read⟩ := Option.bind_eq_some_iff.mp read
      refine Option.bind_eq_some_iff.mpr ⟨quoted, opened, Option.bind_eq_some_iff.mpr ⟨key, named, ?_⟩⟩
      refine Option.bind_eq_some_iff.mpr ⟨behind, colon, Option.bind_eq_some_iff.mpr ⟨found, value first, ?_⟩⟩
      dsimp only at read ⊢
      cases comma : expect 44 (skipSpace found.2) with
      | none => rwa [comma] at read
      | some rest =>
        rw [comma] at read
        obtain ⟨later, inner, same⟩ := Option.bind_eq_some_iff.mp read
        exact Option.bind_eq_some_iff.mpr ⟨later, members inner, same⟩
    · intro text result read
      rw [readItems] at read ⊢
      obtain ⟨found, first, read⟩ := Option.bind_eq_some_iff.mp read
      refine Option.bind_eq_some_iff.mpr ⟨found, value first, ?_⟩
      dsimp only at read ⊢
      cases comma : expect 44 (skipSpace found.2) with
      | none => rwa [comma] at read
      | some rest =>
        rw [comma] at read
        obtain ⟨later, inner, same⟩ := Option.bind_eq_some_iff.mp read
        exact Option.bind_eq_some_iff.mpr ⟨later, items inner, same⟩

theorem read_add {depth : ℕ} {text : Bytes} {value : Json} (success : read depth text = some value) (more : ℕ) :
    read (depth + more) text = some value := by
  induction more with
  | zero => exact success
  | succ more ih =>
    obtain ⟨found, inner, whole⟩ := Option.bind_eq_some_iff.mp ih
    exact Option.bind_eq_some_iff.mpr ⟨found, (read_succ (depth + more)).1 inner, whole⟩

/-! ## Objects whose members are strings -/

theorem read_members (depth : ℕ) (text : Bytes) : read (depth + 1) (123 :: 34 :: text) =
    (readMembers depth (34 :: text)).bind fun found =>
      if skipSpace found.2 = [] then some (.object found.1) else none := by
  change ((readMembers depth (34 :: text)).map _).bind _ = _
  cases readMembers depth (34 :: text) <;> rfl

/-- A member whose value is a string, by what is read behind the opening quote of the value. -/
theorem readMembers_string {key : Bytes} (clean : ∀ c ∈ key, Plain c) (text : Bytes) (depth : ℕ) :
    readMembers (depth + 2) (34 :: (key ++ 34 :: 58 :: 34 :: text)) = (readString text).bind fun found =>
      match expect 44 (skipSpace found.2) with
      | some text => (readMembers (depth + 1) (skipSpace text)).map (.map ((key, .string found.1) :: ·) id)
      | none => (expect 125 (skipSpace found.2)).map fun rest => ([(key, .string found.1)], rest) := by
  have opened : expect 34 (34 :: (key ++ 34 :: 58 :: 34 :: text)) = some (key ++ 34 :: 58 :: 34 :: text) := rfl
  have colon : expect 58 (skipSpace (58 :: 34 :: text)) = some (34 :: text) := rfl
  have value : readValue (depth + 1) (skipSpace (34 :: text)) =
      (readString text).map fun (bytes, rest) => (.string bytes, rest) := rfl
  rw [readMembers]
  simp only [opened, readString_plain clean, colon, value, Option.bind_eq_bind, Option.bind_some]
  cases readString text with
  | none => rfl
  | some found =>
    simp only [Option.map_some, Option.bind_some]
    cases expect 44 (skipSpace found.2) with
    | none => rfl
    | some text =>
      dsimp only
      cases readMembers (depth + 1) (skipSpace text) <;> rfl

/-- Whatever follows it, such a member is the first one, and it is followed by a comma or by the end of the object. -/
theorem readMembers_string_some {key : Bytes} (clean : ∀ c ∈ key, Plain c) {text rest : Bytes} {depth : ℕ}
    {members : List (Bytes × Json)}
    (success : readMembers (depth + 2) (34 :: (key ++ 34 :: 58 :: 34 :: text)) = some (members, rest)) :
    ∃ bytes behind more, readString text = some (bytes, behind) ∧ members = (key, .string bytes) :: more ∧
      (expect 44 (skipSpace behind) ≠ none ∨ expect 125 (skipSpace behind) ≠ none) := by
  rw [readMembers_string clean] at success
  obtain ⟨⟨bytes, behind⟩, string, success⟩ := Option.bind_eq_some_iff.mp success
  refine ⟨bytes, behind, ?_⟩
  dsimp only at success
  split at success
  next later comma =>
    obtain ⟨⟨more, _⟩, -, same⟩ := Option.map_eq_some_iff.mp success
    cases same
    exact ⟨more, string, rfl, .inl (by rw [comma]; exact Option.some_ne_none _)⟩
  next =>
    obtain ⟨later, brace, same⟩ := Option.map_eq_some_iff.mp success
    cases same
    exact ⟨[], string, rfl, .inr (by rw [brace]; exact Option.some_ne_none _)⟩

end Json

end ProcessMonitor.Machine.Text
