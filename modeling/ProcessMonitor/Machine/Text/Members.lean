import ProcessMonitor.Machine.Text.Json

/-! # Members of an object as they are written

An object is taken apart at the commas and colons that stand outside of strings, arrays and inner objects. Keys and
values are kept as they are written, a string with its quotes and escapes, and a string may hold any bytes. No member
depends on what is behind it, so a text that is an object only up to some point has the members before that point.
-/

namespace ProcessMonitor.Machine.Text

open Posix

/-- Outside of strings, in one, or behind a backslash in one. -/
inductive Quoting
  | outside
  | inside
  | escaping
deriving DecidableEq, Repr

/-- A point of a text, with the number of arrays and objects that are open there. -/
structure Place where
  level : ℕ
  quoting : Quoting
deriving DecidableEq, Repr

namespace Place

/-- Between two members, or between a key and its value. -/
def top : Place := ⟨0, .outside⟩

def next (place : Place) (c : UInt8) : Place :=
  match place.quoting with
  | .outside =>
    if c = 34 then { place with quoting := .inside }
    else if c = 91 ∨ c = 123 then { place with level := place.level + 1 }
    else if c = 93 ∨ c = 125 then { place with level := place.level - 1 }
    else place
  | .inside =>
    if c = 34 then { place with quoting := .outside }
    else if c = 92 then { place with quoting := .escaping }
    else place
  | .escaping => { place with quoting := .inside }

end Place

/-- The texts between the commas of an object, from a place in it to its closing brace. -/
def memberTexts : Place → Bytes → List Bytes
  | _, [] => [[]]
  | place, c :: text =>
    if place = .top ∧ c = 125 then [[]]
    else if place = .top ∧ c = 44 then [] :: memberTexts place text
    else (memberTexts (place.next c) text).modifyHead (c :: ·)

/-- The texts before and behind the first colon. -/
def splitColon : Place → Bytes → Option (Bytes × Bytes)
  | _, [] => none
  | place, c :: text =>
    if place = .top ∧ c = 58 then some ([], text)
    else (splitColon (place.next c) text).map (.map (c :: ·) id)

def trimSpace (text : Bytes) : Bytes := (Json.skipSpace (Json.skipSpace text).reverse).reverse

/-- Each key with its value. -/
def members (text : Bytes) : List (Bytes × Bytes) :=
  match Json.expect 123 (Json.skipSpace text) with
  | none => []
  | some inner => (memberTexts .top inner).filterMap fun member =>
      (splitColon .top member).map (.map trimSpace trimSpace)

/-- The bytes up to the quote that ends a string, if it is the last byte. -/
def closed : Quoting → Bytes → Option Bytes
  | _, [] => none
  | .outside, _ :: _ => none
  | .inside, c :: text =>
    if c = 34 then (if text = [] then some [] else none)
    else (closed (if c = 92 then .escaping else .inside) text).map (c :: ·)
  | .escaping, c :: text => (closed .inside text).map (c :: ·)

/-- The bytes between the quotes, if the text is a string. -/
def inQuotes (text : Bytes) : Option Bytes := (Json.expect 34 text).bind (closed .inside)

/-- The value, as it is written, of the first member whose key stands for the name. -/
def memberOf (text name : Bytes) : Option Bytes :=
  ((members text).find? fun member => (inQuotes member.1).bind Json.unescape = some name).map Prod.snd

/-! ## Strings without escapes -/

/-- Bytes that neither end a string nor begin an escape. -/
def Unescaped (raw : Bytes) : Prop := 34 ∉ raw ∧ 92 ∉ raw

def inQuotation (raw : Bytes) : Bytes := 34 :: (raw ++ [34])

theorem inQuotation_append (raw text : Bytes) : inQuotation raw ++ text = 34 :: (raw ++ 34 :: text) := by
  rw [inQuotation, List.cons_append, List.append_assoc, List.singleton_append]

theorem Unescaped.cons {c : UInt8} {raw : Bytes} (plain : Unescaped (c :: raw)) : c ≠ 34 ∧ c ≠ 92 ∧ Unescaped raw := by
  obtain ⟨unquoted, unescaped⟩ := plain
  rw [List.mem_cons, not_or] at unquoted unescaped
  exact ⟨Ne.symm unquoted.1, Ne.symm unescaped.1, unquoted.2, unescaped.2⟩

private theorem inside_ne_top (level : ℕ) : (⟨level, .inside⟩ : Place) ≠ .top :=
  fun same => Quoting.noConfusion (congrArg Place.quoting same)

private theorem next_inside {c : UInt8} (unquoted : c ≠ 34) (unescaped : c ≠ 92) (level : ℕ) :
    Place.next ⟨level, .inside⟩ c = ⟨level, .inside⟩ := by
  dsimp only [Place.next]
  rw [if_neg unquoted, if_neg unescaped]

theorem memberTexts_string {raw : Bytes} (plain : Unescaped raw) (text : Bytes) :
    memberTexts .top (inQuotation raw ++ text) = (memberTexts .top text).modifyHead (inQuotation raw ++ ·) := by
  have inside (raw : Bytes) (plain : Unescaped raw) : memberTexts ⟨0, .inside⟩ (raw ++ 34 :: text) =
      (memberTexts .top text).modifyHead (raw ++ 34 :: ·) := by
    induction raw with
    | nil => rfl
    | cons c raw ih =>
      obtain ⟨unquoted, unescaped, plain⟩ := plain.cons
      rw [List.cons_append, memberTexts, if_neg fun top => inside_ne_top 0 top.1,
        if_neg fun top => inside_ne_top 0 top.1, next_inside unquoted unescaped, ih plain, List.modifyHead_modifyHead]
      rfl
  have opened : memberTexts .top (34 :: (raw ++ 34 :: text)) =
      (memberTexts ⟨0, .inside⟩ (raw ++ 34 :: text)).modifyHead (34 :: ·) := rfl
  simp only [inQuotation_append, opened, inside raw plain, List.modifyHead_modifyHead]
  rfl

theorem splitColon_string {raw : Bytes} (plain : Unescaped raw) (text : Bytes) :
    splitColon .top (inQuotation raw ++ text) = (splitColon .top text).map (.map (inQuotation raw ++ ·) id) := by
  have inside (raw : Bytes) (plain : Unescaped raw) : splitColon ⟨0, .inside⟩ (raw ++ 34 :: text) =
      (splitColon .top text).map (.map (raw ++ 34 :: ·) id) := by
    induction raw with
    | nil => rfl
    | cons c raw ih =>
      obtain ⟨unquoted, unescaped, plain⟩ := plain.cons
      rw [List.cons_append, splitColon, if_neg fun top => inside_ne_top 0 top.1, next_inside unquoted unescaped,
        ih plain, Option.map_map]
      rfl
  have opened : splitColon .top (34 :: (raw ++ 34 :: text)) =
      (splitColon ⟨0, .inside⟩ (raw ++ 34 :: text)).map (.map (34 :: ·) id) := rfl
  simp only [inQuotation_append, opened, inside raw plain, Option.map_map]
  rfl

theorem inQuotes_inQuotation {raw : Bytes} (plain : Unescaped raw) : inQuotes (inQuotation raw) = some raw := by
  have inside : closed .inside (raw ++ [34]) = some raw := by
    induction raw with
    | nil => rfl
    | cons c raw ih =>
      obtain ⟨unquoted, unescaped, plain⟩ := plain.cons
      rw [List.cons_append, closed, if_neg unquoted, if_neg unescaped, ih plain]
      rfl
  exact inside

theorem trimSpace_inQuotation (raw : Bytes) : trimSpace (inQuotation raw) = inQuotation raw := by
  have front : Json.skipSpace (inQuotation raw) = inQuotation raw := rfl
  have back : (inQuotation raw).reverse = inQuotation raw.reverse := by simp [inQuotation]
  rw [trimSpace, front, back]
  change (inQuotation raw.reverse).reverse = inQuotation raw
  simp [inQuotation]

end ProcessMonitor.Machine.Text
