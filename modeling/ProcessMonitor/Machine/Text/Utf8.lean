import Mathlib.Data.List.Induction
import ProcessMonitor.Machine.Posix.Word

/-! # UTF-8

The encoding of a character is one ASCII byte or has none, so ASCII text can be cut off a text at either end
without splitting a character.
-/

namespace ProcessMonitor.Machine.Text

open Posix

def utf8 (chars : List Char) : Bytes := chars.flatMap String.utf8EncodeChar

/-- The bytes are the encoding of some characters. -/
def IsUtf8 (bytes : Bytes) : Prop := ∃ chars, utf8 chars = bytes

/-- Every byte is ASCII. -/
def IsAscii (bytes : Bytes) : Prop := ∀ b ∈ bytes, b.toNat < 128

instance (bytes : Bytes) : Decidable (IsAscii bytes) :=
  decidable_of_iff (bytes.all fun b => decide (b.toNat < 128)) (by simp [IsAscii])

private theorem encodeChar_cases (c : Char) :
    (∃ b, b.toNat < 128 ∧ String.utf8EncodeChar c = [b]) ∨ ∀ b ∈ String.utf8EncodeChar c, 128 ≤ b.toNat := by
  have upper (n : ℕ) (bound : 128 ≤ n ∧ n < 256) : 128 ≤ (UInt8.ofNat n).toNat := by
    rw [UInt8.toNat_ofNat']
    omega
  rw [String.utf8EncodeChar]
  split_ifs with one two three
  · refine .inl ⟨_, ?_, rfl⟩
    rw [UInt8.toNat_ofNat']
    omega
  all_goals
    right
    simp only [List.forall_mem_cons, List.not_mem_nil, false_implies, implies_true, and_true]
  · exact ⟨upper _ (by omega), upper _ (by omega)⟩
  · exact ⟨upper _ (by omega), upper _ (by omega), upper _ (by omega)⟩
  · exact ⟨upper _ (by omega), upper _ (by omega), upper _ (by omega), upper _ (by omega)⟩

private theorem exists_char {b : UInt8} (ascii : b.toNat < 128) : ∃ c, String.utf8EncodeChar c = [b] := by
  refine ⟨Char.ofNat b.toNat, ?_⟩
  have code : (Char.ofNat b.toNat).val.toNat = b.toNat := by
    rw [Char.ofNat, dif_pos (.inl (by omega))]
    rfl
  rw [String.utf8EncodeChar, code, if_pos (by omega), UInt8.ofNat_toNat]

theorem utf8_append (first second : List Char) : utf8 (first ++ second) = utf8 first ++ utf8 second :=
  List.flatMap_append

theorem IsUtf8.append {first second : Bytes} (left : IsUtf8 first) (right : IsUtf8 second) :
    IsUtf8 (first ++ second) := by
  obtain ⟨chars, rfl⟩ := left
  obtain ⟨others, rfl⟩ := right
  exact ⟨chars ++ others, utf8_append chars others⟩

theorem IsAscii.isUtf8 {bytes : Bytes} (ascii : IsAscii bytes) : IsUtf8 bytes := by
  induction bytes with
  | nil => exact ⟨[], rfl⟩
  | cons b bytes ih =>
    obtain ⟨c, encoded⟩ := exists_char (ascii b List.mem_cons_self)
    obtain ⟨chars, rest⟩ := ih fun a member => ascii a (List.mem_cons_of_mem b member)
    exact ⟨c :: chars, by rw [utf8, List.flatMap_cons, encoded, ← rest]; rfl⟩

/-- An ASCII byte at the front is a character, -/
private theorem of_cons {b : UInt8} {bytes : Bytes} (ascii : b.toNat < 128) (encoded : IsUtf8 (b :: bytes)) :
    IsUtf8 bytes := by
  obtain ⟨chars, same⟩ := encoded
  cases chars with
  | nil => cases same
  | cons c chars =>
    rw [utf8, List.flatMap_cons] at same
    rcases encodeChar_cases c with ⟨a, -, single⟩ | large
    · rw [single] at same
      exact ⟨chars, (List.cons_eq_cons.mp same).2⟩
    · obtain ⟨first, others, encoding⟩ := List.exists_cons_of_ne_nil (String.utf8EncodeChar_ne_nil (c := c))
      rw [encoding] at same large
      obtain ⟨rfl, -⟩ := List.cons_eq_cons.mp same
      exact absurd (large first List.mem_cons_self) (by omega)

/-- and so is one at the end. -/
private theorem of_concat {b : UInt8} {bytes : Bytes} (ascii : b.toNat < 128) (encoded : IsUtf8 (bytes ++ [b])) :
    IsUtf8 bytes := by
  obtain ⟨chars, same⟩ := encoded
  rcases List.eq_nil_or_concat chars with rfl | ⟨chars, c, rfl⟩
  · exact absurd same (by simp [utf8])
  · have last : utf8 [c] = String.utf8EncodeChar c := List.flatMap_singleton ..
    rw [List.concat_eq_append, utf8_append, last] at same
    rcases encodeChar_cases c with ⟨a, -, single⟩ | large
    · rw [single] at same
      exact ⟨chars, (List.append_inj' same rfl).1⟩
    · have ends := congrArg List.getLast? same
      rw [List.getLast?_append_of_ne_nil _ String.utf8EncodeChar_ne_nil, List.getLast?_concat] at ends
      exact absurd (large b (List.mem_of_getLast? ends)) (by omega)

/-- ASCII text around a text does not change whether its bytes encode characters. -/
theorem isUtf8_between {front back : Bytes} (before : IsAscii front) (after : IsAscii back) (bytes : Bytes) :
    IsUtf8 (front ++ (bytes ++ back)) ↔ IsUtf8 bytes := by
  constructor
  · intro encoded
    have behind : IsUtf8 (bytes ++ back) := by
      induction front with
      | nil => exact encoded
      | cons b front ih =>
        exact ih (fun a member => before a (List.mem_cons_of_mem b member))
          (of_cons (before b List.mem_cons_self) encoded)
    clear encoded
    induction back using List.reverseRecOn with
    | nil => rwa [List.append_nil] at behind
    | append_singleton back b ih =>
      rw [← List.append_assoc] at behind
      exact ih (fun a member => after a (List.mem_append_left [b] member))
        (of_concat (after b (List.mem_append_right back (List.mem_singleton_self b))) behind)
  · exact fun encoded => before.isUtf8.append (encoded.append after.isUtf8)

end ProcessMonitor.Machine.Text
