import Mathlib.Data.List.TakeWhile
import Mathlib.Data.Nat.Digits.Defs
import ProcessMonitor.Machine.Core.Delimited
import ProcessMonitor.Machine.Posix.Word

/-! # NUL-terminated strings

A C string is the list of its bytes before the terminating NUL, and a pointer into one is the
suffix it points at. The searches return the suffix where they stop, as `strchr` and `strstr`
return a pointer. Text that a program builds around quoted words is a list of delimiter-free
segments joined by the delimiter; searching it for a quoted word is searching the segments, except
that the first segment has no delimiter before it and the last one none after it.
-/

namespace ProcessMonitor.Machine.Posix

/-- The bytes of an ASCII literal. -/
def literal (s : String) : Bytes := s.toList.map fun c => UInt8.ofNat c.toNat

/-- The string at the start of a buffer. -/
def cstr (buffer : Bytes) : Bytes := buffer.takeWhile (· ≠ 0)

/-- The text from the first occurrence of a byte on. -/
def strchr (text : Bytes) (c : UInt8) : Option Bytes :=
  match text.dropWhile (· ≠ c) with
  | [] => none
  | rest => some rest

/-- The text from the first occurrence of a pattern on. -/
def strstr : Bytes → Bytes → Option Bytes
  | [], pattern => if pattern = [] then some [] else none
  | c :: text, pattern =>
    if pattern <+: c :: text then some (c :: text) else strstr text pattern

/-- Formatted output into a buffer of `size` bytes: the string left there, and the length the
whole text has, which is what the call returns. -/
def snprintf (size : ℕ) (text : Bytes) : Bytes × ℕ := (text.take (size - 1), text.length)

/-- `%llu`, and `%d` of a nonnegative number. -/
def decimal (n : ℕ) : Bytes := (Nat.toDigits 10 n).map fun c => UInt8.ofNat c.toNat

theorem decimal_length_le {n e : ℕ} (positive : 0 < e) (bound : n < 10 ^ e) : (decimal n).length ≤ e := by
  rw [decimal, List.length_map]
  exact Nat.toDigits_length 10 n e positive bound

/-- Numerals hold digits only. -/
theorem digit_of_mem_decimal {n : ℕ} {c : UInt8} (member : c ∈ decimal n) :
    48 ≤ c.toNat ∧ c.toNat ≤ 57 := by
  obtain ⟨d, digit, rfl⟩ := List.mem_map.mp member
  have range := Nat.isDigit_of_mem_toDigits (by decide) (by decide) digit
  simp only [Char.isDigit, Bool.and_eq_true, decide_eq_true_eq, ge_iff_le, UInt32.le_iff_toNat_le] at range
  change 48 ≤ d.toNat ∧ d.toNat ≤ 57 at range
  rw [UInt8.toNat_ofNat']
  omega

/-- A buffer without NUL before its end is its own string. -/
theorem cstr_of_nul_free {text : Bytes} (free : 0 ∉ text) : cstr text = text := by
  apply List.takeWhile_eq_self_iff.mpr
  intro c member
  exact decide_eq_true fun zero => free (zero ▸ member)

/-- A string ends at its NUL. -/
theorem cstr_append_nul {text : Bytes} (free : 0 ∉ text) (rest : Bytes) : cstr (text ++ 0 :: rest) = text := by
  have before : ∀ c ∈ text, decide (c ≠ 0) = true := fun c member => decide_eq_true fun zero => free (zero ▸ member)
  rw [cstr, List.takeWhile_append_of_pos before, List.takeWhile_cons_of_neg (by simp), List.append_nil]

/-! ## Searches in a longer text -/

theorem strchr_skip {c : UInt8} {skipped : Bytes} (free : c ∉ skipped) (text : Bytes) :
    strchr (skipped ++ text) c = strchr text c := by
  have dropped : (skipped ++ text).dropWhile (· ≠ c) = text.dropWhile (· ≠ c) := by
    apply List.dropWhile_append_of_pos
    intro b member
    exact decide_eq_true fun same => free (same ▸ member)
  rw [strchr, dropped, strchr]

theorem strchr_self (c : UInt8) (text : Bytes) : strchr (c :: text) c = some (c :: text) := by
  rw [strchr, List.dropWhile_cons_of_neg (by simp)]

theorem strchr_of_not_mem {c : UInt8} {text : Bytes} (free : c ∉ text) : strchr text c = none := by
  rw [← List.append_nil text, strchr_skip free]
  rfl

/-- The search stops at the first occurrence, with the byte still to come. -/
theorem strchr_some {c : UInt8} {text found : Bytes} (result : strchr text c = some found) :
    ∃ skipped rest, c ∉ skipped ∧ text = skipped ++ c :: rest ∧ found = c :: rest := by
  by_cases member : c ∈ text
  · obtain ⟨skipped, rest, rfl, free⟩ := List.eq_append_cons_of_mem member
    rw [strchr_skip free, strchr_self] at result
    cases result
    exact ⟨skipped, rest, free, rfl, rfl⟩
  · rw [strchr_of_not_mem member] at result
    cases result

/-- What a search has found it also finds in a longer text. -/
theorem strchr_append {c : UInt8} {text found : Bytes} (result : strchr text c = some found) (more : Bytes) :
    strchr (text ++ more) c = some (found ++ more) := by
  obtain ⟨skipped, rest, free, rfl, rfl⟩ := strchr_some result
  rw [List.append_assoc, strchr_skip free, List.cons_append, strchr_self]

theorem strstr_some {text pattern found : Bytes} (result : strstr text pattern = some found) :
    pattern <+: found ∧ found <:+ text := by
  induction text with
  | nil =>
    obtain ⟨rfl, rfl⟩ : pattern = [] ∧ [] = found := by simpa [strstr] using result
    exact ⟨List.prefix_rfl, List.suffix_rfl⟩
  | cons c text ih =>
    rw [strstr] at result
    split at result
    next here =>
      cases result
      exact ⟨here, List.suffix_rfl⟩
    next later =>
      obtain ⟨starts, ends⟩ := ih result
      exact ⟨starts, ends.trans (List.suffix_cons c text)⟩

/-- What begins with the pattern is found at once. -/
theorem strstr_of_starts {text pattern : Bytes} (starts : pattern <+: text) : strstr text pattern = some text := by
  cases text with
  | nil => rw [strstr, if_pos (List.prefix_nil.mp starts)]
  | cons c text => exact if_pos starts

theorem strstr_append {text pattern found : Bytes} (result : strstr text pattern = some found) (more : Bytes) :
    strstr (text ++ more) pattern = some (found ++ more) := by
  induction text with
  | nil =>
    obtain ⟨rfl, rfl⟩ : pattern = [] ∧ [] = found := by simpa [strstr] using result
    cases more <;> simp [strstr]
  | cons c text ih =>
    rw [strstr] at result
    rw [List.cons_append, strstr]
    split at result
    next here =>
      cases result
      exact if_pos (here.trans (List.prefix_append _ more))
    next later =>
      -- An occurrence that needed the added bytes would start after the one that was found.
      have fits : pattern.length ≤ (c :: text).length := by
        obtain ⟨starts, ends⟩ := strstr_some result
        exact (starts.length_le.trans ends.length_le).trans (Nat.le_succ _)
      rw [if_neg, ih result]
      intro here
      exact later (List.prefix_of_prefix_length_le here (List.prefix_append (c :: text) more) fits)

/-- What is not found in a text is not found in its beginning. -/
theorem strstr_of_longer {text longer pattern : Bytes} (begins : text <+: longer)
    (missing : strstr longer pattern = none) : strstr text pattern = none := by
  obtain ⟨more, rfl⟩ := begins
  cases result : strstr text pattern with
  | none => rfl
  | some found =>
    rw [strstr_append result] at missing
    cases missing

/-- A pattern is not found where one of its bytes is missing. -/
theorem strstr_of_not_mem {text pattern : Bytes} {c : UInt8} (needed : c ∈ pattern) (free : c ∉ text) :
    strstr text pattern = none := by
  cases result : strstr text pattern with
  | none => rfl
  | some found =>
    obtain ⟨starts, ends⟩ := strstr_some result
    exact absurd (ends.subset (starts.subset needed)) free

/-- An occurrence does not reach over a byte that is not in the pattern. -/
theorem strstr_append_cons {pattern : Bytes} {c : UInt8} (nonempty : pattern ≠ []) (foreign : c ∉ pattern)
    {text : Bytes} (missing : strstr text pattern = none) (rest : Bytes) :
    strstr (text ++ c :: rest) pattern = strstr rest pattern := by
  induction text with
  | nil =>
    rw [List.nil_append, strstr, if_neg]
    intro here
    obtain ⟨b, others, rfl⟩ := List.exists_cons_of_ne_nil nonempty
    obtain ⟨rfl, -⟩ := List.cons_prefix_cons.mp here
    exact foreign List.mem_cons_self
  | cons b text ih =>
    rw [strstr] at missing
    split at missing
    next => cases missing
    next elsewhere =>
      rw [List.cons_append, strstr, if_neg, ih missing]
      rintro ⟨later, same⟩
      have free : ∀ a ∈ pattern, ¬a = c := fun a member same => foreign (same ▸ member)
      exact elsewhere (Delimited.prefix_of_free free rfl same)

section Segments

variable (d : UInt8)

/-- Segments with the delimiter between them. -/
def joinSegments : List Bytes → Bytes
  | [] => []
  | [last] => last
  | first :: rest => first ++ d :: joinSegments rest

theorem joinSegments_cons_cons (first second : Bytes) (rest : List Bytes) :
    joinSegments d (first :: second :: rest) = first ++ d :: joinSegments d (second :: rest) := rfl

theorem mem_joinSegments {c : UInt8} {segments : List Bytes} (member : c ∈ joinSegments d segments) :
    c = d ∨ ∃ segment ∈ segments, c ∈ segment := by
  induction segments with
  | nil => cases member
  | cons first rest ih =>
    cases rest with
    | nil => exact .inr ⟨first, List.mem_cons_self, member⟩
    | cons second rest =>
      rw [joinSegments_cons_cons] at member
      rcases List.mem_append.mp member with inFirst | later
      · exact .inr ⟨first, List.mem_cons_self, inFirst⟩
      · rcases List.mem_cons.mp later with same | inRest
        · exact .inl same
        · rcases ih inRest with same | ⟨segment, among, within⟩
          · exact .inl same
          · exact .inr ⟨segment, List.mem_cons_of_mem _ among, within⟩

/-- A text that is cut somewhere holds its first segments whole, and the beginning of the next one. -/
theorem take_joinSegments {segments : List Bytes} (nonempty : segments ≠ []) (n : ℕ) :
    ∃ k last, k < segments.length ∧ (joinSegments d segments).take n = joinSegments d (segments.take k ++ [last]) ∧
      ∃ whole ∈ segments, last <+: whole := by
  induction segments generalizing n with
  | nil => exact absurd rfl nonempty
  | cons first rest ih =>
    have here (inside : (joinSegments d (first :: rest)).take n = first.take n) :
        ∃ k last, k < (first :: rest).length ∧
          (joinSegments d (first :: rest)).take n = joinSegments d ((first :: rest).take k ++ [last]) ∧
          ∃ whole ∈ first :: rest, last <+: whole :=
      ⟨0, first.take n, Nat.succ_pos _, inside, first, List.mem_cons_self, List.take_prefix n first⟩
    cases rest with
    | nil => exact here rfl
    | cons second rest =>
      rw [joinSegments_cons_cons] at here ⊢
      by_cases inside : n ≤ first.length
      · exact here (List.take_append_of_le_length inside)
      · obtain ⟨k, last, bound, cut, whole, among, begins⟩ := ih (List.cons_ne_nil _ _) (n - first.length - 1)
        refine ⟨k + 1, last, Nat.succ_lt_succ bound, ?_, whole, List.mem_cons_of_mem _ among, begins⟩
        obtain ⟨left, count⟩ : ∃ left, n = first.length + (left + 1) := ⟨n - first.length - 1, by omega⟩
        have rest_ : n - first.length - 1 = left := by omega
        rw [rest_] at cut
        rw [count, List.take_length_add_append, List.take_succ_cons, cut, List.take_succ_cons, List.cons_append]
        cases (second :: rest).take k <;> rfl

/-- The segments from the first one on that is the word and is not the last. -/
def segmentsFrom (word : Bytes) : List Bytes → Option (List Bytes)
  | [] => none
  | [_] => none
  | first :: second :: rest =>
    if first = word then some (first :: second :: rest) else segmentsFrom word (second :: rest)

theorem segmentsFrom_ne_none_iff (word : Bytes) (segments : List Bytes) :
    segmentsFrom word segments ≠ none ↔ word ∈ segments.dropLast := by
  induction segments with
  | nil => simp [segmentsFrom]
  | cons first rest ih =>
    cases rest with
    | nil => simp [segmentsFrom]
    | cons second rest =>
      rw [segmentsFrom, List.dropLast_cons_cons, List.mem_cons]
      split
      next found => simp [found]
      next other => rw [ih, or_iff_right fun same => other same.symm]

theorem segmentsFrom_skip {word first : Bytes} (other : first ≠ word) (second : Bytes) (rest : List Bytes) :
    segmentsFrom word (first :: second :: rest) = segmentsFrom word (second :: rest) := if_neg other

theorem segmentsFrom_self (word second : Bytes) (rest : List Bytes) :
    segmentsFrom word (word :: second :: rest) = some (word :: second :: rest) := if_pos rfl

theorem segmentsFrom_suffix {word : Bytes} {segments found : List Bytes}
    (result : segmentsFrom word segments = some found) : found <:+ segments := by
  induction segments with
  | nil => cases result
  | cons first rest ih =>
    cases rest with
    | nil => cases result
    | cons second rest =>
      rw [segmentsFrom] at result
      split at result
      · cases result
        exact List.suffix_rfl
      · exact (ih result).trans (List.suffix_cons first _)

variable {d}

/-- Up to the first delimiter two texts can only agree segment by segment. -/
theorem prefix_delimited {word first : Bytes} (more : Bytes) {rest : Bytes} (wordFree : d ∉ word)
    (firstFree : d ∉ first) : word ++ d :: more <+: first ++ d :: rest ↔ word = first ∧ more <+: rest := by
  induction word generalizing first with
  | nil =>
    cases first with
    | nil => simp
    | cons c first =>
      have other : d ≠ c := fun same => firstFree (same ▸ List.mem_cons_self)
      simp [other]
  | cons b word ih =>
    cases first with
    | nil =>
      have other : b ≠ d := fun same => wordFree (same ▸ List.mem_cons_self)
      simp [other]
    | cons c first =>
      simp only [List.cons_append, List.cons_prefix_cons, List.cons.injEq]
      rw [ih (fun member => wordFree (List.mem_cons_of_mem b member))
        (fun member => firstFree (List.mem_cons_of_mem c member)), and_assoc]

/-- A delimiter is the only place where a delimited word can start. -/
theorem strstr_skip {skipped pattern text : Bytes} (free : d ∉ skipped) :
    strstr (skipped ++ text) (d :: pattern) = strstr text (d :: pattern) := by
  induction skipped with
  | nil => rfl
  | cons c skipped ih =>
    have other : d ≠ c := fun same => free (same ▸ List.mem_cons_self)
    rw [List.cons_append, strstr, if_neg (by simp [other])]
    exact ih fun member => free (List.mem_cons_of_mem c member)

/-- At a delimiter the rest of the word decides. -/
theorem strstr_delimiter (text pattern : Bytes) :
    strstr (d :: text) (d :: pattern) =
      if pattern <+: text then some (d :: text) else strstr text (d :: pattern) := by
  simp [strstr]

/-- Searching joined segments for a delimited word finds the first inner segment that is the word. -/
theorem strstr_joinSegments {word : Bytes} (wordFree : d ∉ word) (first : Bytes) (rest : List Bytes)
    (free : ∀ segment ∈ first :: rest, d ∉ segment) :
    strstr (joinSegments d (first :: rest)) (d :: (word ++ [d])) =
      (segmentsFrom word rest).map fun found => d :: joinSegments d found := by
  induction rest generalizing first with
  | nil => exact strstr_of_not_mem List.mem_cons_self (free first List.mem_cons_self)
  | cons second rest ih =>
    have later := ih second fun segment member => free segment (List.mem_cons_of_mem first member)
    have firstFree := free first List.mem_cons_self
    have secondFree := free second (List.mem_cons_of_mem first List.mem_cons_self)
    rw [joinSegments_cons_cons, strstr_skip firstFree, strstr_delimiter, later]
    cases rest with
    | nil =>
      -- The last segment has no delimiter after it, so it cannot end the word.
      have unfinished : ¬ word ++ [d] <+: second := by
        intro found
        exact secondFree (found.subset (List.mem_append_right word List.mem_cons_self))
      exact if_neg unfinished
    | cons third rest =>
      rw [segmentsFrom]
      simp only [joinSegments_cons_cons, prefix_delimited [] wordFree secondFree, List.nil_prefix, and_true]
      split
      next same => rw [if_pos same.symm, Option.map_some, joinSegments_cons_cons]
      next other => rw [if_neg fun same => other same.symm]

/-- The delimited word occurs iff it is an inner segment. -/
theorem strstr_joinSegments_ne_none_iff {word : Bytes} (wordFree : d ∉ word) {first : Bytes}
    {rest : List Bytes} (free : ∀ segment ∈ first :: rest, d ∉ segment) :
    strstr (joinSegments d (first :: rest)) (d :: (word ++ [d])) ≠ none ↔ word ∈ rest.dropLast := by
  rw [strstr_joinSegments wordFree first rest free, ← segmentsFrom_ne_none_iff]
  simp only [ne_eq, Option.map_eq_none_iff]

/-- A pattern with a delimiter in it is found where the text before a delimiter ends as the pattern begins. -/
theorem strstr_key {word : Bytes} (nonempty : word ≠ []) (wordFree : d ∉ word) (more : Bytes) {skipped : Bytes}
    (free : d ∉ skipped) (rest : Bytes) :
    strstr (skipped ++ d :: rest) (word ++ d :: more) =
      if word <:+ skipped ∧ more <+: rest then some (word ++ d :: rest) else strstr rest (word ++ d :: more) := by
  induction skipped with
  | nil =>
    rw [List.nil_append, strstr, if_neg, if_neg]
    · exact fun here => nonempty (List.suffix_nil.mp here.1)
    · intro here
      rw [← List.nil_append (d :: rest), prefix_delimited more wordFree free] at here
      exact nonempty here.1
  | cons b skipped ih =>
    have later := ih fun member => free (List.mem_cons_of_mem b member)
    rw [List.cons_append, strstr, later, ← List.cons_append]
    simp only [prefix_delimited more wordFree free, List.suffix_cons_iff]
    by_cases whole : word = b :: skipped
    · subst whole
      have longer : ¬ b :: skipped <:+ skipped := fun within => absurd within.length_le (by simp)
      simp only [true_and, true_or, longer, false_and, if_false]
    · simp only [whole, false_and, false_or, if_false]

end Segments

end ProcessMonitor.Machine.Posix
