import ProcessMonitor.Machine.Posix.CString

/-! # Tags in a text

A tag goes from an opening pattern to the next closing byte, and the search for the next tag goes on behind it;
nothing else of the text's structure is seen. The closing byte is not in the pattern, so a text that
ends with it leaves no tag open: what follows has its own tags.
-/

namespace ProcessMonitor.Machine.Posix

variable (opening : Bytes) (close : UInt8)

/-- The first tag of a text, with its closing byte, and what follows it. -/
def nextTag (text : Bytes) : Option (Bytes × Bytes) :=
  (strstr text opening).bind fun p =>
    (strchr p close).map fun e => (p.take (p.length - e.length + 1), e.drop 1)

def tagsFrom : ℕ → Bytes → List Bytes
  | 0, _ => []
  | rounds + 1, text =>
    match nextTag opening close text with
    | none => []
    | some (tag, rest) => tag :: tagsFrom rounds rest

/-- All tags of a text; each is at least as long as a byte. -/
def tags (text : Bytes) : List Bytes := tagsFrom opening close text.length text

variable {opening close}

theorem nextTag_of_strstr {text inner rest : Bytes} (found : strstr text opening = some (inner ++ close :: rest))
    (free : close ∉ inner) : nextTag opening close text = some (inner ++ [close], rest) := by
  have size : (inner ++ close :: rest).length - (close :: rest).length + 1 = (inner ++ [close]).length := by
    simp only [List.length_append, List.length_cons, List.length_nil]
    omega
  rw [nextTag, found, Option.bind_some, strchr_skip free, strchr_self, Option.map_some, size,
    List.append_cons inner close rest, List.take_left]
  rfl

theorem nextTag_some {text tag rest : Bytes} (next : nextTag opening close text = some (tag, rest)) :
    ∃ inner, close ∉ inner ∧ tag = inner ++ [close] ∧ strstr text opening = some (inner ++ close :: rest) := by
  obtain ⟨p, found, next⟩ := Option.bind_eq_some_iff.mp next
  obtain ⟨e, closed, next⟩ := Option.map_eq_some_iff.mp next
  obtain ⟨inner, rest', free, rfl, rfl⟩ := strchr_some closed
  have same := nextTag_of_strstr found free
  rw [nextTag, found, Option.bind_some, closed, Option.map_some, next] at same
  cases same
  exact ⟨inner, free, rfl, found⟩

theorem nextTag_suffix {text tag rest : Bytes} (next : nextTag opening close text = some (tag, rest)) :
    tag ++ rest <:+ text := by
  obtain ⟨inner, -, rfl, found⟩ := nextTag_some next
  rw [List.append_assoc]
  exact (strstr_some found).2

theorem nextTag_length_lt {text tag rest : Bytes} (next : nextTag opening close text = some (tag, rest)) :
    rest.length < text.length := by
  obtain ⟨inner, -, rfl, found⟩ := nextTag_some next
  have within := (strstr_some found).2.length_le
  simp only [List.length_append, List.length_cons] at within
  omega

private theorem tagsFrom_succ {rounds : ℕ} {text : Bytes} (enough : text.length ≤ rounds) :
    tagsFrom opening close (rounds + 1) text = tagsFrom opening close rounds text := by
  induction rounds generalizing text with
  | zero =>
    cases next : nextTag opening close text with
    | none => simp only [tagsFrom, next]
    | some found => exact absurd (nextTag_length_lt next) (by omega)
  | succ rounds ih =>
    rw [tagsFrom, tagsFrom]
    cases next : nextTag opening close text with
    | none => rfl
    | some found =>
      have shorter := nextTag_length_lt next
      exact congrArg (found.1 :: ·) (ih (by omega))

/-- The bound on the rounds does not show. -/
theorem tagsFrom_of_le {rounds : ℕ} {text : Bytes} (enough : text.length ≤ rounds) :
    tagsFrom opening close rounds text = tags opening close text := by
  induction rounds, enough using Nat.le_induction with
  | base => rfl
  | succ rounds enough ih => rw [tagsFrom_succ enough, ih]

theorem tags_of_none {text : Bytes} (next : nextTag opening close text = none) : tags opening close text = [] := by
  rw [← tagsFrom_of_le (Nat.le_succ text.length), tagsFrom, next]

theorem tags_of_some {text tag rest : Bytes} (next : nextTag opening close text = some (tag, rest)) :
    tags opening close text = tag :: tags opening close rest := by
  have shorter := nextTag_length_lt next
  rw [← tagsFrom_of_le (Nat.le_succ text.length), tagsFrom, next]
  exact congrArg (tag :: ·) (tagsFrom_of_le shorter.le)

/-- A tag is a part of the text. -/
theorem infix_of_mem_tags {text tag : Bytes} (member : tag ∈ tags opening close text) : tag <:+: text := by
  induction size : text.length using Nat.strong_induction_on generalizing text with
  | h size ih =>
    subst size
    cases next : nextTag opening close text with
    | none =>
      rw [tags_of_none next] at member
      cases member
    | some found =>
      obtain ⟨first, rest⟩ := found
      have within := nextTag_suffix next
      rw [tags_of_some next] at member
      rcases List.mem_cons.mp member with rfl | later
      · exact (List.prefix_append tag rest).isInfix.trans within.isInfix
      · exact (ih rest.length (nextTag_length_lt next) later rfl).trans
          ((List.suffix_append first rest).trans within).isInfix

theorem tags_of_strstr_none {text : Bytes} (missing : strstr text opening = none) : tags opening close text = [] :=
  tags_of_none (by rw [nextTag, missing, Option.bind_none])

/-- A text in front that cannot begin a tag has none. -/
theorem tags_skip {c : UInt8} {pattern skipped : Bytes} (free : c ∉ skipped) (text : Bytes) :
    tags (c :: pattern) close (skipped ++ text) = tags (c :: pattern) close text := by
  have next : nextTag (c :: pattern) close (skipped ++ text) = nextTag (c :: pattern) close text := by
    rw [nextTag, strstr_skip free, nextTag]
  cases result : nextTag (c :: pattern) close text with
  | none => rw [tags_of_none result, tags_of_none (next.trans result)]
  | some found => rw [tags_of_some result, tags_of_some (next.trans result)]

section Apart

variable (nonempty : opening ≠ []) (apart : close ∉ opening)

include nonempty apart

theorem tags_cons {inner : Bytes} (free : close ∉ inner) (text : Bytes) :
    tags opening close (opening ++ inner ++ close :: text) =
      (opening ++ inner ++ [close]) :: tags opening close text := by
  apply tags_of_some
  apply nextTag_of_strstr
  · obtain ⟨c, others, rfl⟩ := List.exists_cons_of_ne_nil nonempty
    rw [List.cons_append, List.cons_append, strstr, if_pos]
    rw [← List.cons_append, ← List.cons_append, List.append_assoc]
    exact List.prefix_append _ _
  · exact fun member => (List.mem_append.mp member).elim apart free

private theorem nextTag_append_close (first text : Bytes) : nextTag opening close (first ++ close :: text) =
    match nextTag opening close (first ++ [close]) with
    | none => nextTag opening close text
    | some (tag, rest) => some (tag, rest ++ text) := by
  cases result : strstr first opening with
  | none =>
    have alone : strstr (first ++ [close]) opening = none := by
      rw [strstr_append_cons nonempty apart result, strstr, if_neg nonempty]
    have behind := strstr_append_cons nonempty apart result text
    rw [nextTag, behind, nextTag, alone, Option.bind_none]
    rfl
  | some p =>
    -- the tag that is open at the end of the first text is closed there
    have closing : close ∈ p ++ [close] := List.mem_append_right p (List.mem_singleton_self close)
    obtain ⟨inner, rest, same, free⟩ := List.eq_append_cons_of_mem closing
    have alone : strstr (first ++ [close]) opening = some (inner ++ close :: rest) := by
      rw [strstr_append result, same]
    have within : strstr (first ++ close :: text) opening = some (inner ++ close :: (rest ++ text)) := by
      rw [List.append_cons, strstr_append alone, List.append_assoc, List.cons_append]
    rw [nextTag_of_strstr within free, nextTag_of_strstr alone free]

/-- A closing byte separates the tags before it from those after it. -/
theorem tags_append_close (first text : Bytes) : tags opening close (first ++ close :: text) =
    tags opening close (first ++ [close]) ++ tags opening close text := by
  induction size : first.length using Nat.strong_induction_on generalizing first with
  | h size ih =>
    subst size
    have step := nextTag_append_close nonempty apart first text
    cases next : nextTag opening close (first ++ [close]) with
    | none =>
      rw [next] at step
      rw [tags_of_none next, List.nil_append]
      cases later : nextTag opening close text with
      | none => rw [tags_of_none later, tags_of_none (step.trans later)]
      | some found => rw [tags_of_some later, tags_of_some (step.trans later)]
    | some found =>
      obtain ⟨tag, rest⟩ := found
      rw [next] at step
      rw [tags_of_some next, tags_of_some step, List.cons_append]
      -- what is left of the first text is empty or ends with the closing byte too
      rcases List.eq_nil_or_concat rest with rfl | ⟨front, last, rfl⟩
      · rfl
      · obtain ⟨skipped, same⟩ := nextTag_suffix next
        rw [List.concat_eq_append, ← List.append_assoc, ← List.append_assoc] at same
        obtain ⟨-, closing⟩ := List.append_inj' same rfl
        cases closing
        have shorter := nextTag_length_lt next
        rw [List.concat_eq_append, List.length_append, List.length_append] at shorter
        rw [List.concat_eq_append, List.append_assoc, List.singleton_append]
        exact congrArg (tag :: ·) (ih front.length (Nat.lt_of_add_lt_add_right shorter) front rfl)

end Apart

end ProcessMonitor.Machine.Posix
