import Mathlib.Data.List.Basic

/-! # Sequences cut at delimiters

A delimiter is any element with a given property, so two delimiters may differ. Where one stands first in a
sequence does not depend on how the sequence is written down.
-/

namespace ProcessMonitor.Machine.Delimited

variable {α : Type*} {ends : α → Prop}

/-- A beginning without a delimiter is part of the first line. -/
theorem prefix_of_free {first later line rest : List α} {d : α} (free : ∀ b ∈ first, ¬ends b) (delimiter : ends d)
    (same : first ++ later = line ++ d :: rest) : first <+: line := by
  rcases List.append_eq_append_iff.mp same with ⟨more, within, -⟩ | ⟨more, beyond, tail⟩
  · exact ⟨more, within.symm⟩
  · cases more with
    | nil => exact ⟨[], by rw [beyond, List.append_nil, List.append_nil]⟩
    | cons b more =>
      rw [List.cons_append] at tail
      obtain ⟨rfl, -⟩ := List.cons_eq_cons.mp tail
      exact absurd delimiter (free d (by simp [beyond]))

/-- The first line is what stands before the first delimiter. -/
theorem cut_unique {first later line rest : List α} {d e : α} (free : ∀ b ∈ first, ¬ends b)
    (whole : ∀ b ∈ line, ¬ends b) (delimiter : ends d) (other : ends e)
    (same : first ++ e :: later = line ++ d :: rest) : first = line ∧ later = rest := by
  have left := prefix_of_free free delimiter same
  have right := prefix_of_free whole other same.symm
  have equal : first = line := left.eq_of_length (Nat.le_antisymm left.length_le right.length_le)
  subst equal
  exact ⟨rfl, (List.cons_eq_cons.mp (List.append_cancel_left same)).2⟩

/-- A sequence with a delimiter in it has a first one. -/
theorem exists_cut {sequence : List α} {d : α} (member : d ∈ sequence) (delimiter : ends d) :
    ∃ line e rest, sequence = line ++ e :: rest ∧ ends e ∧ ∀ b ∈ line, ¬ends b := by
  induction sequence with
  | nil => cases member
  | cons b sequence ih =>
    by_cases here : ends b
    · exact ⟨[], b, sequence, rfl, here, fun _ member => absurd member List.not_mem_nil⟩
    · have later : d ∈ sequence := (List.mem_cons.mp member).resolve_left fun same => here (same ▸ delimiter)
      obtain ⟨line, e, rest, rfl, other, free⟩ := ih later
      refine ⟨b :: line, e, rest, rfl, other, fun c member => ?_⟩
      rcases List.mem_cons.mp member with rfl | member
      · exact here
      · exact free c member

/-- A sequence is a rest without the delimiter, or a line, the delimiter and a sequence. -/
theorem lines_induction [DecidableEq α] {d : α} {motive : List α → Prop} (rest : ∀ w, d ∉ w → motive w)
    (line : ∀ w stream, d ∉ w → motive stream → motive (w ++ d :: stream)) : ∀ stream, motive stream := by
  -- over the sequence, with the beginning of its first line in front
  suffices front : ∀ stream w, d ∉ w → motive (w ++ stream) from fun stream => front stream [] List.not_mem_nil
  intro stream
  induction stream with
  | nil => exact fun w free => (List.append_nil w).symm ▸ rest w free
  | cons b stream ih =>
    intro w free
    by_cases delimiter : b = d
    · exact delimiter ▸ line w stream free (ih [] List.not_mem_nil)
    · rw [List.append_cons]
      exact ih (w ++ [b]) (by simp [free, Ne.symm delimiter])

/-! ## Texts of lines -/

/-- Lines, each with the delimiter behind it. -/
def terminated (d : α) (lines : List (List α)) : List α := lines.flatMap (· ++ [d])

theorem terminated_cons (d : α) (line : List α) (lines : List (List α)) :
    terminated d (line :: lines) = line ++ d :: terminated d lines := by
  rw [terminated, List.flatMap_cons, List.append_assoc, List.singleton_append, terminated]

theorem count_terminated [DecidableEq α] (d : α) (lines : List (List α)) :
    (terminated d lines).count d = lines.length + lines.flatten.count d := by
  induction lines with
  | nil => rfl
  | cons line lines ih =>
    rw [terminated_cons, List.count_append, List.count_cons_self, ih, List.length_cons, List.flatten_cons,
      List.count_append]
    omega

theorem terminated_injective {d : α} {first second : List (List α)} (firstFree : ∀ line ∈ first, d ∉ line)
    (secondFree : ∀ line ∈ second, d ∉ line) (same : terminated d first = terminated d second) :
    first = second := by
  have other {line : List α} (free : d ∉ line) : ∀ b ∈ line, ¬b = d := fun b member same => free (same ▸ member)
  induction first generalizing second with
  | nil =>
    cases second with
    | nil => rfl
    | cons line second => simp [terminated] at same
  | cons line first ih =>
    cases second with
    | nil => simp [terminated] at same
    | cons line' second =>
      rw [List.forall_mem_cons] at firstFree secondFree
      rw [terminated_cons, terminated_cons] at same
      obtain ⟨rfl, rest⟩ := cut_unique (other firstFree.1) (other secondFree.1) rfl rfl same
      rw [ih firstFree.2 secondFree.2 rest]

/-- A text of lines is made of as many parts in one way only, even if the parts are not known to be lines. -/
theorem eq_of_terminated_eq [DecidableEq α] {d : α} {lines parts : List (List α)} (free : ∀ line ∈ lines, d ∉ line)
    (length : lines.length = parts.length) (same : terminated d lines = terminated d parts) : lines = parts := by
  apply terminated_injective free _ same
  have counted := congrArg (List.count d) same
  have unmarked : lines.flatten.count d = 0 := by
    rw [List.count_eq_zero, List.mem_flatten]
    rintro ⟨line, member, inside⟩
    exact free line member inside
  rw [count_terminated, count_terminated, unmarked] at counted
  have nothing : parts.flatten.count d = 0 := by omega
  rw [List.count_eq_zero, List.mem_flatten] at nothing
  exact fun part member inside => nothing ⟨part, member, inside⟩

end ProcessMonitor.Machine.Delimited
