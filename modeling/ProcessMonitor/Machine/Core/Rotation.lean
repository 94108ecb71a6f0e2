import Mathlib.Data.List.Induction
import ProcessMonitor.Machine.Core.SlidingWindow

/-! # Logs in files of bounded size

Records are appended to a current file; one that grows over the limit is closed and a new one begun. Of
the closed files only the newest few are kept. The files of a log are cuts of one stream of records, the cuts
fall between records, and a record is kept until as many files as are kept have been closed behind the one
it is in.
-/

namespace ProcessMonitor.Machine

variable {α : Type*}

/-- The files closed so far, oldest first, and the one being written. -/
structure Rotation (α : Type*) where
  closed : List (List α)
  current : List α
deriving DecidableEq

namespace Rotation

def write (limit : ℕ) (r : Rotation α) (record : List α) : Rotation α :=
  if limit < (r.current ++ record).length then ⟨r.closed ++ [r.current ++ record], []⟩
  else { r with current := r.current ++ record }

def writeAll (limit : ℕ) (r : Rotation α) (records : List (List α)) : Rotation α := records.foldl (write limit) r

/-- Everything written, in order. -/
def contents (r : Rotation α) : List α := r.closed.flatten ++ r.current

variable (limit : ℕ)

theorem writeAll_concat (r : Rotation α) (records : List (List α)) (record : List α) :
    writeAll limit r (records ++ [record]) = (writeAll limit r records).write limit record := by
  rw [writeAll, List.foldl_append]
  rfl

theorem writeAll_append (r : Rotation α) (first second : List (List α)) :
    writeAll limit r (first ++ second) = writeAll limit (writeAll limit r first) second := List.foldl_append

/-- A file over the limit is closed at once. -/
theorem write_bounded (r : Rotation α) (record : List α) : (r.write limit record).current.length ≤ limit := by
  rw [write]
  split
  · exact Nat.zero_le limit
  · exact Nat.not_lt.mp ‹_›

theorem write_contents (r : Rotation α) (record : List α) : (r.write limit record).contents = r.contents ++ record := by
  rw [write]
  split
  · simp only [contents, List.flatten_append, List.flatten_cons, List.flatten_nil, List.append_nil, List.append_assoc]
  · simp only [contents, List.append_assoc]

theorem write_closed (r : Rotation α) (record : List α) : r.closed <+: (r.write limit record).closed := by
  rw [write]
  split
  · exact List.prefix_append _ _
  · exact List.prefix_rfl

theorem writeAll_contents (r : Rotation α) (records : List (List α)) :
    (writeAll limit r records).contents = r.contents ++ records.flatten := by
  induction records generalizing r with
  | nil => exact (List.append_nil _).symm
  | cons record records ih =>
    have rest := ih (r.write limit record)
    rw [write_contents, List.append_assoc] at rest
    exact rest

theorem writeAll_closed (r : Rotation α) (records : List (List α)) :
    r.closed <+: (writeAll limit r records).closed := by
  induction records generalizing r with
  | nil => exact List.prefix_rfl
  | cons record records ih => exact (write_closed limit r record).trans (ih (r.write limit record))

/-! ## Whole records -/

/-- A closed file: `front`, which was there before, and whole records, of which the last one has passed the
limit. -/
def Closed (front : List α) (records : List (List α)) (file : List α) : Prop :=
  ∃ before last, records = before ++ [last] ∧ file = front ++ records.flatten ∧
    (front ++ before.flatten).length ≤ limit ∧ limit < file.length

/-- The records fill the closed files one after the other, and the rest of them is in the current one. Only
the first file has something in front of them. -/
def Filled : List α → List (List α) → List (List α) → List α → Prop
  | front, records, [], current => current = front ++ records.flatten
  | front, records, file :: closed, current =>
    ∃ group rest, records = group ++ rest ∧ Closed limit front group file ∧ Filled [] rest closed current

variable {limit}

theorem Filled.write {front : List α} {records : List (List α)} {r : Rotation α}
    (filled : Filled limit front records r.closed r.current) (bounded : r.current.length ≤ limit) (record : List α) :
    Filled limit front (records ++ [record]) (r.write limit record).closed (r.write limit record).current := by
  obtain ⟨closed, current⟩ := r
  simp only at filled bounded
  rw [Rotation.write]
  induction closed generalizing front records with
  | nil =>
    subst filled
    dsimp only
    split
    next larger =>
      refine ⟨records ++ [record], [], by simp, ⟨records, record, rfl, ?_, bounded, larger⟩, rfl⟩
      simp only [List.flatten_append, List.flatten_cons, List.flatten_nil, List.append_nil, List.append_assoc]
    next =>
      simp only [Filled, List.flatten_append, List.flatten_cons, List.flatten_nil, List.append_nil, List.append_assoc]
  | cons file closed ih =>
    obtain ⟨group, rest, rfl, complete, later⟩ := filled
    have extended := ih later
    dsimp only at extended ⊢
    split at extended
    next larger =>
      rw [if_pos larger]
      exact ⟨group, rest ++ [record], List.append_assoc _ _ _, complete, extended⟩
    next under =>
      rw [if_neg under]
      exact ⟨group, rest ++ [record], List.append_assoc _ _ _, complete, extended⟩

theorem writeAll_bounded {r : Rotation α} (bounded : r.current.length ≤ limit) (records : List (List α)) :
    (writeAll limit r records).current.length ≤ limit := by
  induction records generalizing r with
  | nil => exact bounded
  | cons record records ih => exact ih (write_bounded limit r record)

theorem writeAll_filled {front : List α} (bounded : front.length ≤ limit) (records : List (List α)) :
    Filled limit front records (writeAll limit ⟨[], front⟩ records).closed
      (writeAll limit ⟨[], front⟩ records).current := by
  induction records using List.reverseRecOn with
  | nil => exact (List.append_nil front).symm
  | append_singleton records record ih =>
    rw [writeAll_concat]
    exact ih.write (writeAll_bounded bounded records) record

/-! ## What is kept -/

/-- The newest `n` of the closed files, those of earlier times included, and the current one. -/
def kept (n : ℕ) (archive : List (List α)) (r : Rotation α) : List α :=
  (newest n (archive ++ r.closed)).flatten ++ r.current

theorem flatten_suffix {first second : List (List α)} (suffix : first <:+ second) :
    first.flatten <:+ second.flatten := by
  obtain ⟨front, rfl⟩ := suffix
  rw [List.flatten_append]
  exact List.suffix_append _ _

theorem suffix_append_right {first second : List α} (suffix : first <:+ second) (last : List α) :
    first ++ last <:+ second ++ last := by
  obtain ⟨front, rfl⟩ := suffix
  rw [List.append_assoc]
  exact List.suffix_append _ _

theorem newest_suffix (n : ℕ) (writes : List (List α)) : newest n writes <:+ writes := List.drop_suffix _ _

theorem kept_suffix (n : ℕ) (archive : List (List α)) (r : Rotation α) :
    kept n archive r <:+ archive.flatten ++ r.contents := by
  rw [contents, ← List.append_assoc, ← List.flatten_append]
  exact suffix_append_right (flatten_suffix (newest_suffix n _)) _

/-- Files closed last are among the newest, if there are not too many of them. -/
theorem suffix_newest {n : ℕ} {recent : List (List α)} (few : recent.length ≤ n) (before : List (List α)) :
    recent <:+ newest n (before ++ recent) := by
  rw [newest, List.drop_append_of_le_length (by rw [List.length_append]; omega)]
  exact List.suffix_append _ _

/-- What has been written is kept until more than `n` files have been closed. -/
theorem retained {n : ℕ} (archive : List (List α)) (r : Rotation α) (records : List (List α))
    (few : (writeAll limit r records).closed.length ≤ r.closed.length + n) :
    records.flatten <:+ kept n archive (writeAll limit r records) := by
  obtain ⟨recent, closed⟩ := writeAll_closed limit r records
  have written := writeAll_contents limit r records
  rw [contents, contents, ← closed, List.flatten_append, List.append_assoc, List.append_assoc,
    List.append_cancel_left_eq] at written
  rw [← closed, List.length_append, Nat.add_le_add_iff_left] at few
  rw [kept, ← closed, ← List.append_assoc]
  have recentKept := flatten_suffix (suffix_newest few (archive ++ r.closed))
  have suffix := suffix_append_right recentKept (writeAll limit r records).current
  rw [written] at suffix
  exact (List.suffix_append _ _).trans suffix

end Rotation

end ProcessMonitor.Machine
