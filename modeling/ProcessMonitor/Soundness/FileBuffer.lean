import ProcessMonitor.Model.LocGen.XmlLoader

/-! # The buffer that the rooms file is read into

`loc_load_rooms_xml` doubles its buffer at most once before it copies a piece. A piece is shorter than the first
allocation, and so than every later one; a buffer with room for its own NUL has therefore room for the piece and
a NUL when it has been doubled. Since it is only doubled when it is too small, it never gets larger than twice
the file, and no size wraps for a file below `2 ^ 63` bytes.
-/

namespace ProcessMonitor.Soundness.FileBuffer

open Machine Machine.Posix Model.LocGen

/-- The reading loop at its head: what is left of the file, and the buffer. -/
inductive Reads (file : Bytes) : Bytes → LoadBuffer → Prop
  | start : Reads file file ⟨0, []⟩
  | round {stream line rest : Bytes} {buf after : LoadBuffer} (before : Reads file stream buf)
      (read : fgets 1024 stream = some (line, rest)) (copied : buf.append (cstr line) = some after) :
      Reads file rest after

/-- What holds at the head of the loop. -/
structure Growing (file stream : Bytes) (buf : LoadBuffer) : Prop where
  sound : buf = ⟨0, []⟩ ∨ buf.Sound
  within : buf.bytes.length + stream.length ≤ file.length
  twice : buf.cap ≤ max 4096 (2 * buf.bytes.length)

/-- One piece, when it is copied. -/
theorem Growing.copy {file stream line rest : Bytes} {buf : LoadBuffer} (growing : Growing file stream buf)
    (read : fgets 1024 stream = some (line, rest)) :
    buf.bytes.length + (cstr line).length + 1 ≤ buf.grown (cstr line) ∧
      buf.grown (cstr line) ≤ max 4096 (2 * (buf.bytes.length + (cstr line).length)) ∧
      buf.bytes.length + (cstr line).length + rest.length ≤ file.length := by
  obtain ⟨-, short, rfl⟩ := fgets_some (by decide) read
  have cut : (cstr line).length ≤ line.length := (List.takeWhile_prefix _).length_le
  have room := (LoadBuffer.grown_of_short growing.sound (Nat.lt_of_le_of_lt cut short)).2
  have within := growing.within
  rw [List.length_append] at within
  refine ⟨room, ?_, by omega⟩
  have twice := growing.twice
  rw [LoadBuffer.grown]
  split_ifs <;> omega

theorem Reads.growing {file stream : Bytes} {buf : LoadBuffer} (reads : Reads file stream buf) :
    Growing file stream buf := by
  induction reads with
  | start => exact ⟨.inl rfl, by simp, by simp⟩
  | @round stream line rest buf after before read copied ih =>
    obtain ⟨room, twice, within⟩ := ih.copy read
    obtain ⟨-, short, -⟩ := fgets_some (by decide) read
    have cut : (cstr line).length ≤ line.length := (List.takeWhile_prefix _).length_le
    have sound := LoadBuffer.append_of_short ih.sound (Nat.lt_of_le_of_lt cut short)
    rw [LoadBuffer.append_eq, if_pos (Nat.le_of_succ_le room)] at copied sound
    obtain ⟨_, same, -, sound⟩ := sound
    cases copied
    cases same
    refine ⟨.inr sound, ?_, ?_⟩
    · rw [List.length_append]
      exact within
    · rw [List.length_append]
      exact twice

/-- The loop of the model makes these rounds, to the end of the file. -/
theorem Reads.readLines {file stream : Bytes} {buf after : LoadBuffer} {rounds : ℕ} (reads : Reads file stream buf)
    (ended : Model.LocGen.readLines rounds stream buf = some after) : Reads file [] after := by
  induction rounds generalizing stream buf with
  | zero =>
    obtain ⟨rfl, same⟩ := Option.ite_none_right_eq_some.mp ended
    cases same
    exact reads
  | succ rounds ih =>
    rw [Model.LocGen.readLines] at ended
    cases read : fgets 1024 stream with
    | none =>
      obtain rfl : stream = [] := by simpa [fgets] using read
      rw [read] at ended
      cases ended
      exact reads
    | some found =>
      rw [read] at ended
      obtain ⟨longer, copied, ended⟩ := Option.bind_eq_some_iff.mp ended
      exact ih (.round reads read copied) ended

/-- In every round the piece and a NUL fit. For a file that is not empty the loop ends in a buffer in which the
final NUL has its place, and which holds the file if that has no NUL. -/
theorem loadBuffer_holds_file (file : Bytes) :
    (∀ stream buf line rest, Reads file stream buf → fgets 1024 stream = some (line, rest) →
      buf.bytes.length + (cstr line).length + 1 ≤ buf.grown (cstr line) ∧
        buf.grown (cstr line) ≤ max 4096 (2 * file.length)) ∧
    (file ≠ [] → ∃ buf, readLines file.length file ⟨0, []⟩ = some buf ∧ Reads file [] buf ∧
      buf.bytes.length < buf.cap ∧ (0 ∉ file → buf.bytes = file)) := by
  constructor
  · intro stream buf line rest reads read
    obtain ⟨room, twice, within⟩ := reads.growing.copy read
    exact ⟨room, by omega⟩
  · intro nonempty
    obtain ⟨buf, ended, sound, all⟩ := readLines_sound (Nat.le_refl _) (.inl ⟨rfl, nonempty⟩)
    exact ⟨buf, ended, Reads.start.readLines ended, sound.2, fun free => all free⟩

end ProcessMonitor.Soundness.FileBuffer
