import Mathlib.Data.List.TakeWhile
import Mathlib.Logic.Function.Basic
import ProcessMonitor.Machine.Posix.Word

/-! # Names, files, and open files

A name in a directory refers to a file, and so does an open descriptor; renaming moves the name and leaves
the descriptors at the file they were opened on. Files are numbered in the order of their creation, so
that a file that has lost its name can still be told from the one that has it now. No file has
two names.
-/

namespace ProcessMonitor.Machine.Posix

variable {Name : Type*}

/-- Every name is of a file that exists, and of one that has no other name. -/
structure WellNamed (dir : Name → Option ℕ) (next : ℕ) : Prop where
  bounded : ∀ {name file}, dir name = some file → file < next
  unshared : ∀ {first second file}, dir first = some file → dir second = some file → first = second

/-- A directory and the contents of all files, also of those without a name. -/
structure Files (Name : Type*) where
  dir : Name → Option ℕ
  content : ℕ → Bytes
  next : ℕ
  wellNamed : WellNamed dir next

namespace Files

/-- The contents of the file with a name. -/
def read (fs : Files Name) (name : Name) : Option Bytes := (fs.dir name).map fs.content

/-- `write()` to a file that was opened for appending. -/
def append (fs : Files Name) (file : ℕ) (bytes : Bytes) : Files Name :=
  { fs with content := Function.update fs.content file (fs.content file ++ bytes) }

section Reading

variable {fs : Files Name} {name : Name} {file : ℕ}

theorem read_of_dir (named : fs.dir name = some file) : fs.read name = some (fs.content file) := by
  rw [read, named, Option.map_some]

theorem read_append (named : fs.dir name = some file) (bytes : Bytes) :
    (fs.append file bytes).read name = some (fs.content file ++ bytes) := by
  have still : (fs.append file bytes).dir name = some file := named
  rw [read_of_dir still]
  exact congrArg some (Function.update_self file _ fs.content)

theorem read_append_of_ne (different : fs.dir name ≠ some file) (bytes : Bytes) :
    (fs.append file bytes).read name = fs.read name := by
  apply Option.map_congr
  intro found named
  have elsewhere : found ≠ file := fun same => different (same ▸ named)
  exact Function.update_of_ne elsewhere _ fs.content

end Reading

end Files

variable [DecidableEq Name]

namespace WellNamed

variable {dir : Name → Option ℕ} {next : ℕ}

theorem update_none (wellNamed : WellNamed dir next) (name : Name) :
    WellNamed (Function.update dir name none) next := by
  have kept {other : Name} {file : ℕ} (found : Function.update dir name none other = some file) :
      dir other = some file := by
    by_cases same : other = name
    · rw [same, Function.update_self] at found
      cases found
    · rwa [Function.update_of_ne same] at found
  exact ⟨fun found => wellNamed.bounded (kept found), fun found again => wellNamed.unshared (kept found) (kept again)⟩

theorem update_some (wellNamed : WellNamed dir next) {name : Name} {file later : ℕ} (grows : next ≤ later)
    (exists_ : file < later) (unnamed : ∀ other ≠ name, dir other ≠ some file) :
    WellNamed (Function.update dir name (some file)) later where
  bounded := by
    intro other found kept
    by_cases same : other = name
    · rw [same, Function.update_self] at kept
      cases kept
      exact exists_
    · rw [Function.update_of_ne same] at kept
      exact Nat.lt_of_lt_of_le (wellNamed.bounded kept) grows
  unshared := by
    intro first second found one two
    by_cases isFirst : first = name <;> by_cases isSecond : second = name
    · rw [isFirst, isSecond]
    · rw [isFirst, Function.update_self] at one
      rw [Function.update_of_ne isSecond] at two
      cases one
      exact absurd two (unnamed second isSecond)
    · rw [isSecond, Function.update_self] at two
      rw [Function.update_of_ne isFirst] at one
      cases two
      exact absurd one (unnamed first isFirst)
    · rw [Function.update_of_ne isFirst] at one
      rw [Function.update_of_ne isSecond] at two
      exact wellNamed.unshared one two

end WellNamed

namespace Files

/-- A new file without contents takes the name. -/
def create (fs : Files Name) (name : Name) : Files Name where
  dir := Function.update fs.dir name (some fs.next)
  content := Function.update fs.content fs.next []
  next := fs.next + 1
  wellNamed := by
    apply fs.wellNamed.update_some (Nat.le_succ _) (Nat.lt_succ_self _)
    intro other _ found
    exact absurd (fs.wellNamed.bounded found) (Nat.lt_irrefl _)

/-- `fopen(name, "a")`: the file with the name, created if there is none. -/
def fopen (fs : Files Name) (name : Name) : Files Name × ℕ :=
  match fs.dir name with
  | some file => (fs, file)
  | none => (fs.create name, fs.next)

/-- `rename()`; without the old name it fails and changes nothing. -/
def rename (fs : Files Name) (old new : Name) : Files Name :=
  match found : fs.dir old with
  | none => fs
  | some file =>
    { fs with
      dir := Function.update (Function.update fs.dir old none) new (some file)
      wellNamed := by
        apply (fs.wellNamed.update_none old).update_some (Nat.le_refl _) (fs.wellNamed.bounded found)
        intro other _ again
        by_cases moved : other = old
        · rw [moved, Function.update_self] at again
          cases again
        · rw [Function.update_of_ne moved] at again
          exact moved (fs.wellNamed.unshared again found) }

variable {fs : Files Name} {name other : Name} {file : ℕ}

theorem dir_fopen (fs : Files Name) (name : Name) : (fs.fopen name).1.dir name = some (fs.fopen name).2 := by
  rw [fopen]
  split
  next named => exact named
  next => exact Function.update_self name _ fs.dir

theorem dir_fopen_of_ne (different : other ≠ name) : (fs.fopen name).1.dir other = fs.dir other := by
  rw [fopen]
  split
  · rfl
  · exact Function.update_of_ne different _ fs.dir

/-- Opening takes no name away from a file. -/
theorem dir_fopen_of_dir (named : fs.dir other = some file) (name : Name) :
    (fs.fopen name).1.dir other = some file := by
  rw [fopen]
  split
  · exact named
  next missing =>
    have different : other ≠ name := fun same => by rw [same, missing] at named; cases named
    exact (Function.update_of_ne different _ fs.dir).trans named

/-- Opening a file for appending leaves its contents, or an empty file. -/
theorem content_fopen (fs : Files Name) (name : Name) :
    (fs.fopen name).1.content (fs.fopen name).2 = (fs.read name).getD [] := by
  rw [fopen, read]
  split
  next named => rw [named]; rfl
  next missing =>
    rw [missing]
    exact Function.update_self fs.next _ fs.content

theorem read_fopen_of_ne (different : other ≠ name) : (fs.fopen name).1.read other = fs.read other := by
  rw [read, dir_fopen_of_ne different, read]
  apply Option.map_congr
  intro found named
  rw [fopen]
  split
  · rfl
  · exact Function.update_of_ne (Nat.ne_of_lt (fs.wellNamed.bounded named)) _ fs.content

theorem content_rename (fs : Files Name) (old new : Name) : (fs.rename old new).content = fs.content := by
  unfold rename
  split <;> rfl

theorem next_rename (fs : Files Name) (old new : Name) : (fs.rename old new).next = fs.next := by
  unfold rename
  split <;> rfl

/-- A file that is created is none of those before it, and leaves them alone. -/
theorem fopen_of_missing (missing : fs.dir name = none) (older : file < fs.next) :
    (fs.fopen name).2 ≠ file ∧ (fs.fopen name).1.content file = fs.content file := by
  rw [fopen, missing]
  exact ⟨Nat.ne_of_gt older, Function.update_of_ne (Nat.ne_of_lt older) _ fs.content⟩

theorem read_rename (fs : Files Name) (old new name : Name) :
    (fs.rename old new).read name =
      match fs.read old with
      | none => fs.read name
      | some bytes => if name = new then some bytes else if name = old then none else fs.read name := by
  unfold rename
  split
  next missing => rw [read, read, missing]; rfl
  next moved found =>
    rw [read_of_dir found]
    dsimp only [read]
    by_cases target : name = new
    · rw [target, Function.update_self, if_pos rfl]
      rfl
    · rw [Function.update_of_ne target, if_neg target]
      by_cases source : name = old
      · rw [source, Function.update_self, if_pos rfl]
        rfl
      · rw [Function.update_of_ne source, if_neg source]

end Files

/-! ## Streams

A stream is what is left to read of a file. -/

/-- `fgets` into a buffer of `size` bytes: the line with its newline, or as much of it as fits, and what is left. -/
def fgets (size : ℕ) (stream : Bytes) : Option (Bytes × Bytes) :=
  let n := min (size - 1) ((stream.takeWhile (· ≠ 10)).length + 1)
  if stream = [] then none else some (stream.take n, stream.drop n)

theorem fgets_some {size : ℕ} (room : 1 < size) {stream line rest : Bytes}
    (read : fgets size stream = some (line, rest)) :
    line ≠ [] ∧ line.length < size ∧ stream = line ++ rest := by
  obtain ⟨nonempty, same⟩ := Option.ite_none_left_eq_some.mp read
  cases same
  refine ⟨?_, ?_, (List.take_append_drop _ stream).symm⟩
  · rw [Ne, List.take_eq_nil_iff, not_or]
    exact ⟨by omega, nonempty⟩
  · rw [List.length_take]
    omega

section Lines

variable {size : ℕ} {line : Bytes} (free : 10 ∉ line)
include free

private theorem takeWhile_line_length (rest : Bytes) :
    ((line ++ 10 :: rest).takeWhile (· ≠ 10)).length = line.length := by
  have before : ∀ c ∈ line, decide (c ≠ 10) = true := fun c member => decide_eq_true fun same => free (same ▸ member)
  rw [List.takeWhile_append_of_pos before, List.takeWhile_cons_of_neg (by simp), List.append_nil]

/-- A line that fits is read with its newline. -/
theorem fgets_line (fits : line.length + 1 < size) (rest : Bytes) :
    fgets size (line ++ 10 :: rest) = some (line ++ [10], rest) := by
  have count : min (size - 1) (line.length + 1) = (line ++ [10]).length := by
    rw [List.length_append, List.length_singleton]
    omega
  rw [fgets, takeWhile_line_length free, count, if_neg (by simp), List.append_cons line 10 rest, List.take_left,
    List.drop_left]

/-- The last line, if no newline ends it. -/
theorem fgets_last (nonempty : line ≠ []) (fits : line.length < size) : fgets size line = some (line, []) := by
  have whole : line.takeWhile (· ≠ 10) = line := by
    rw [List.takeWhile_eq_self_iff]
    exact fun c member => decide_eq_true fun same => free (same ▸ member)
  have count : line.length ≤ min (size - 1) (line.length + 1) := by omega
  rw [fgets, whole, if_neg nonempty, List.take_of_length_le count, List.drop_of_length_le count]

end Lines

end ProcessMonitor.Machine.Posix
