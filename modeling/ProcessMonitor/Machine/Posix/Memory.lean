import ProcessMonitor.Machine.Posix.CString

/-! # Objects in memory

An object is the list of its bytes. A write that would leave it has no value. A caller's buffer keeps the
bytes that are not written, so that what a function does to it is said by one equation.
-/

namespace ProcessMonitor.Machine.Posix

/-- Write bytes into an object, from an offset on. -/
def store (object : Bytes) (offset : ℕ) (bytes : Bytes) : Option Bytes :=
  if offset + bytes.length ≤ object.length then
    some (object.take offset ++ bytes ++ object.drop (offset + bytes.length))
  else none

/-- `snprintf` at an offset of an object; nothing is written if the size is zero. -/
def snprintfAt (object : Bytes) (offset size : ℕ) (text : Bytes) : Option Bytes :=
  if size = 0 then some object else store object offset ((snprintf size text).1 ++ [0])

/-- A write behind the bytes already there. -/
theorem store_append {written rest bytes : Bytes} (fits : bytes.length ≤ rest.length) :
    store (written ++ rest) written.length bytes = some (written ++ bytes ++ rest.drop bytes.length) := by
  have inside : written.length + bytes.length ≤ (written ++ rest).length := by
    rw [List.length_append]
    exact Nat.add_le_add_left fits _
  rw [store, if_pos inside, List.take_left, List.drop_append, List.drop_of_length_le (Nat.le_add_right _ _),
    List.nil_append, Nat.add_sub_cancel_left]

/-- A buffer that holds a string. -/
def holding (text object : Bytes) : Bytes := text ++ 0 :: object.drop (text.length + 1)

theorem store_nul {object : Bytes} (room : object ≠ []) : store object 0 [0] = some (holding [] object) := by
  have inside : 0 + [(0 : UInt8)].length ≤ object.length := List.length_pos_iff.mpr room
  rw [store, if_pos inside]
  rfl

/-- A string and its NUL, as two writes. -/
theorem store_string {text object : Bytes} (room : text.length < object.length) :
    ((store object 0 text).bind fun object => store object text.length [0]) = some (holding text object) := by
  have inside : 0 + text.length ≤ object.length := by omega
  have one : [(0 : UInt8)].length ≤ (object.drop text.length).length := by
    rw [List.length_drop, List.length_singleton]
    omega
  rw [store, if_pos inside, Option.bind_some, List.take_zero, List.nil_append, Nat.zero_add, store_append one,
    List.drop_drop, List.append_assoc]
  rfl

/-- The NUL that is already there. -/
theorem store_end {text object : Bytes} : store (holding text object) text.length [0] = some (holding text object) := by
  have inside : [(0 : UInt8)].length ≤ (0 :: object.drop (text.length + 1)).length := Nat.succ_le_succ (Nat.zero_le _)
  rw [holding, store_append inside, List.append_assoc]
  rfl

/-- Nothing changes behind the string. -/
theorem drop_holding {text : Bytes} (object : Bytes) {n : ℕ} (behind : text.length < n) :
    (holding text object).drop n = object.drop n := by
  obtain ⟨k, rfl⟩ := Nat.exists_eq_add_of_lt behind
  have length : text.length + k + 1 = text.length + (k + 1) := Nat.add_assoc _ _ _
  rw [holding, length, ← List.drop_drop, List.drop_left, List.drop_succ_cons, List.drop_drop]
  congr 1
  omega

/-- More text goes where the string ends, as far as its buffer reaches. -/
theorem snprintfAt_holding {text object : Bytes} {size : ℕ} (room : 0 < size)
    (fits : text.length + size ≤ object.length) (more : Bytes) :
    snprintfAt (holding text object) text.length size more =
      some (holding (text ++ more.take (size - 1)) object) := by
  have short : (more.take (size - 1)).length ≤ size - 1 := List.length_take_le _ _
  have inside : (more.take (size - 1) ++ [0]).length ≤ (0 :: object.drop (text.length + 1)).length := by
    simp only [List.length_append, List.length_cons, List.length_nil, List.length_drop]
    omega
  rw [snprintfAt, if_neg (Nat.ne_of_gt room), snprintf, holding, store_append inside, holding]
  simp only [List.length_append, List.length_singleton, List.drop_succ_cons, List.drop_drop, List.append_assoc,
    List.singleton_append, List.length_take]
  congr 5
  omega

end ProcessMonitor.Machine.Posix
