import ProcessMonitor.Machine.Posix.Word
import Mathlib.Data.Int.Notation
import Mathlib.Data.List.Nodup
import Mathlib.Data.List.Perm.Subperm

/-! # Stream sockets: one `read()`, one `write()`, one `accept()`

The kernel hands out the bytes of the stream in order, as many as it likes but never more than
were asked for, and may at any call answer `EAGAIN`, end of file, or another error instead. The
answers are script entries, so that one proof covers every cutting of a stream. Descriptors are
handed out lowest first, so that a number comes back as soon as it has been closed.
-/

namespace ProcessMonitor.Machine.Posix

/-- What the kernel does at one `read()`; `ready more` may hand out up to `more + 1` bytes. -/
inductive Answer
  | ready (more : ℕ)
  | again
  | hangup
  | fault
deriving DecidableEq, Repr

/-- The result a caller sees: `n > 0`, `n == 0`, or `n < 0` with its `errno`. -/
inductive ReadResult
  | data (bytes : Bytes)
  | eof
  | again
  | error
deriving DecidableEq, Repr

/-- `read(fd, buf, count)` with `unread` still to come on the connection. -/
def read (answer : Answer) (unread : Bytes) (count : ℕ) : ReadResult :=
  match answer with
  | .ready more =>
    if count = 0 then .eof
    else match unread.take (min (more + 1) count) with
      | [] => .again
      | byte :: bytes => .data (byte :: bytes)
  | .again => .again
  | .hangup => .eof
  | .fault => .error

/-- Bytes come in stream order, at least one and at most as many as were asked for. -/
theorem read_data {answer : Answer} {unread data : Bytes} {count : ℕ}
    (result : read answer unread count = .data data) :
    0 < data.length ∧ data.length ≤ count ∧ unread = data ++ unread.drop data.length := by
  cases answer with
  | ready more =>
    simp only [read] at result
    split_ifs at result
    split at result
    · contradiction
    · next byte bytes taken =>
      cases result
      have lengths := congrArg List.length taken
      rw [List.length_take] at lengths
      refine ⟨by simp, by omega, ?_⟩
      have prefixed : byte :: bytes <+: unread := taken ▸ List.take_prefix _ _
      exact (List.prefix_iff_eq_append.mp prefixed).symm
  | again => simp [read] at result
  | hangup => simp [read] at result
  | fault => simp [read] at result

/-- A ready kernel with bytes left hands some out. -/
theorem read_ready (more : ℕ) {unread : Bytes} {count : ℕ} (left : unread ≠ [])
    (wanted : 0 < count) : ∃ data, read (.ready more) unread count = .data data := by
  simp only [read, if_neg (Nat.pos_iff_ne_zero.mp wanted)]
  split
  · next empty =>
    have lengths := congrArg List.length empty
    have := List.length_pos_iff.mpr left
    simp only [List.length_take, List.length_nil] at lengths
    omega
  · exact ⟨_, rfl⟩

/-- All that was asked for, if it is there and the kernel is ready to hand it out. -/
theorem read_ready_all {more count : ℕ} {unread : Bytes} (wanted : 0 < count) (offered : count ≤ more + 1)
    (enough : count ≤ unread.length) : read (.ready more) unread count = .data (unread.take count) := by
  simp only [read, if_neg (Nat.pos_iff_ne_zero.mp wanted), Nat.min_eq_right offered]
  cases taken : unread.take count with
  | nil =>
    have lengths := congrArg List.length taken
    rw [List.length_take, List.length_nil] at lengths
    omega
  | cons => rfl

/-- A ready kernel hands out no more than it offers. -/
theorem read_ready_length {more count : ℕ} {unread data : Bytes}
    (result : read (.ready more) unread count = .data data) : data.length ≤ more + 1 := by
  simp only [read] at result
  split_ifs at result
  split at result
  · contradiction
  · next taken =>
    cases result
    rw [← taken, List.length_take]
    omega

/-- One byte stored at an index of a caller's buffer. -/
structure Store where
  index : ℕ
  byte : UInt8
deriving DecidableEq, Repr

/-- Bytes that are copied to `buf + off`, one after the other. -/
def storesAt (off : ℕ) : Bytes → List Store
  | [] => []
  | byte :: bytes => ⟨off, byte⟩ :: storesAt (off + 1) bytes

theorem storesAt_append (off : ℕ) (first second : Bytes) :
    storesAt off (first ++ second) = storesAt off first ++ storesAt (off + first.length) second := by
  induction first generalizing off with
  | nil => rfl
  | cons byte first ih =>
    simp only [List.cons_append, storesAt, ih, List.length_cons, Nat.add_right_comm, Nat.add_assoc]

theorem index_of_mem_storesAt {off : ℕ} {bytes : Bytes} {store : Store} (member : store ∈ storesAt off bytes) :
    store.index < off + bytes.length := by
  induction bytes generalizing off with
  | nil => cases member
  | cons byte bytes ih =>
    rw [List.length_cons]
    rcases List.mem_cons.mp member with rfl | later
    · dsimp only
      omega
    · have := ih later
      omega

/-- The kernel keeps the connection up: data or `EAGAIN`, never end of file or an error. -/
def Quiet (answers : List Answer) : Prop := ∀ answer ∈ answers, answer ≠ .hangup ∧ answer ≠ .fault

theorem read_quiet {answer : Answer} {unread : Bytes} {count : ℕ}
    (quiet : answer ≠ .hangup ∧ answer ≠ .fault) (wanted : 0 < count) :
    read answer unread count ≠ .eof ∧ read answer unread count ≠ .error := by
  cases answer with
  | ready more =>
    simp only [read, if_neg (Nat.pos_iff_ne_zero.mp wanted)]
    split <;> exact ⟨by simp, by simp⟩
  | again => exact ⟨by simp [read], by simp [read]⟩
  | hangup => exact absurd rfl quiet.1
  | fault => exact absurd rfl quiet.2

/-- What the kernel does at one `write()`; `accept more` takes up to `more + 1` bytes. -/
inductive WriteAnswer
  | accept (more : ℕ)
  | interrupted
  | fault
deriving DecidableEq, Repr

/-- The number of bytes taken, or nothing on an error. -/
def write (answer : WriteAnswer) (count : ℕ) : Option ℕ :=
  match answer with
  | .accept more => some (min (more + 1) count)
  | .interrupted => none
  | .fault => none

/-- The descriptor that a successful `accept()` returns: the lowest number not in use. -/
def lowestFree (used : List ℤ) : ℤ :=
  (((List.range (used.length + 1)).find? fun n : ℕ => (n : ℤ) ∉ used).getD 0 : ℕ)

/-- Among one number more than are in use, one is free. -/
theorem lowestFree_not_mem (used : List ℤ) : lowestFree used ∉ used := by
  unfold lowestFree
  cases found : (List.range (used.length + 1)).find? fun n : ℕ => (n : ℤ) ∉ used with
  | some n => simpa using List.find?_some found
  | none =>
    exfalso
    have all : (List.range (used.length + 1)).map Int.ofNat ⊆ used := by
      intro fd member
      obtain ⟨n, inRange, rfl⟩ := List.mem_map.mp member
      simpa using List.find?_eq_none.mp found n inRange
    have distinct : ((List.range (used.length + 1)).map Int.ofNat).Nodup :=
      List.nodup_range.map fun _ _ same => Int.ofNat.inj same
    have short := (distinct.subperm all).length_le
    rw [List.length_map, List.length_range] at short
    omega

theorem lowestFree_nonneg (used : List ℤ) : 0 ≤ lowestFree used := Int.natCast_nonneg _

end ProcessMonitor.Machine.Posix
