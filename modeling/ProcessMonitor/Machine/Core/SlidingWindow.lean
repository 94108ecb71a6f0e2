import Mathlib.Data.List.Basic
import Mathlib.Data.List.Nodup

/-! # A table overwritten in a circle

A table of fixed size is written at positions that advance cyclically, so that each write replaces
the oldest one still there. The table then holds exactly the newest writes, each in the slot of its
number modulo the size, and blanks in the slots no write has reached yet. Searches over the table
are searches over those newest writes, although the table is not in their order.
-/

namespace ProcessMonitor.Machine

variable {α κ : Type*}

/-- The last `n` elements, or all of them if there are fewer. -/
def newest (n : ℕ) (writes : List α) : List α := writes.drop (writes.length - n)

theorem newest_concat (n : ℕ) (writes : List α) (x : α) : newest (n + 1) (writes ++ [x]) = newest n writes ++ [x] := by
  have length : (writes ++ [x]).length - (n + 1) = writes.length - n := by
    rw [List.length_append, List.length_singleton]
    omega
  rw [newest, newest, length, List.drop_append_of_le_length (Nat.sub_le _ _)]

/-- The newest of the newest. -/
theorem newest_newest {m n : ℕ} (fewer : m ≤ n) (writes : List α) : newest m (newest n writes) = newest m writes := by
  rw [newest, newest, List.drop_drop, List.length_drop, newest]
  congr 1
  omega

theorem newest_concat_sublist (n : ℕ) (writes : List α) (x : α) :
    (newest n (writes ++ [x])).Sublist (newest n writes ++ [x]) := by
  have more : writes.length - n ≤ (writes ++ [x]).length - n := by simp only [List.length_append]; omega
  have inside : writes.length - n ≤ writes.length := Nat.sub_le _ _
  rw [newest, newest, ← List.drop_append_of_le_length inside]
  exact List.drop_sublist_drop_left _ more

theorem mem_newest_iff (n : ℕ) (writes : List α) (x : α) :
    x ∈ newest n writes ↔ ∃ k, writes[k]? = some x ∧ writes.length ≤ k + n := by
  rw [newest, List.mem_iff_getElem?]
  constructor
  · rintro ⟨j, found⟩
    rw [List.getElem?_drop] at found
    exact ⟨_, found, by omega⟩
  · rintro ⟨k, found, recent⟩
    refine ⟨k - (writes.length - n), ?_⟩
    rw [List.getElem?_drop, Nat.add_sub_cancel' (by omega)]
    exact found

/-- Two recent writes with one key are the same write. -/
theorem newest_index_unique {n : ℕ} {writes : List α} (key : α → κ)
    (distinct : ((newest n writes).map key).Nodup) {k l : ℕ} {x y : α} (atK : writes[k]? = some x)
    (atL : writes[l]? = some y) (recentK : writes.length ≤ k + n) (recentL : writes.length ≤ l + n)
    (same : key x = key y) : k = l := by
  have boundK := (List.getElem?_eq_some_iff.mp atK).1
  have shifted (i : ℕ) (z : α) (found : writes[i]? = some z) (recent : writes.length ≤ i + n) :
      ((newest n writes).map key)[i - (writes.length - n)]? = some (key z) := by
    rw [List.getElem?_map, newest, List.getElem?_drop, Nat.add_sub_cancel' (by omega), found]
    rfl
  have inBounds : k - (writes.length - n) < ((newest n writes).map key).length := by
    rw [List.length_map, newest, List.length_drop]
    omega
  have equal := (List.getElem?_inj inBounds distinct).mp
    ((shifted k x atK recentK).trans (same ▸ (shifted l y atL recentL).symm))
  omega

/-- The number of the newest of `count` writes that fell into slot `i`. -/
def latest (n count i : ℕ) : ℕ := i + n * ((count - 1 - i) / n)

/-- `slots` is the table of size `n` after the writes, starting from blanks. -/
structure Window (blank : α) (n : ℕ) (slots writes : List α) : Prop where
  length : slots.length = n
  recent : ∀ k, k < writes.length → writes.length ≤ k + n → slots[k % n]? = writes[k]?
  untouched : ∀ i, writes.length ≤ i → i < n → slots[i]? = some blank

namespace Window

variable {blank : α} {n : ℕ} {slots writes : List α}

theorem start (blank : α) (n : ℕ) : Window blank n (List.replicate n blank) [] where
  length := List.length_replicate
  recent k bound _ := absurd bound (Nat.not_lt_zero k)
  untouched _ _ bound := List.getElem?_replicate_of_lt bound

/-- One write at the next position. -/
theorem write (window : Window blank n slots writes) (positive : 0 < n) (x : α) :
    Window blank n (slots.set (writes.length % n) x) (writes ++ [x]) where
  length := List.length_set.trans window.length
  recent k bound recent := by
    simp only [List.length_append, List.length_singleton] at bound recent
    have inTable : writes.length % n < slots.length := by
      rw [window.length]
      exact Nat.mod_lt _ positive
    rcases Nat.lt_or_eq_of_le (Nat.le_of_lt_succ bound) with older | rfl
    · -- Two of the last `n` numbers never share a slot.
      have apart : writes.length % n ≠ k % n := by
        intro same
        have multiple := Nat.dvd_of_mod_eq_zero (Nat.sub_mod_eq_zero_of_mod_eq same)
        have := Nat.le_of_dvd (Nat.sub_pos_of_lt older) multiple
        omega
      rw [List.getElem?_set_ne apart, List.getElem?_append_left older]
      exact window.recent k older (by omega)
    · rw [List.getElem?_set_self inTable, List.getElem?_concat_length]
  untouched i bound small := by
    simp only [List.length_append, List.length_singleton] at bound
    rw [Nat.mod_eq_of_lt (by omega), List.getElem?_set_ne (by omega)]
    exact window.untouched i (by omega) small

/-- A slot that is not blank holds the newest write that fell into it. -/
theorem slot (window : Window blank n slots writes) {i : ℕ} {x : α} (found : slots[i]? = some x)
    (written : x ≠ blank) :
    latest n writes.length i % n = i ∧ writes[latest n writes.length i]? = some x ∧
      writes.length ≤ latest n writes.length i + n := by
  have small : i < n := window.length ▸ (List.getElem?_eq_some_iff.mp found).1
  have reached : i < writes.length := by
    by_contra beyond
    have untouched := window.untouched i (Nat.not_lt.mp beyond) small
    exact written (Option.some.inj (found.symm.trans untouched))
  have split := Nat.div_add_mod (writes.length - 1 - i) n
  have below := Nat.mod_lt (writes.length - 1 - i) (Nat.zero_lt_of_lt small)
  have number : latest n writes.length i % n = i := by
    rw [latest, Nat.add_mul_mod_self_left, Nat.mod_eq_of_lt small]
  have recent : writes.length ≤ latest n writes.length i + n := by rw [latest]; omega
  have written := window.recent (latest n writes.length i) (by rw [latest]; omega) recent
  rw [number, found] at written
  exact ⟨number, written.symm, recent⟩

theorem mem_newest (window : Window blank n slots writes) {x : α} (member : x ∈ slots)
    (written : x ≠ blank) : x ∈ newest n writes := by
  obtain ⟨i, found⟩ := List.mem_iff_getElem?.mp member
  obtain ⟨-, atK, recent⟩ := window.slot found written
  exact (mem_newest_iff n writes x).mpr ⟨_, atK, recent⟩

theorem mem_slots (window : Window blank n slots writes) {x : α} (member : x ∈ newest n writes) :
    x ∈ slots := by
  obtain ⟨k, atK, recent⟩ := (mem_newest_iff n writes x).mp member
  have bound := (List.getElem?_eq_some_iff.mp atK).1
  exact List.mem_of_getElem? ((window.recent k bound recent).trans atK)

/-- Keys that are distinct among the newest writes are distinct in the table. -/
theorem index_unique (window : Window blank n slots writes) (key : α → κ)
    (distinct : ((newest n writes).map key).Nodup) {i j : ℕ} {x y : α} (atI : slots[i]? = some x)
    (atJ : slots[j]? = some y) (writtenX : x ≠ blank) (writtenY : y ≠ blank) (same : key x = key y) :
    i = j := by
  obtain ⟨slotI, atK, recentK⟩ := window.slot atI writtenX
  obtain ⟨slotJ, atL, recentL⟩ := window.slot atJ writtenY
  rw [← slotI, ← slotJ, newest_index_unique key distinct atK atL recentK recentL same]

end Window

end ProcessMonitor.Machine
