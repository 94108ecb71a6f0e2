import Mathlib.Data.List.Basic

/-! # Ring buffers that keep one slot empty

A ring of `cap` slots holds its items in the slots from `head` up to, and not including, `tail`,
wrapping at the end; since equal ends mean that it is empty, it holds fewer than `cap` items. Adding an
item is two writes, into the slot at `tail` and then of `tail`, and so is removing one at `head`.
`Holds` describes the ring also between the two, so that the same four lemmas serve a caller that does
them in one go and one that is interrupted in the middle.
-/

namespace ProcessMonitor.Machine.Ring

variable {α : Type*}

def next (cap i : ℕ) : ℕ := if i + 1 = cap then 0 else i + 1

/-- The slot `j` places after `head`. -/
def place (cap head j : ℕ) : ℕ := if head + j < cap then head + j else head + j - cap

/-- The slots from `head` to `tail` in the direction of the ring. -/
def Between (head tail i : ℕ) : Prop :=
  head ≤ tail ∧ head ≤ i ∧ i < tail ∨ tail < head ∧ (head ≤ i ∨ i < tail)

theorem place_lt {cap head j : ℕ} (inside : head < cap) (bound : j ≤ cap) : place cap head j < cap := by
  unfold place
  split <;> omega

theorem place_zero {cap head : ℕ} (inside : head < cap) : place cap head 0 = head := by
  rw [place, if_pos (by omega), Nat.add_zero]

theorem place_inj {cap head j k : ℕ} (boundJ : j < cap) (boundK : k < cap)
    (same : place cap head j = place cap head k) : j = k := by
  unfold place at same
  split at same <;> split at same <;> omega

/-- Every slot is some number of places after `head`. -/
theorem exists_place {cap head i : ℕ} (inside : head < cap) (bound : i < cap) :
    ∃ j, j < cap ∧ place cap head j = i := by
  rcases Nat.lt_or_ge i head with wrapped | ahead
  · refine ⟨cap + i - head, by omega, ?_⟩
    rw [place, if_neg (by omega)]
    omega
  · refine ⟨i - head, by omega, ?_⟩
    rw [place, if_pos (by omega)]
    omega

theorem next_place {cap head j : ℕ} (inside : head < cap) (bound : j < cap) :
    next cap (place cap head j) = place cap head (j + 1) := by
  unfold next place
  split <;> split <;> split <;> omega

theorem place_next {cap head j : ℕ} (bound : j < cap) :
    place cap (next cap head) j = place cap head (j + 1) := by
  unfold next place
  split <;> split <;> split <;> omega

theorem between_place_iff {cap head count j : ℕ} (room : count < cap) (bound : j < cap) :
    Between head (place cap head count) (place cap head j) ↔ j < count := by
  unfold Between place
  split <;> split <;> omega

/-- What the slot `j` places after `head` holds: the first item may have been cleared already, and the
slot after the last one may have been filled already. -/
def cell (items : List α) (cleared : Bool) (early : Option α) (j : ℕ) : Option α :=
  if j = 0 ∧ cleared = true then none else if j = items.length then early else items[j]?

/-- A ring that holds `items`. With `cleared` the slot at `head` is empty although `head` has not moved
yet, and `early` stands in the slot at `tail` although `tail` has not. -/
structure Holds (slots : List (Option α)) (head tail : ℕ) (items : List α) (cleared : Bool) (early : Option α) :
    Prop where
  inside : head < slots.length
  tail_eq : tail = place slots.length head items.length
  room : items.length < slots.length
  occupied : cleared = true → items ≠ []
  cells : ∀ j, j < slots.length → slots[place slots.length head j]? = some (cell items cleared early j)

namespace Holds

variable {slots : List (Option α)} {head tail : ℕ} {items : List α} {cleared : Bool} {early : Option α}

theorem start {cap : ℕ} (positive : 0 < cap) : Holds (List.replicate cap (none : Option α)) 0 0 [] false none where
  inside := by rwa [List.length_replicate]
  tail_eq := by rw [List.length_replicate]; exact (place_zero positive).symm
  room := by rwa [List.length_replicate]
  occupied impossible := nomatch impossible
  cells j bound := by
    rw [List.length_replicate] at bound ⊢
    rw [List.getElem?_replicate_of_lt (place_lt positive (Nat.le_of_lt bound))]
    unfold cell
    split
    · rfl
    · split <;> simp

theorem tail_lt (holds : Holds slots head tail items cleared early) : tail < slots.length := by
  rw [holds.tail_eq]
  exact place_lt holds.inside (Nat.le_of_lt holds.room)

theorem empty_iff (holds : Holds slots head tail items cleared early) : head = tail ↔ items = [] := by
  have zero := place_zero holds.inside
  constructor
  · intro same
    have count := place_inj (Nat.zero_lt_of_lt holds.inside) holds.room
      (zero.trans (same.trans holds.tail_eq))
    exact List.eq_nil_of_length_eq_zero count.symm
  · rintro rfl
    rw [holds.tail_eq]
    exact zero.symm

theorem full_iff (holds : Holds slots head tail items cleared early) :
    next slots.length tail = head ↔ items.length + 1 = slots.length := by
  have inside := holds.inside
  have room := holds.room
  rw [holds.tail_eq, next_place inside room]
  unfold place
  constructor
  · intro same
    split at same <;> omega
  · intro full
    rw [if_neg (by omega)]
    omega

/-- The number of items, from the two ends. -/
theorem length_eq (holds : Holds slots head tail items cleared early) :
    (if head ≤ tail then tail - head else slots.length - (head - tail)) = items.length := by
  have inside := holds.inside
  have room := holds.room
  rw [holds.tail_eq]
  unfold place
  split <;> split <;> omega

theorem head_cell {x : α} {rest : List α} (holds : Holds slots head tail (x :: rest) false early) :
    slots[head]? = some (some x) := by
  have first := holds.cells 0 (Nat.zero_lt_of_lt holds.inside)
  rwa [place_zero holds.inside] at first

/-- An item between the ends is where its position says. -/
theorem item_cell (holds : Holds slots head tail items cleared early) {j : ℕ} {x : α} (found : items[j]? = some x)
    (kept : j ≠ 0 ∨ cleared = false) : slots[place slots.length head j]? = some (some x) := by
  have bound := (List.getElem?_eq_some_iff.mp found).1
  rw [holds.cells j (Nat.lt_trans bound holds.room), cell, if_neg, if_neg (Nat.ne_of_lt bound), found]
  rintro ⟨rfl, set⟩
  rcases kept with first | unset
  · exact first rfl
  · rw [unset] at set
    cases set

private theorem getElem?_set_place {k j : ℕ} (inside : head < slots.length) (boundK : k < slots.length)
    (boundJ : j < slots.length) (v : Option α) :
    (slots.set (place slots.length head k) v)[place slots.length head j]? =
      if j = k then some v else slots[place slots.length head j]? := by
  have inTable := place_lt inside (Nat.le_of_lt boundK)
  split
  next same => rw [same, List.getElem?_set_self inTable]
  next other => rw [List.getElem?_set_ne fun same => other (place_inj boundJ boundK same.symm)]

/-- Fill the slot at the tail. -/
theorem write (holds : Holds slots head tail items cleared early) (x : α) :
    Holds (slots.set tail (some x)) head tail items cleared (some x) where
  inside := by rw [List.length_set]; exact holds.inside
  tail_eq := by rw [List.length_set]; exact holds.tail_eq
  room := by rw [List.length_set]; exact holds.room
  occupied := holds.occupied
  cells j bound := by
    rw [List.length_set] at bound ⊢
    rw [holds.tail_eq, getElem?_set_place holds.inside holds.room bound, holds.cells j bound]
    by_cases last : j = items.length
    · have stays : ¬ (j = 0 ∧ cleared = true) := by
        rintro ⟨rfl, set⟩
        exact holds.occupied set (List.eq_nil_of_length_eq_zero last.symm)
      rw [if_pos last, cell, if_neg stays, if_pos last]
    · rw [if_neg last, cell, cell, if_neg last, if_neg last]

/-- Move the tail over the slot that has been filled. -/
theorem publish {x : α} (holds : Holds slots head tail items cleared (some x))
    (free : items.length + 1 < slots.length) :
    Holds slots head (next slots.length tail) (items ++ [x]) cleared none where
  inside := holds.inside
  tail_eq := by
    rw [holds.tail_eq, next_place holds.inside holds.room, List.length_append, List.length_singleton]
  room := by rwa [List.length_append, List.length_singleton]
  occupied _ := List.append_ne_nil_of_right_ne_nil items (List.cons_ne_nil x [])
  cells j bound := by
    rw [holds.cells j bound]
    unfold cell
    rw [List.length_append, List.length_singleton]
    congr 1
    split
    · rfl
    · rcases Nat.lt_trichotomy j items.length with before | rfl | after
      · rw [if_neg (by omega), if_neg (by omega), List.getElem?_append_left before]
      · rw [if_pos rfl, if_neg (by omega), List.getElem?_concat_length]
      · rw [if_neg (by omega), List.getElem?_eq_none (by omega)]
        split
        · rfl
        · rw [List.getElem?_eq_none (by rw [List.length_append, List.length_singleton]; omega)]

/-- Empty the slot at the head. -/
theorem clear (holds : Holds slots head tail items false early) (nonempty : items ≠ []) :
    Holds (slots.set head none) head tail items true early where
  inside := by rw [List.length_set]; exact holds.inside
  tail_eq := by rw [List.length_set]; exact holds.tail_eq
  room := by rw [List.length_set]; exact holds.room
  occupied _ := nonempty
  cells j bound := by
    rw [List.length_set] at bound ⊢
    have step := getElem?_set_place holds.inside (Nat.zero_lt_of_lt holds.inside) bound none
    rw [place_zero holds.inside] at step
    rw [step, holds.cells j bound]
    by_cases first : j = 0
    · rw [if_pos first, cell, if_pos ⟨first, rfl⟩]
    · simp only [cell, first, false_and, ↓reduceIte]

/-- Move the head over the slot that has been emptied. -/
theorem advance {x : α} {rest : List α} (holds : Holds slots head tail (x :: rest) true early) :
    Holds slots (next slots.length head) tail rest false early where
  inside := by
    have inside := holds.inside
    unfold next
    split <;> omega
  tail_eq := by
    rw [holds.tail_eq, place_next (Nat.lt_trans (Nat.lt_succ_self _) holds.room), List.length_cons]
  room := Nat.lt_trans (Nat.lt_succ_self _) holds.room
  occupied impossible := nomatch impossible
  cells j bound := by
    have room := holds.room
    rw [List.length_cons] at room
    rw [place_next bound]
    rcases Nat.lt_or_eq_of_le (Nat.succ_le_of_lt bound) with inner | around
    · rw [holds.cells (j + 1) inner]
      simp only [cell, Nat.add_eq_zero_iff, Nat.one_ne_zero, and_false, false_and, Bool.false_eq_true, ↓reduceIte,
        List.length_cons, Nat.add_right_cancel_iff, List.getElem?_cons_succ]
    · -- The slot that the head has left is now the last one of the ring.
      have left := holds.cells 0 (Nat.zero_lt_of_lt holds.inside)
      rw [place_zero holds.inside] at left
      have wrapped : place slots.length head (j + 1) = head := by
        have inside := holds.inside
        unfold place
        split <;> omega
      rw [wrapped, left]
      unfold cell
      rw [if_pos ⟨rfl, rfl⟩, if_neg (by simp), if_neg (by omega), List.getElem?_eq_none (by omega)]

/-- At rest exactly the slots between the ends are occupied. -/
theorem slot_ne_none_iff (holds : Holds slots head tail items false none) {i : ℕ} (bound : i < slots.length) :
    slots[i]? ≠ some none ↔ Between head tail i := by
  obtain ⟨j, boundJ, rfl⟩ := exists_place holds.inside bound
  rw [holds.tail_eq, between_place_iff holds.room boundJ, holds.cells j boundJ, cell, if_neg (by simp)]
  split
  next last => simp [last]
  next other =>
    rw [ne_eq, Option.some.injEq, List.getElem?_eq_none_iff]
    omega

end Holds

end ProcessMonitor.Machine.Ring
