import ProcessMonitor.Model.Vts.Fifo

/-! # Which slots the ring FIFO touches

A ring of at least one slot keeps both ends among its slots, because `next_idx` wraps at the capacity, so
every access is inside the buffer. An empty ring has no such invariant: both ends start at the capacity,
`next_idx` steps past it, and the first push writes a slot that does not exist. Pops and depth queries on
it stay harmless, since its ends stay equal.
-/

namespace ProcessMonitor.Soundness.FifoIndices

open Machine Model.Vts

/-- The slots a call reads or writes, in order. -/
def accesses (q : Fifo) : FifoCall → List ℕ
  -- A full ring reads and clears the slot at `head` first.
  | .push _ => (if nextIdx q.tail q.cap = q.head then [q.head, q.head] else []) ++ [q.tail]
  | .pop => if q.head = q.tail then [] else [q.head, q.head]
  | .depth => []

def InBounds (s : FifoHistory) (c : FifoCall) : Prop := ∀ i ∈ accesses s.fifo c, i < s.fifo.cap

instance (s : FifoHistory) (c : FifoCall) : Decidable (InBounds s c) :=
  inferInstanceAs (Decidable (∀ i ∈ accesses s.fifo c, i < s.fifo.cap))

theorem nextIdx_lt {i cap : ℕ} (inside : i < cap) : nextIdx i cap < cap := by
  unfold nextIdx
  split <;> omega

/-- The buffer has as many slots as the capacity says. -/
def Sized (q : Fifo) : Prop := ∃ slots, q.buf = some slots ∧ slots.length = q.cap

/-- Taking the message at `head` out needs its slot, and moves the end past it. -/
theorem takeHead_eq_some {q next : Fifo} {old : Option Message} {head : ℕ} (sized : Sized q)
    (took : q.takeHead head = some (next, old)) :
    head < q.cap ∧ Sized next ∧ next.cap = q.cap ∧ next.tail = q.tail ∧ next.head = nextIdx head q.cap := by
  obtain ⟨slots, buf, size⟩ := sized
  obtain ⟨cell, read, took⟩ := Option.bind_eq_some_iff.mp took
  rw [Fifo.slot_eq buf] at read
  obtain ⟨inside, -⟩ := List.getElem?_eq_some_iff.mp read
  rw [Fifo.setSlot_eq buf inside] at took
  cases took
  exact ⟨size ▸ inside, ⟨_, rfl, List.length_set.trans size⟩, rfl, rfl, rfl⟩

theorem exists_takeHead {q : Fifo} {head : ℕ} (sized : Sized q) (inside : head < q.cap) :
    ∃ next old, q.takeHead head = some (next, old) := by
  obtain ⟨slots, buf, size⟩ := sized
  rw [← size] at inside
  rw [Fifo.takeHead, Fifo.slot_eq buf, List.getElem?_eq_getElem inside, Fifo.setSlot_eq buf inside]
  exact ⟨_, _, rfl⟩

/-- Storing a message needs the slot at `tail`. -/
theorem putAt_eq_some {q next : Fifo} {tail nxt : ℕ} {dup : Message} (sized : Sized q)
    (put : q.putAt tail nxt dup = some next) :
    tail < q.cap ∧ Sized next ∧ next.cap = q.cap ∧ next.head = q.head ∧ next.tail = nxt := by
  obtain ⟨slots, buf, size⟩ := sized
  rw [Fifo.putAt, Fifo.setSlot, buf, Option.bind_some] at put
  obtain ⟨written, wrote, put⟩ := Option.bind_eq_some_iff.mp put
  obtain ⟨inside, same⟩ := Option.ite_none_right_eq_some.mp wrote
  cases same
  cases put
  exact ⟨size ▸ inside, ⟨_, rfl, List.length_set.trans size⟩, rfl, rfl, rfl⟩

theorem exists_putAt {q : Fifo} {tail : ℕ} (sized : Sized q) (inside : tail < q.cap) (nxt : ℕ) (dup : Message) :
    ∃ next, q.putAt tail nxt dup = some next := by
  obtain ⟨slots, buf, size⟩ := sized
  rw [Fifo.putAt, Fifo.setSlot_eq buf (size ▸ inside)]
  exact ⟨_, rfl⟩

/-- Where a call leaves the ends, and that what it touched was inside. -/
structure Moves (s : FifoHistory) (c : FifoCall) (next : FifoHistory) : Prop where
  touched : InBounds s c
  sized : Sized next.fifo
  cap : next.fifo.cap = s.fifo.cap
  head : next.fifo.head = s.fifo.head ∨ next.fifo.head = nextIdx s.fifo.head s.fifo.cap
  tail : next.fifo.tail = s.fifo.tail ∨ next.fifo.tail = nextIdx s.fifo.tail s.fifo.cap

theorem moves_of_call {s next : FifoHistory} {c : FifoCall} (sized : Sized s.fifo) (called : s.call c = some next) :
    Moves s c next := by
  cases c with
  | push msg =>
    obtain ⟨⟨fifo, ret, old⟩, pushed, same⟩ := Option.bind_eq_some_iff.mp called
    cases same
    obtain ⟨rest, stored, room, put, rfl⟩ := Fifo.push_eq_some pushed
    rcases room with ⟨full, took, -⟩ | ⟨free, rfl, -⟩
    · obtain ⟨head, left, sameCap, -, moved⟩ := takeHead_eq_some sized took
      obtain ⟨tail, filled, cap, kept, ended⟩ := putAt_eq_some left put
      rw [sameCap] at tail cap
      exact ⟨by simp [InBounds, accesses, full, head, tail], filled, cap, .inr (kept.trans moved), .inr ended⟩
    · obtain ⟨tail, filled, cap, kept, ended⟩ := putAt_eq_some sized put
      exact ⟨by simp [InBounds, accesses, free, tail], filled, cap, .inl kept, .inr ended⟩
  | pop =>
    obtain ⟨⟨fifo, out⟩, popped, same⟩ := Option.bind_eq_some_iff.mp called
    cases same
    rw [Fifo.vtsFifoPopSpsc] at popped
    split at popped
    · next empty =>
      cases popped
      exact ⟨by simp [InBounds, accesses, empty], sized, rfl, .inl rfl, .inl rfl⟩
    · next filled =>
      obtain ⟨head, left, cap, tail, moved⟩ := takeHead_eq_some sized popped
      exact ⟨by simp [InBounds, accesses, filled, head], left, cap, .inr moved, .inl tail⟩
  | depth =>
    cases called
    exact ⟨by simp [InBounds, accesses], sized, rfl, .inl rfl, .inl rfl⟩

/-- A call that stays inside the buffer is defined. -/
theorem exists_call {s : FifoHistory} {c : FifoCall} (sized : Sized s.fifo) (inside : InBounds s c) :
    ∃ next, s.call c = some next := by
  cases c with
  | push msg =>
    have tail : s.fifo.tail < s.fifo.cap := inside _ (List.mem_append_right _ List.mem_cons_self)
    rw [FifoHistory.call, Fifo.vtsFifoPushSpsc]
    split
    · next full =>
      have head : s.fifo.head < s.fifo.cap := inside _ (by simp [accesses, full])
      obtain ⟨rest, old, took⟩ := exists_takeHead sized head
      obtain ⟨-, left, cap, -⟩ := takeHead_eq_some sized took
      obtain ⟨stored, put⟩ := exists_putAt left (cap ▸ tail) (nextIdx s.fifo.tail s.fifo.cap)
        ⟨s.allocations, msg.getD []⟩
      simp only [took, bind, Option.bind_some, put]
      exact ⟨_, rfl⟩
    · obtain ⟨stored, put⟩ := exists_putAt sized tail (nextIdx s.fifo.tail s.fifo.cap) ⟨s.allocations, msg.getD []⟩
      simp only [bind, Option.bind_some, put]
      exact ⟨_, rfl⟩
  | pop =>
    rw [FifoHistory.call, Fifo.vtsFifoPopSpsc]
    split
    · exact ⟨_, rfl⟩
    · next filled =>
      have head : s.fifo.head < s.fifo.cap := inside _ (by simp [accesses, filled])
      obtain ⟨next, out, took⟩ := exists_takeHead sized head
      simp only [took, bind, Option.bind_some]
      exact ⟨_, rfl⟩
  | depth => exact ⟨_, rfl⟩

/-- A history is defined exactly when every call of it stays inside the buffer. -/
theorem run_isSome_iff {s : FifoHistory} (sized : Sized s.fifo) (calls : List FifoCall) :
    (FifoHistory.machine.run s calls).isSome ↔ FifoHistory.machine.Along InBounds s calls := by
  induction calls generalizing s with
  | nil => exact ⟨fun _ => trivial, fun _ => rfl⟩
  | cons c calls ih =>
    rw [EventMachine.run_cons, EventMachine.Along]
    constructor
    · intro defined
      obtain ⟨last, ran⟩ := Option.isSome_iff_exists.mp defined
      obtain ⟨next, stepped, rest⟩ := Option.bind_eq_some_iff.mp ran
      have moves := moves_of_call sized stepped
      refine ⟨moves.touched, fun other again => ?_⟩
      obtain rfl := Option.some.inj (stepped.symm.trans again)
      exact (ih moves.sized).mp (rest ▸ rfl)
    · rintro ⟨inside, later⟩
      obtain ⟨next, stepped⟩ := exists_call sized inside
      rw [show FifoHistory.machine.step s c = some next from stepped, Option.bind_some]
      exact (ih (moves_of_call sized stepped).sized).mpr (later next stepped)

/-- Both ends are slots. -/
structure Inside (q : Fifo) : Prop where
  sized : Sized q
  head : q.head < q.cap
  tail : q.tail < q.cap

theorem Inside.touched {s : FifoHistory} (inside : Inside s.fifo) (c : FifoCall) : InBounds s c := by
  intro i member
  cases c with
  | push msg =>
    rcases List.mem_append.mp member with taken | put
    · split at taken
      · rcases List.mem_cons.mp taken with rfl | again
        · exact inside.head
        · rw [List.mem_singleton.mp again]
          exact inside.head
      · exact absurd taken List.not_mem_nil
    · rw [List.mem_singleton.mp put]
      exact inside.tail
  | pop =>
    rw [accesses] at member
    split at member
    · exact absurd member List.not_mem_nil
    · rcases List.mem_cons.mp member with rfl | again
      · exact inside.head
      · rw [List.mem_singleton.mp again]
        exact inside.head
  | depth => exact absurd member List.not_mem_nil

theorem Inside.step {s next : FifoHistory} {c : FifoCall} (inside : Inside s.fifo) (moves : Moves s c next) :
    Inside next.fifo := by
  refine ⟨moves.sized, ?_, ?_⟩
  · rcases moves.head with same | moved
    · rw [same, moves.cap]
      exact inside.head
    · rw [moved, moves.cap]
      exact nextIdx_lt inside.head
  · rcases moves.tail with same | moved
    · rw [same, moves.cap]
      exact inside.tail
    · rw [moved, moves.cap]
      exact nextIdx_lt inside.tail

theorem Inside.along {s : FifoHistory} (inside : Inside s.fifo) (calls : List FifoCall) :
    FifoHistory.machine.Along InBounds s calls := by
  induction calls generalizing s with
  | nil => trivial
  | cons c calls ih =>
    exact ⟨inside.touched c, fun next stepped => ih (inside.step (moves_of_call inside.sized stepped))⟩

/-- On an empty ring only a push touches a slot or moves an end. -/
private theorem exists_idle_call {s : FifoHistory} {c : FifoCall} (empty : s.fifo.head = s.fifo.tail)
    (idle : c.isPush = false) :
    InBounds s c ∧ ∃ next, FifoHistory.machine.step s c = some next ∧ next.fifo = s.fifo := by
  cases c with
  | push msg => cases idle
  | pop =>
    refine ⟨by simp [InBounds, accesses, empty], { s with results := s.results ++ [.popped none] }, ?_, rfl⟩
    simp only [FifoHistory.machine, FifoHistory.call, Fifo.vtsFifoPopSpsc, empty, ↓reduceIte, bind, Option.bind_some]
  | depth => exact ⟨by simp [InBounds, accesses], _, rfl, rfl⟩

/-- A ring without slots is used safely as long as nothing is pushed. -/
theorem along_iff_of_noSlots {s : FifoHistory} (noSlots : s.fifo.cap = 0) (empty : s.fifo.head = s.fifo.tail)
    (calls : List FifoCall) :
    FifoHistory.machine.Along InBounds s calls ↔ ∀ c ∈ calls, c.isPush = false := by
  induction calls generalizing s with
  | nil => exact ⟨fun _ _ member => absurd member List.not_mem_nil, fun _ => trivial⟩
  | cons c calls ih =>
    rw [EventMachine.Along, List.forall_mem_cons]
    cases pushes : c.isPush with
    | true =>
      have outside : ¬ InBounds s c := by
        intro inside
        cases c with
        | push msg =>
          have tail := inside s.fifo.tail (List.mem_append_right _ List.mem_cons_self)
          omega
        | pop => cases pushes
        | depth => cases pushes
      exact ⟨fun along => absurd along.1 outside, fun pushless => nomatch pushless.1⟩
    | false =>
      obtain ⟨inside, next, stepped, same⟩ := exists_idle_call empty pushes
      have later := ih (same ▸ noSlots) (same ▸ empty)
      simp only [stepped, Option.some.injEq, forall_eq', later, inside, true_and]

/-- After an initialisation that succeeds, every access of every history is inside the buffer exactly
when the ring has a slot or nothing is pushed. -/
theorem accesses_inBounds_iff {cap : ℕ} {allocated : Bool} (ready : (vtsFifoInit cap allocated).2 = 0)
    (calls : List FifoCall) :
    FifoHistory.machine.Along InBounds ⟨(vtsFifoInit cap allocated).1, 0, [], []⟩ calls ↔
      0 < cap ∨ ∀ c ∈ calls, c.isPush = false := by
  cases allocated with
  | false => cases ready
  | true =>
    rcases Nat.eq_zero_or_pos cap with rfl | slots
    · rw [along_iff_of_noSlots rfl rfl]
      exact (or_iff_right (Nat.lt_irrefl 0)).symm
    · have inside : Inside (vtsFifoInit cap true).1 := ⟨⟨_, rfl, List.length_replicate⟩, slots, slots⟩
      exact ⟨fun _ => .inl slots, fun _ => inside.along calls⟩

theorem accesses_inBounds_one : (vtsFifoInit 1 true).2 = 0 ∧
    (FifoHistory.machine.Along InBounds ⟨(vtsFifoInit 1 true).1, 0, [], []⟩ [.push none, .push none, .pop] ↔
      0 < 1 ∨ ∀ c ∈ [FifoCall.push none, .push none, .pop], c.isPush = false) :=
  ⟨rfl, accesses_inBounds_iff rfl _⟩

theorem push_without_slots_outOfBounds : (vtsFifoInit 0 true).2 = 0 ∧
    ¬ FifoHistory.machine.Along InBounds ⟨(vtsFifoInit 0 true).1, 0, [], []⟩ [.push none] := by
  decide

end ProcessMonitor.Soundness.FifoIndices
