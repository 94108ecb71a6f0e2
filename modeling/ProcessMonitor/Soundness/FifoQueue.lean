import ProcessMonitor.Machine.Core.Ring
import ProcessMonitor.Model.Vts.Fifo

/-! # Used by one thread, the ring FIFO is a bounded queue that drops the oldest

The abstract queue is a list with room for one message less than the ring has slots. The ring
represents it at rest, with no slot filled or cleared ahead of its end, and each call keeps it so; in
particular no call of a history reads or writes outside the buffer.
-/

namespace ProcessMonitor.Soundness.FifoQueue

open Machine Machine.Posix Model.Vts

/-- A list of messages with the history of the calls made on it. -/
structure DropOldest where
  items : List Message
  allocations : ℕ
  results : List FifoResult
  dropped : List Message
deriving DecidableEq, Repr

namespace DropOldest

def start : DropOldest := ⟨[], 0, [], []⟩

/-- A push onto a full list first drops its first message. -/
def call (bound : ℕ) (L : DropOldest) : FifoCall → DropOldest
  | .push msg =>
    if L.items.length = bound then
      ⟨L.items.tail ++ [⟨L.allocations, msg.getD []⟩], L.allocations + 1, L.results ++ [.pushed 0],
        L.dropped ++ L.items.head?.toList⟩
    else
      ⟨L.items ++ [⟨L.allocations, msg.getD []⟩], L.allocations + 1, L.results ++ [.pushed 1], L.dropped⟩
  | .pop => { L with items := L.items.tail, results := L.results ++ [.popped L.items.head?] }
  | .depth => { L with results := L.results ++ [.depth L.items.length] }

/-- Messages are numbered in the order they are pushed. -/
def Numbered (L : DropOldest) : Prop :=
  (L.items.map Message.number).Pairwise (· < ·) ∧ ∀ message ∈ L.items, message.number < L.allocations

theorem Numbered.concat {L : DropOldest} (numbered : L.Numbered) {kept : List Message} (fewer : kept.Sublist L.items)
    (text : Bytes) (results : List FifoResult) (dropped : List Message) :
    Numbered ⟨kept ++ [⟨L.allocations, text⟩], L.allocations + 1, results, dropped⟩ := by
  constructor
  · rw [List.map_append, List.pairwise_append]
    refine ⟨numbered.1.sublist (fewer.map _), List.pairwise_singleton _ _, ?_⟩
    intro number member last final
    obtain ⟨message, inside, rfl⟩ := List.mem_map.mp member
    rw [List.mem_singleton.mp final]
    exact numbered.2 message (fewer.subset inside)
  · intro message member
    rcases List.mem_append.mp member with inside | new
    · exact Nat.lt_succ_of_lt (numbered.2 message (fewer.subset inside))
    · rw [List.mem_singleton.mp new]
      exact Nat.lt_succ_self _

theorem Numbered.call {L : DropOldest} (numbered : L.Numbered) (bound : ℕ) (c : FifoCall) :
    (L.call bound c).Numbered := by
  cases c with
  | push msg =>
    rw [DropOldest.call]
    split
    · exact numbered.concat (List.tail_sublist _) _ _ _
    · exact numbered.concat (List.Sublist.refl _) _ _ _
  | pop =>
    constructor
    · exact numbered.1.sublist ((List.tail_sublist _).map _)
    · intro message member
      exact numbered.2 message (List.mem_of_mem_tail member)
  | depth => exact numbered

end DropOldest

/-- The ring at rest. -/
structure Represents (q : Fifo) (slots : List (Option Message)) (items : List Message) : Prop where
  buf : q.buf = some slots
  size : slots.length = q.cap
  ring : Ring.Holds slots q.head q.tail items false none

namespace Represents

variable {q : Fifo} {slots : List (Option Message)} {items : List Message}

theorem depth_eq (represents : Represents q slots items) : q.vtsFifoDepth = items.length := by
  rw [Fifo.vtsFifoDepth, ← represents.size]
  exact represents.ring.length_eq

/-- Taking the oldest message out leaves the rest. -/
theorem takeHead {oldest : Message} {rest : List Message} (represents : Represents q slots (oldest :: rest)) :
    ∃ next slots, q.takeHead q.head = some (next, some oldest) ∧ Represents next slots rest ∧
      next.cap = q.cap ∧ next.tail = q.tail ∧ next.m = q.m := by
  have cleared := represents.ring.clear (List.cons_ne_nil oldest rest)
  have moved := cleared.advance
  rw [List.length_set, represents.size] at moved
  refine ⟨{ q with buf := some (slots.set q.head none), head := nextIdx q.head q.cap }, slots.set q.head none,
    ?_, ⟨rfl, List.length_set.trans represents.size, moved⟩, rfl, rfl, rfl⟩
  rw [Fifo.takeHead, Fifo.slot_eq represents.buf, represents.ring.head_cell,
    Fifo.setSlot_eq represents.buf represents.ring.inside]
  rfl

/-- A message put where there is room joins the end. -/
theorem putAt (represents : Represents q slots items) (free : items.length + 1 < q.cap) (message : Message) :
    ∃ next slots, q.putAt q.tail (nextIdx q.tail q.cap) message = some next ∧
      Represents next slots (items ++ [message]) ∧ next.cap = q.cap := by
  have written := represents.ring.write message
  have moved := written.publish (by rwa [List.length_set, represents.size])
  rw [List.length_set, represents.size] at moved
  refine ⟨{ q with buf := some (slots.set q.tail (some message)), tail := nextIdx q.tail q.cap },
    slots.set q.tail (some message), ?_, ⟨rfl, List.length_set.trans represents.size, moved⟩, rfl⟩
  rw [Fifo.putAt, Fifo.setSlot_eq represents.buf represents.ring.tail_lt]
  rfl

/-- The metrics are no part of the queue. -/
theorem metrics (represents : Represents q slots items) (m : FifoMetrics) :
    Represents { q with m }.metricsUpdateDepth slots items ∧ { q with m }.metricsUpdateDepth.cap = q.cap := by
  rw [Fifo.metricsUpdateDepth_eq]
  exact ⟨⟨represents.buf, represents.size, represents.ring⟩, rfl⟩

theorem full_iff (represents : Represents q slots items) :
    nextIdx q.tail q.cap = q.head ↔ items.length = q.cap - 1 := by
  have full := represents.ring.full_iff
  have room := represents.ring.room
  rw [represents.size] at full room
  exact full.trans (by omega)

theorem push_full {oldest : Message} {rest : List Message} (represents : Represents q slots (oldest :: rest))
    (full : (oldest :: rest).length = q.cap - 1) (msg : Option Bytes) (number : ℕ) :
    ∃ next slots, q.vtsFifoPushSpsc msg number = some (next, 0, some oldest) ∧
      Represents next slots (rest ++ [⟨number, msg.getD []⟩]) ∧ next.cap = q.cap := by
  obtain ⟨taken, left, took, kept, cap, tail, _⟩ := represents.takeHead
  have room := represents.ring.room
  rw [represents.size, List.length_cons] at room
  have free : rest.length + 1 < taken.cap := by rw [cap]; omega
  obtain ⟨next, filled, put, stored, size⟩ := kept.putAt free ⟨number, msg.getD []⟩
  obtain ⟨final, same⟩ := stored.metrics q.m
  refine ⟨_, filled, ?_, final, same.trans (size.trans cap)⟩
  rw [tail, cap] at put
  simp only [Fifo.vtsFifoPushSpsc, represents.full_iff.mpr full, ↓reduceIte, took, bind, Option.bind_some]
  rw [← represents.full_iff.mpr full, put]
  rfl

theorem push_free (represents : Represents q slots items) (free : items.length ≠ q.cap - 1) (msg : Option Bytes)
    (number : ℕ) :
    ∃ next slots, q.vtsFifoPushSpsc msg number = some (next, 1, none) ∧
      Represents next slots (items ++ [⟨number, msg.getD []⟩]) ∧ next.cap = q.cap := by
  have room := represents.ring.room
  rw [represents.size] at room
  obtain ⟨next, filled, put, stored, size⟩ := represents.putAt (by omega) ⟨number, msg.getD []⟩
  obtain ⟨final, same⟩ := stored.metrics q.m
  refine ⟨_, filled, ?_, final, same.trans size⟩
  simp only [Fifo.vtsFifoPushSpsc, mt represents.full_iff.mp free, ↓reduceIte, put, bind, Option.bind_some]

theorem pop (represents : Represents q slots items) :
    ∃ next slots, q.vtsFifoPopSpsc = some (next, items.head?) ∧ Represents next slots items.tail ∧
      next.cap = q.cap := by
  cases items with
  | nil =>
    refine ⟨q, slots, ?_, represents, rfl⟩
    rw [Fifo.vtsFifoPopSpsc, if_pos (represents.ring.empty_iff.mpr rfl)]
    rfl
  | cons oldest rest =>
    obtain ⟨next, left, took, kept, cap, _, _⟩ := represents.takeHead
    refine ⟨next, left, ?_, kept, cap⟩
    rw [Fifo.vtsFifoPopSpsc, if_neg fun same => nomatch represents.ring.empty_iff.mp same]
    exact took

end Represents

/-- Freeing goes through the items in order and ends at the tail. -/
theorem freeSlots_eq {items : List Message} {slots : List (Option Message)} {head tail fuel : ℕ}
    (ring : Ring.Holds slots head tail items false none) (enough : items.length ≤ fuel) :
    Fifo.freeSlots slots.length tail fuel head slots = some items := by
  induction items generalizing slots head fuel with
  | nil =>
    have ended := ring.empty_iff.mpr rfl
    cases fuel with
    | zero => rw [Fifo.freeSlots, if_pos ended]
    | succ fuel => rw [Fifo.freeSlots, if_pos ended]
  | cons oldest rest ih =>
    obtain ⟨fuel, rfl⟩ : ∃ less, fuel = less + 1 := ⟨fuel - 1, by rw [List.length_cons] at enough; omega⟩
    have moved := (ring.clear (List.cons_ne_nil oldest rest)).advance
    have later := ih moved (Nat.le_of_succ_le_succ enough)
    rw [List.length_set] at later
    rw [Fifo.freeSlots, if_neg fun same => (nomatch ring.empty_iff.mp same), ring.head_cell,
      show nextIdx head slots.length = Ring.next slots.length head from rfl, later]
    rfl

/-- The FIFO and the list after the same calls. -/
structure Refines (cap : ℕ) (s : FifoHistory) (L : DropOldest) : Prop where
  represents : ∃ slots, Represents s.fifo slots L.items
  size : s.fifo.cap = cap
  numbered : L.Numbered
  allocations : s.allocations = L.allocations
  results : s.results = L.results
  freed : s.freed = L.dropped

theorem refines_start {cap : ℕ} (large : 2 ≤ cap) : Refines cap (.start cap) .start where
  represents := ⟨List.replicate cap none, rfl, List.length_replicate, Ring.Holds.start (by omega)⟩
  size := rfl
  numbered := ⟨List.Pairwise.nil, fun _ member => nomatch member⟩
  allocations := rfl
  results := rfl
  freed := rfl

/-- Each call does to the ring what it does to the list. -/
theorem refines_call {cap : ℕ} (large : 2 ≤ cap) (s : FifoHistory) (L : DropOldest) (c : FifoCall)
    (refines : Refines cap s L) :
    ∃ next, FifoHistory.machine.step s c = some next ∧ Refines cap next (L.call (cap - 1) c) := by
  obtain ⟨⟨slots, represents⟩, size, numbered, allocations, results, freed⟩ := refines
  have later := numbered.call (cap - 1) c
  cases c with
  | push msg =>
    rw [DropOldest.call] at later ⊢
    by_cases full : L.items.length = cap - 1
    · obtain ⟨oldest, rest, split⟩ : ∃ oldest rest, L.items = oldest :: rest :=
        List.exists_cons_of_length_pos (by omega)
      rw [if_pos full] at later ⊢
      rw [split] at represents full later
      obtain ⟨fifo, filled, pushed, stored, same⟩ :=
        represents.push_full (size ▸ full) msg s.allocations
      refine ⟨⟨fifo, s.allocations + 1, s.results ++ [.pushed 0], s.freed ++ [oldest]⟩, ?_, ?_⟩
      · simp only [FifoHistory.machine, FifoHistory.call, pushed, bind, Option.bind_some, Option.toList_some]
      · rw [split]
        exact ⟨⟨filled, allocations ▸ stored⟩, same.trans size, later, by rw [allocations], by rw [results],
          by rw [freed]; rfl⟩
    · rw [if_neg full] at later ⊢
      obtain ⟨fifo, filled, pushed, stored, same⟩ := represents.push_free (size ▸ full) msg s.allocations
      refine ⟨⟨fifo, s.allocations + 1, s.results ++ [.pushed 1], s.freed⟩, ?_, ?_⟩
      · simp only [FifoHistory.machine, FifoHistory.call, pushed, bind, Option.bind_some, Option.toList_none,
          List.append_nil]
      · exact ⟨⟨filled, allocations ▸ stored⟩, same.trans size, later, by rw [allocations], by rw [results], freed⟩
  | pop =>
    obtain ⟨fifo, left, popped, kept, same⟩ := represents.pop
    refine ⟨{ s with fifo, results := s.results ++ [.popped L.items.head?] }, ?_, ?_⟩
    · simp only [FifoHistory.machine, FifoHistory.call, popped, bind, Option.bind_some]
    · exact ⟨⟨left, kept⟩, same.trans size, later, allocations, by rw [results]; rfl, freed⟩
  | depth =>
    refine ⟨_, rfl, ⟨slots, represents⟩, size, later, allocations, ?_, freed⟩
    rw [results, represents.depth_eq]
    rfl

/-- What holds of the FIFO after some calls, compared with the list after the same calls. -/
structure BoundedQueue (cap : ℕ) (s : FifoHistory) (L : DropOldest) : Prop where
  results : s.results = L.results
  freed : s.freed = L.dropped
  bound : L.items.length ≤ cap - 1
  head : s.fifo.head < cap
  tail : s.fifo.tail < cap
  slots : ∀ i, i < cap → ((∃ message, s.fifo.slot i = some (some message)) ↔
    Ring.Between s.fifo.head s.fifo.tail i)
  free : ∃ q, s.fifo.vtsFifoFree = some (q, L.items) ∧ q.buf = none
  distinct : (L.items.map Message.number).Nodup

/-- After any calls on a FIFO of at least two slots, the results are those of the list that holds one
message less, and freeing the FIFO frees exactly the messages of the list. -/
theorem fifo_boundedQueue {cap : ℕ} (large : 2 ≤ cap) (calls : List FifoCall) :
    ∃ s, FifoHistory.machine.run (.start cap) calls = some s ∧
      BoundedQueue cap s (calls.foldl (DropOldest.call (cap - 1)) .start) := by
  obtain ⟨s, reached, refines⟩ :=
    EventMachine.run_refines (Refines cap) (DropOldest.call (cap - 1)) (refines_call large) (refines_start large) calls
  obtain ⟨slots, represents⟩ := refines.represents
  have room := represents.ring.room
  have size := represents.size.trans refines.size
  refine ⟨s, reached, refines.results, refines.freed, by omega, ?_, ?_, ?_, ?_, ?_⟩
  · exact size ▸ represents.ring.inside
  · exact size ▸ represents.ring.tail_lt
  · intro i bound
    rw [Fifo.slot_eq represents.buf, ← represents.ring.slot_ne_none_iff (size ▸ bound),
      List.getElem?_eq_getElem (size ▸ bound)]
    cases slots[i] <;> simp
  · have freed := freeSlots_eq represents.ring (Nat.le_of_lt (represents.size ▸ room))
    rw [represents.size] at freed
    refine ⟨{ s.fifo with buf := none }, ?_, rfl⟩
    rw [Fifo.vtsFifoFree, represents.buf]
    dsimp only
    rw [freed]
    rfl
  · exact refines.numbered.1.imp Nat.ne_of_lt

theorem fifo_boundedQueue_wraps : 2 ≤ 3 ∧ ∃ s,
    FifoHistory.machine.run (.start 3) [.push none, .push none, .push none, .pop, .depth] = some s ∧
      BoundedQueue 3 s ([.push none, .push none, .push none, .pop, .depth].foldl (DropOldest.call 2) .start) :=
  ⟨by decide, fifo_boundedQueue (by decide) _⟩

end ProcessMonitor.Soundness.FifoQueue
