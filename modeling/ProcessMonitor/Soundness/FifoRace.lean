import ProcessMonitor.Machine.Core.Ring
import ProcessMonitor.Model.Vts.FifoInterleaving
import Mathlib.Data.List.Perm.Basic
import Mathlib.Data.List.Nodup

/-! # A producer and a consumer on the ring FIFO

A push into a full FIFO removes the oldest message itself: it frees the slot at `head` and stores
`head`, as a pop does. As long as no such push is under way while a pop is between its load and its
store of `head`, every message goes exactly one way: returned by one pop, freed by one push, or still
between `head` and `tail`. When the two meet, both take the same message.
-/

namespace ProcessMonitor.Soundness.FifoRace

open Machine Machine.Posix Model.Vts

/-- A push that has found the FIFO full and not yet stored `head`. -/
def dropping (cap : ℕ) : Producer → Bool
  | .loadMetrics _ tail head => decide (nextIdx tail cap = head)
  | .readOld .. | .freeOld .. | .clearOld .. | .storeHead .. => true
  | _ => false

/-- A pop that has loaded `head` and not yet stored it. -/
def popping : Consumer → Bool
  | .loadTail _ | .readSlot _ | .clearSlot .. | .storeHead .. => true
  | _ => false

/-- No push starts to drop while a pop is at `head`, and no pop starts while a push is dropping. -/
def Apart (s : SharedFifo) : SharedFifo.Event → Prop
  | .producer =>
    match s.producer with
    | .loadHead _ tail => nextIdx tail s.fifo.cap = s.fifo.head → popping s.consumer = false
    | _ => True
  | .pop => dropping s.fifo.cap s.producer = false
  | _ => True

instance (s : SharedFifo) (e : SharedFifo.Event) : Decidable (Apart s e) := by
  unfold Apart
  split
  · split <;> infer_instance
  all_goals infer_instance

/-- The message a pop has read and not yet returned. -/
def held : Consumer → List Message
  | .clearSlot _ out | .storeHead _ out | .loadMetrics out | .storeMetrics out _ => out.toList
  | _ => []

/-- What the pops got: the messages they returned, and the one that a pop is about to return. -/
def taken (s : SharedFifo) : List Message := s.returned ++ held s.consumer

def gone (s : SharedFifo) : List ℕ := (taken s ++ s.freed).map Message.number

/-- Where the messages are. A message is known by its number in the order of the pushes; one that is
gone was taken by one pop or freed by one push. -/
structure EachOnce (s : SharedFifo) : Prop where
  once : (gone s).Nodup
  kept : ∀ n < s.pushed, n ∉ gone s →
    ∃ i message, Ring.Between s.fifo.head s.fifo.tail i ∧ s.fifo.slot i = some (some message) ∧ message.number = n
  inOrder : ((taken s).map Message.number).Pairwise (· < ·)
  ahead : ∀ i message, Ring.Between s.fifo.head s.fifo.tail i → s.fifo.slot i = some (some message) →
    message.number ∉ gone s → ∀ n ∈ gone s, n < message.number
  atRest : dropping s.fifo.cap s.producer = false → popping s.consumer = false →
    ∀ i < s.fifo.cap, Ring.Between s.fifo.head s.fifo.tail i →
      ∃ message, s.fifo.slot i = some (some message) ∧ message.number < s.pushed ∧ message.number ∉ gone s
  producerGoesOn : s.producer ≠ .idle → (s.step .producer).isSome
  consumerGoesOn : s.consumer ≠ .idle → (s.step .consumer).isSome

/-- The messages with the first `n` numbers, each on one of two ways, and the takers' in order. -/
structure Logged (taken freed : List Message) (n : ℕ) : Prop where
  all : ((taken ++ freed).map Message.number).Perm (List.range n)
  inOrder : (taken.map Message.number).Pairwise (· < ·)

namespace Logged

variable {taken freed : List Message} {n : ℕ} {x : Message}

theorem mem_iff (logged : Logged taken freed n) {k : ℕ} :
    k ∈ (taken ++ freed).map Message.number ↔ k < n :=
  logged.all.mem_iff.trans List.mem_range

theorem free (logged : Logged taken freed n) (next : x.number = n) : Logged taken (freed ++ [x]) (n + 1) where
  all := by
    rw [← List.append_assoc, List.map_append, List.range_succ]
    exact logged.all.append (by simp [next])
  inOrder := logged.inOrder

theorem take (logged : Logged taken freed n) (next : x.number = n) : Logged (taken ++ [x]) freed (n + 1) where
  all := by
    have swapped : (taken ++ [x] ++ freed).Perm (taken ++ freed ++ [x]) := by
      rw [List.append_assoc, List.append_assoc]
      exact List.Perm.append_left taken List.perm_append_comm
    have extended : ((taken ++ freed ++ [x]).map Message.number).Perm (List.range (n + 1)) := by
      rw [List.map_append, List.range_succ]
      exact logged.all.append (by simp [next])
    exact (swapped.map Message.number).trans extended
  inOrder := by
    rw [List.map_append, List.pairwise_append]
    refine ⟨logged.inOrder, List.pairwise_singleton _ _, ?_⟩
    intro k before l last
    rw [List.map_singleton, List.mem_singleton] at last
    have bound : k < n := logged.mem_iff.mp (by rw [List.map_append]; exact List.mem_append_left _ before)
    omega

end Logged

/-- A push that has emptied the slot at `head`, and one that has freed its message. -/
def droppedSlot : Producer → Bool
  | .storeHead .. => true
  | _ => false

def droppedMessage : Producer → ℕ
  | .clearOld .. | .storeHead .. => 1
  | _ => 0

/-- A pop that has emptied the slot at `head`, and one that has read its message. -/
def poppedSlot : Consumer → Bool
  | .storeHead .. => true
  | _ => false

def poppedMessage : Consumer → ℕ
  | .clearSlot .. | .storeHead .. => 1
  | _ => 0

def early : Producer → Option Message
  | .storeTail _ _ _ dup => some dup
  | _ => none

/-- The registers of a push, against the ring as it is now. A push that did not find the FIFO full has
room whatever the consumer does. -/
def PushFits (cap head tail pushed : ℕ) (items : List Message) : Producer → Prop
  | .loadHead _ t => t = tail
  | .loadMetrics _ t h =>
    t = tail ∧ if nextIdx t cap = h then h = head ∧ items.length + 1 = cap else items.length + 1 < cap
  | .readOld _ t h _ | .clearOld _ t h _ | .storeHead _ t h _ => t = tail ∧ h = head ∧ items.length + 1 = cap
  | .freeOld _ t h _ old => t = tail ∧ h = head ∧ items.length + 1 = cap ∧ old = items.head?
  | .writeSlot _ t _ _ => t = tail ∧ items.length + 1 < cap
  | .storeTail t _ _ dup => t = tail ∧ items.length + 1 < cap ∧ dup.number = pushed
  | _ => True

/-- The registers of a pop. -/
def PopFits (head : ℕ) (items : List Message) : Consumer → Prop
  | .loadTail h => h = head
  | .readSlot h => h = head ∧ items ≠ []
  | .clearSlot h out | .storeHead h out => h = head ∧ ∃ x rest, items = x :: rest ∧ out = some x
  | _ => True

/-- The invariant of separated runs: the FIFO stores `items`, numbered from `first` on, and everything
older is logged. -/
structure Stores (s : SharedFifo) (slots : List (Option Message)) (items : List Message) (first : ℕ) : Prop where
  buf : s.fifo.buf = some slots
  cap : s.fifo.cap = slots.length
  large : 2 ≤ slots.length
  ring : Ring.Holds slots s.fifo.head s.fifo.tail items (droppedSlot s.producer || poppedSlot s.consumer)
    (early s.producer)
  numbered : items.map Message.number = List.range' first items.length
  pushed : first + items.length = s.pushed
  logged : Logged (taken s) s.freed (first + (droppedMessage s.producer + poppedMessage s.consumer))
  push : PushFits s.fifo.cap s.fifo.head s.fifo.tail s.pushed items s.producer
  pop : PopFits s.fifo.head items s.consumer
  apart : dropping s.fifo.cap s.producer = false ∨ popping s.consumer = false

theorem of_popping_eq_false {consumer : Consumer} (away : popping consumer = false) :
    poppedSlot consumer = false ∧ poppedMessage consumer = 0 ∧ ∀ head items, PopFits head items consumer := by
  cases consumer with
  | idle | loadMetrics | storeMetrics => exact ⟨rfl, rfl, fun _ _ => trivial⟩
  | _ => cases away

theorem of_dropping_eq_false {cap : ℕ} {producer : Producer} (away : dropping cap producer = false) :
    droppedSlot producer = false ∧ droppedMessage producer = 0 := by
  cases producer with
  | readOld | freeOld | clearOld | storeHead => cases away
  | _ => exact ⟨rfl, rfl⟩

namespace Stores

variable {s next : SharedFifo} {slots : List (Option Message)} {items : List Message} {first : ℕ}

theorem start {cap : ℕ} (large : 2 ≤ cap) : Stores (.start cap) (List.replicate cap none) [] 0 where
  buf := rfl
  cap := List.length_replicate.symm
  large := by rwa [List.length_replicate]
  ring := Ring.Holds.start (by omega)
  numbered := rfl
  pushed := rfl
  logged := ⟨.nil, .nil⟩
  push := trivial
  pop := trivial
  apart := .inl rfl

/-- Writing a slot changes no size. -/
theorem cap_set (stores : Stores s slots items first) (i : ℕ) (v : Option Message) :
    s.fifo.cap = (slots.set i v).length := by
  rw [List.length_set]
  exact stores.cap

theorem large_set (stores : Stores s slots items first) (i : ℕ) (v : Option Message) :
    2 ≤ (slots.set i v).length := by
  rw [List.length_set]
  exact stores.large

theorem head_number {x : Message} {rest : List Message} (stores : Stores s slots (x :: rest) first) :
    x.number = first := by
  have numbered := stores.numbered
  rw [List.map_cons, List.length_cons, List.range'_succ] at numbered
  exact (List.cons.inj numbered).1

/-- What is stored without its first message. -/
theorem numbered_tail {x : Message} {rest : List Message} (stores : Stores s slots (x :: rest) first) :
    rest.map Message.number = List.range' (first + 1) rest.length := by
  have numbered := stores.numbered
  rw [List.map_cons, List.length_cons, List.range'_succ] at numbered
  exact (List.cons.inj numbered).2

theorem pushed_tail {x : Message} {rest : List Message} (stores : Stores s slots (x :: rest) first) :
    first + 1 + rest.length = s.pushed := by
  rw [← stores.pushed, List.length_cons]
  exact Nat.add_right_comm first 1 rest.length

/-- The slot at `head` is read before it is cleared. -/
theorem read_head {x : Message} {rest : List Message} {out : Option Message}
    (stores : Stores s slots (x :: rest) first)
    (present : (droppedSlot s.producer || poppedSlot s.consumer) = false)
    (read : s.fifo.slot s.fifo.head = some out) : out = some x := by
  have ring := stores.ring
  rw [present] at ring
  have cell := ring.head_cell
  rw [← Fifo.slot_eq stores.buf, read] at cell
  exact Option.some.inj cell

theorem exists_cons (stores : Stores s slots items first) (full : items.length + 1 = s.fifo.cap) :
    ∃ x rest, items = x :: rest := by
  have large := stores.large
  rw [stores.cap] at full
  exact List.exists_cons_of_length_pos (by omega)

/-- While a push drops, no pop is at `head`. -/
theorem popping_eq_false (stores : Stores s slots items first) (drops : dropping s.fifo.cap s.producer = true) :
    popping s.consumer = false :=
  stores.apart.resolve_left fun away => Bool.false_ne_true (away.symm.trans drops)

theorem dropping_eq_false (stores : Stores s slots items first) (pops : popping s.consumer = true) :
    dropping s.fifo.cap s.producer = false :=
  stores.apart.resolve_right fun away => Bool.false_ne_true (away.symm.trans pops)

section Producer

variable {fifo : Fifo} {consumer : Consumer} {pushed : ℕ} {freed returned : List Message} {rets : List ℤ}
  {msg : Option Bytes} {tail head : ℕ} {m : FifoMetrics}

theorem loadHead (stores : Stores ⟨fifo, .loadHead msg tail, consumer, pushed, freed, returned, rets⟩ slots items first)
    (separate : nextIdx tail fifo.cap = fifo.head → popping consumer = false) :
    Stores ⟨fifo, .loadMetrics msg tail fifo.head, consumer, pushed, freed, returned, rets⟩ slots items first := by
  have atTail : tail = fifo.tail := stores.push
  have full : nextIdx tail fifo.cap = fifo.head ↔ items.length + 1 = fifo.cap := by
    have exact_full := stores.ring.full_iff
    rw [← stores.cap, ← atTail] at exact_full
    exact exact_full
  refine { stores with push := ⟨atTail, ?_⟩, apart := ?_ }
  · have room := stores.ring.room
    rw [← stores.cap] at room
    split
    next drops => exact ⟨rfl, full.mp drops⟩
    next fits => exact Nat.lt_of_le_of_ne room fun same => fits (full.mpr same)
  · by_cases drops : nextIdx tail fifo.cap = fifo.head
    · exact .inr (separate drops)
    · exact .inl (decide_eq_false drops)

theorem loadMetrics
    (stores : Stores ⟨fifo, .loadMetrics msg tail head, consumer, pushed, freed, returned, rets⟩ slots items first) :
    Stores ⟨fifo, if nextIdx tail fifo.cap = head then .readOld msg tail head m else .writeSlot msg tail m false,
      consumer, pushed, freed, returned, rets⟩ slots items first := by
  obtain ⟨atTail, fits⟩ := stores.push
  split at fits
  next drops =>
    rw [if_pos drops]
    refine { stores with push := ⟨atTail, fits⟩, apart := .inr (stores.popping_eq_false (decide_eq_true drops)) }
  next room =>
    rw [if_neg room]
    exact { stores with push := ⟨atTail, fits⟩, apart := .inl rfl }

theorem readOld {old : Option Message}
    (stores : Stores ⟨fifo, .readOld msg tail head m, consumer, pushed, freed, returned, rets⟩ slots items first)
    (read : fifo.slot head = some old) :
    Stores ⟨fifo, .freeOld msg tail head m old, consumer, pushed, freed, returned, rets⟩ slots items first := by
  obtain ⟨atTail, atHead, full⟩ := stores.push
  have away := of_popping_eq_false (stores.popping_eq_false rfl)
  obtain ⟨x, rest, rfl⟩ := stores.exists_cons full
  rw [atHead] at read
  have oldest := stores.read_head (by simp only [droppedSlot, away.1, Bool.or_self]) read
  exact { stores with push := ⟨atTail, atHead, full, oldest⟩ }

theorem freeOld {old : Option Message}
    (stores : Stores ⟨fifo, .freeOld msg tail head m old, consumer, pushed, freed, returned, rets⟩ slots items first) :
    Stores ⟨fifo, .clearOld msg tail head m, consumer, pushed, freed ++ old.toList, returned, rets⟩ slots items
      first := by
  obtain ⟨atTail, atHead, full, rfl⟩ := stores.push
  have away := of_popping_eq_false (stores.popping_eq_false rfl)
  obtain ⟨x, rest, rfl⟩ := stores.exists_cons full
  have logged := stores.logged
  simp only [away.2.1, droppedMessage, Nat.add_zero] at logged
  refine { stores with push := ⟨atTail, atHead, full⟩, logged := ?_ }
  simp only [away.2.1, droppedMessage, Nat.add_zero]
  exact logged.free stores.head_number

theorem clearOld
    (stores : Stores ⟨fifo, .clearOld msg tail head m, consumer, pushed, freed, returned, rets⟩ slots items first) :
    Stores ⟨{ fifo with buf := some (slots.set head none) }, .storeHead msg tail head m, consumer, pushed, freed,
      returned, rets⟩ (slots.set head none) items first := by
  obtain ⟨atTail, atHead, full⟩ := stores.push
  have away := of_popping_eq_false (stores.popping_eq_false rfl)
  obtain ⟨x, rest, rfl⟩ := stores.exists_cons full
  have ring := stores.ring
  simp only [away.1, droppedSlot, Bool.or_self] at ring
  refine { stores with buf := rfl, cap := stores.cap_set _ _, large := stores.large_set _ _, ring := ?_,
                       push := ⟨atTail, atHead, full⟩ }
  rw [atHead]
  exact ring.clear (List.cons_ne_nil x rest)

theorem dropHead
    (stores : Stores ⟨fifo, .storeHead msg tail head m, consumer, pushed, freed, returned, rets⟩ slots items first) :
    Stores ⟨{ fifo with head := nextIdx head fifo.cap }, .writeSlot msg tail m true, consumer, pushed, freed,
      returned, rets⟩ slots items.tail (first + 1) := by
  obtain ⟨atTail, atHead, full⟩ := stores.push
  have away := of_popping_eq_false (stores.popping_eq_false rfl)
  obtain ⟨x, rest, rfl⟩ := stores.exists_cons full
  have logged := stores.logged
  have ring : Ring.Holds slots fifo.head fifo.tail (x :: rest) true none := stores.ring
  simp only [away.2.1, droppedMessage, Nat.add_zero] at logged
  refine { stores with ring := ?_, numbered := stores.numbered_tail, pushed := stores.pushed_tail, logged := ?_,
                       push := ⟨atTail, ?_⟩, pop := away.2.2 _ _, apart := .inl rfl }
  · rw [atHead, stores.cap]
    simp only [away.1, droppedSlot, Bool.or_self]
    exact ring.advance
  · simp only [away.2.1, droppedMessage, Nat.add_zero]
    exact logged
  · rw [← full, List.tail_cons, List.length_cons]
    exact Nat.lt_succ_self _

theorem writeSlot {dropped : Bool}
    (stores : Stores ⟨fifo, .writeSlot msg tail m dropped, consumer, pushed, freed, returned, rets⟩ slots items first)
    {dup : Message} (number : dup.number = pushed) :
    Stores ⟨{ fifo with buf := some (slots.set tail (some dup)) }, .storeTail tail m dropped dup, consumer, pushed,
      freed, returned, rets⟩ (slots.set tail (some dup)) items first := by
  obtain ⟨atTail, room⟩ := stores.push
  refine { stores with buf := rfl, cap := stores.cap_set _ _, large := stores.large_set _ _, ring := ?_,
                       push := ⟨atTail, room, number⟩ }
  rw [atTail]
  exact stores.ring.write dup

theorem storeTail {dropped : Bool} {dup : Message}
    (stores : Stores ⟨fifo, .storeTail tail m dropped dup, consumer, pushed, freed, returned, rets⟩ slots items first) :
    Stores ⟨{ fifo with tail := nextIdx tail fifo.cap }, .storeMetrics m dropped, consumer, pushed + 1, freed,
      returned, rets⟩ slots (items ++ [dup]) first := by
  obtain ⟨atTail, room, number⟩ := stores.push
  have count : first + items.length = pushed := stores.pushed
  refine { stores with ring := ?_, numbered := ?_, pushed := ?_, push := trivial, pop := ?_ }
  · rw [atTail, stores.cap]
    exact stores.ring.publish (by rw [← stores.cap]; exact room)
  · rw [List.map_append, stores.numbered, List.length_append, List.length_singleton, List.range'_concat,
      List.map_singleton, number, ← count, Nat.one_mul]
  · rw [← count, List.length_append, List.length_singleton, Nat.add_assoc]
  · have pop := stores.pop
    cases consumer with
    | readSlot => exact ⟨pop.1, List.append_ne_nil_of_left_ne_nil pop.2 _⟩
    | clearSlot | storeHead =>
      obtain ⟨atHead, x, rest, rfl, out⟩ := pop
      exact ⟨atHead, x, rest ++ [dup], rfl, out⟩
    | _ => exact pop

end Producer

theorem stepProducer (stores : Stores s slots items first) (separate : Apart s .producer)
    (step : s.stepProducer = some next) : ∃ slots items first, Stores next slots items first := by
  obtain ⟨fifo, producer, consumer, pushed, freed, returned, rets⟩ := s
  cases producer with
  | idle => cases step
  | loadHead msg tail =>
    cases step
    exact ⟨_, _, _, stores.loadHead separate⟩
  | loadMetrics msg tail head =>
    cases step
    exact ⟨_, _, _, stores.loadMetrics⟩
  | readOld msg tail head m =>
    obtain ⟨old, read, rfl⟩ := Option.map_eq_some_iff.mp step
    exact ⟨_, _, _, stores.readOld read⟩
  | freeOld msg tail head m old =>
    cases step
    exact ⟨_, _, _, stores.freeOld⟩
  | clearOld msg tail head m =>
    have atHead : head = fifo.head := stores.push.2.1
    have bound : head < slots.length := atHead ▸ stores.ring.inside
    obtain ⟨written, wrote, rfl⟩ := Option.map_eq_some_iff.mp step
    cases (Fifo.setSlot_eq stores.buf bound none).symm.trans wrote
    exact ⟨_, _, _, stores.clearOld⟩
  | storeHead msg tail head m =>
    cases step
    exact ⟨_, _, _, stores.dropHead⟩
  | writeSlot msg tail m dropped =>
    have atTail : tail = fifo.tail := stores.push.1
    have bound : tail < slots.length := atTail ▸ stores.ring.tail_lt
    obtain ⟨written, wrote, rfl⟩ := Option.map_eq_some_iff.mp step
    cases (Fifo.setSlot_eq stores.buf bound _).symm.trans wrote
    exact ⟨_, _, _, stores.writeSlot rfl⟩
  | storeTail tail m dropped dup =>
    cases step
    exact ⟨_, _, _, stores.storeTail⟩
  | storeMetrics m dropped =>
    cases step
    exact ⟨slots, items, first, { stores with }⟩
  | reloadMetrics dropped =>
    cases step
    exact ⟨slots, items, first, { stores with }⟩
  | depthHead m dropped =>
    cases step
    exact ⟨slots, items, first, { stores with }⟩
  | depthTail m dropped head =>
    simp only [SharedFifo.stepProducer] at step
    split at step
    all_goals
      cases step
      exact ⟨slots, items, first, { stores with }⟩
  | storeDepth m dropped =>
    cases step
    exact ⟨slots, items, first, { stores with }⟩

section Consumer

variable {fifo : Fifo} {producer : Producer} {pushed : ℕ} {freed returned : List Message} {rets : List ℤ}
  {head : ℕ} {out : Option Message}

theorem loadTail (stores : Stores ⟨fifo, producer, .loadTail head, pushed, freed, returned, rets⟩ slots items first)
    (nonempty : head ≠ fifo.tail) :
    Stores ⟨fifo, producer, .readSlot head, pushed, freed, returned, rets⟩ slots items first := by
  have atHead : head = fifo.head := stores.pop
  refine { stores with pop := ⟨atHead, fun empty => nonempty ?_⟩ }
  rw [atHead]
  exact stores.ring.empty_iff.mpr empty

theorem readSlot (stores : Stores ⟨fifo, producer, .readSlot head, pushed, freed, returned, rets⟩ slots items first)
    (read : fifo.slot head = some out) :
    Stores ⟨fifo, producer, .clearSlot head out, pushed, freed, returned, rets⟩ slots items first := by
  obtain ⟨atHead, nonempty⟩ := stores.pop
  have away := of_dropping_eq_false (stores.dropping_eq_false rfl)
  obtain ⟨x, rest, rfl⟩ := List.exists_cons_of_ne_nil nonempty
  have logged := stores.logged
  simp only [away.2, poppedMessage, Nat.add_zero, taken, held, List.append_nil] at logged
  rw [atHead] at read
  have oldest := stores.read_head (by simp only [poppedSlot, away.1, Bool.or_self]) read
  cases oldest
  refine { stores with pop := ⟨atHead, x, rest, rfl, rfl⟩, logged := ?_ }
  simp only [away.2, poppedMessage, Nat.zero_add]
  exact logged.take stores.head_number

theorem clearSlot
    (stores : Stores ⟨fifo, producer, .clearSlot head out, pushed, freed, returned, rets⟩ slots items first) :
    Stores ⟨{ fifo with buf := some (slots.set head none) }, producer, .storeHead head out, pushed, freed, returned,
      rets⟩ (slots.set head none) items first := by
  obtain ⟨atHead, x, rest, rfl, rfl⟩ := stores.pop
  have away := of_dropping_eq_false (stores.dropping_eq_false rfl)
  have ring := stores.ring
  simp only [away.1, poppedSlot, Bool.or_self] at ring
  refine { stores with buf := rfl, cap := stores.cap_set _ _, large := stores.large_set _ _, ring := ?_,
                       pop := ⟨atHead, x, rest, rfl, rfl⟩ }
  simp only [away.1, poppedSlot, Bool.false_or]
  rw [atHead]
  exact ring.clear (List.cons_ne_nil x rest)

/-- A push that is not dropping only gains room. -/
theorem pushFits_tail {cap old new tail : ℕ} {x : Message} {rest : List Message}
    (away : dropping cap producer = false) (fits : PushFits cap old tail pushed (x :: rest) producer) :
    PushFits cap new tail pushed rest producer := by
  cases producer with
  | loadMetrics msg t h =>
    have room : nextIdx t cap ≠ h := of_decide_eq_false away
    obtain ⟨atTail, fits⟩ := fits
    rw [if_neg room, List.length_cons] at fits
    constructor
    · exact atTail
    · rw [if_neg room]
      omega
  | readOld | freeOld | clearOld | storeHead => cases away
  | writeSlot => exact ⟨fits.1, Nat.lt_of_succ_lt fits.2⟩
  | storeTail => exact ⟨fits.1, Nat.lt_of_succ_lt fits.2.1, fits.2.2⟩
  | _ => exact fits

theorem popHead
    (stores : Stores ⟨fifo, producer, .storeHead head out, pushed, freed, returned, rets⟩ slots items first) :
    Stores ⟨{ fifo with head := nextIdx head fifo.cap }, producer, .loadMetrics out, pushed, freed, returned, rets⟩
      slots items.tail (first + 1) := by
  obtain ⟨atHead, x, rest, rfl, rfl⟩ := stores.pop
  have notDropping := stores.dropping_eq_false rfl
  have away := of_dropping_eq_false notDropping
  have ring := stores.ring
  have logged := stores.logged
  simp only [poppedSlot, Bool.or_true] at ring
  simp only [away.2, poppedMessage, Nat.zero_add] at logged
  refine { stores with ring := ?_, numbered := stores.numbered_tail, pushed := stores.pushed_tail, logged := ?_,
                       push := pushFits_tail notDropping stores.push, pop := trivial, apart := .inr rfl }
  · rw [atHead, stores.cap]
    simp only [away.1, poppedSlot, Bool.or_self]
    exact ring.advance
  · simp only [away.2, poppedMessage, Nat.add_zero]
    exact logged

theorem returnOut (stores : Stores ⟨fifo, producer, .loadMetrics out, pushed, freed, returned, rets⟩ slots items first)
    (m : FifoMetrics) :
    Stores ⟨{ fifo with m }, producer, .idle, pushed, freed, returned ++ out.toList, rets⟩ slots items first := by
  have logged := stores.logged
  refine { stores with pop := trivial, logged := ?_ }
  simp only [taken, held, List.append_nil]
  exact logged

end Consumer

theorem stepConsumer (stores : Stores s slots items first) (step : s.stepConsumer = some next) :
    ∃ slots items first, Stores next slots items first := by
  obtain ⟨fifo, producer, consumer, pushed, freed, returned, rets⟩ := s
  cases consumer with
  | idle => cases step
  | loadTail head =>
    simp only [SharedFifo.stepConsumer] at step
    split at step
    next =>
      cases step
      refine ⟨slots, items, first, { stores with logged := ?_, pop := trivial, apart := .inr rfl }⟩
      simp only [taken, held, SharedFifo.finishPop, Option.toList_none, List.append_nil]
      have logged := stores.logged
      simp only [taken, held, List.append_nil] at logged
      exact logged
    next nonempty =>
      cases step
      exact ⟨_, _, _, stores.loadTail nonempty⟩
  | readSlot head =>
    obtain ⟨out, read, rfl⟩ := Option.map_eq_some_iff.mp step
    exact ⟨_, _, _, stores.readSlot read⟩
  | clearSlot head out =>
    have atHead : head = fifo.head := stores.pop.1
    have bound : head < slots.length := atHead ▸ stores.ring.inside
    obtain ⟨written, wrote, rfl⟩ := Option.map_eq_some_iff.mp step
    cases (Fifo.setSlot_eq stores.buf bound none).symm.trans wrote
    exact ⟨_, _, _, stores.clearSlot⟩
  | storeHead head out =>
    cases step
    exact ⟨_, _, _, stores.popHead⟩
  | loadMetrics out =>
    cases step
    exact ⟨slots, items, first, { stores with }⟩
  | storeMetrics out m =>
    cases step
    exact ⟨slots, items, first, returnOut { stores with } m⟩

/-- Every step of a separated run keeps the invariant. -/
theorem step {e : SharedFifo.Event} (stores : Stores s slots items first) (separate : Apart s e)
    (stepped : SharedFifo.machine.step s e = some next) : ∃ slots items first, Stores next slots items first := by
  cases e with
  | push msg =>
    obtain ⟨idle, reached⟩ := Option.ite_none_right_eq_some.mp stepped
    cases reached
    obtain ⟨fifo, producer, consumer, pushed, freed, returned, rets⟩ := s
    cases idle
    exact ⟨slots, items, first, { stores with push := rfl, apart := .inl rfl }⟩
  | pop =>
    obtain ⟨idle, reached⟩ := Option.ite_none_right_eq_some.mp stepped
    cases reached
    obtain ⟨fifo, producer, consumer, pushed, freed, returned, rets⟩ := s
    cases idle
    exact ⟨slots, items, first, { stores with pop := rfl, apart := .inl separate }⟩
  | producer => exact stores.stepProducer separate stepped
  | consumer => exact stores.stepConsumer stepped

theorem item_number (stores : Stores s slots items first) {j : ℕ} {x : Message} (item : items[j]? = some x) :
    x.number = first + j := by
  have bound := (List.getElem?_eq_some_iff.mp item).1
  have mapped : (items.map Message.number)[j]? = some x.number := by rw [List.getElem?_map, item, Option.map_some]
  rw [stores.numbered, List.getElem?_range' bound, Nat.one_mul] at mapped
  exact (Option.some.inj mapped).symm

/-- A slot is cleared only after its message has been logged. -/
theorem logged_of_cleared (s : SharedFifo) (cleared : (droppedSlot s.producer || poppedSlot s.consumer) = true) :
    0 < droppedMessage s.producer + poppedMessage s.consumer := by
  rcases Bool.or_eq_true_iff.mp cleared with dropped | popped
  · cases producer : s.producer <;> rw [producer] at dropped <;>
      first | exact absurd dropped Bool.false_ne_true | exact Nat.add_pos_left Nat.one_pos _
  · cases consumer : s.consumer <;> rw [consumer] at popped <;>
      first | exact absurd popped Bool.false_ne_true | exact Nat.add_pos_right _ Nat.one_pos

theorem producer_isSome (stores : Stores s slots items first) (busy : s.producer ≠ .idle) :
    s.stepProducer.isSome := by
  obtain ⟨fifo, producer, consumer, pushed, freed, returned, rets⟩ := s
  have push := stores.push
  cases producer with
  | idle => exact absurd rfl busy
  | readOld msg tail head m =>
    rw [SharedFifo.stepProducer, Option.isSome_map, Fifo.slot_eq stores.buf, push.2.1,
      List.getElem?_eq_getElem stores.ring.inside]
    rfl
  | clearOld msg tail head m =>
    rw [SharedFifo.stepProducer, Option.isSome_map, push.2.1, Fifo.setSlot_eq stores.buf stores.ring.inside]
    rfl
  | writeSlot msg tail m dropped =>
    rw [SharedFifo.stepProducer, Option.isSome_map, push.1, Fifo.setSlot_eq stores.buf stores.ring.tail_lt]
    rfl
  | depthTail m dropped head =>
    simp only [SharedFifo.stepProducer]
    split <;> rfl
  | _ => rfl

theorem consumer_isSome (stores : Stores s slots items first) (busy : s.consumer ≠ .idle) :
    s.stepConsumer.isSome := by
  obtain ⟨fifo, producer, consumer, pushed, freed, returned, rets⟩ := s
  have pop := stores.pop
  cases consumer with
  | idle => exact absurd rfl busy
  | loadTail head =>
    simp only [SharedFifo.stepConsumer]
    split <;> rfl
  | readSlot head =>
    rw [SharedFifo.stepConsumer, Option.isSome_map, Fifo.slot_eq stores.buf, pop.1,
      List.getElem?_eq_getElem stores.ring.inside]
    rfl
  | clearSlot head out =>
    rw [SharedFifo.stepConsumer, Option.isSome_map, pop.1, Fifo.setSlot_eq stores.buf stores.ring.inside]
    rfl
  | _ => rfl

theorem eachOnce (stores : Stores s slots items first) : EachOnce s where
  once := stores.logged.all.nodup_iff.mpr List.nodup_range
  kept n before notGone := by
    have later := Nat.le_of_not_lt fun logged => notGone (stores.logged.mem_iff.mpr logged)
    have count := stores.pushed
    have bound : n - first < items.length := by omega
    obtain ⟨message, item⟩ : ∃ message, items[n - first]? = some message := ⟨_, List.getElem?_eq_getElem bound⟩
    refine ⟨Ring.place slots.length s.fifo.head (n - first), message, ?_, ?_, ?_⟩
    · rw [stores.ring.tail_eq, Ring.between_place_iff stores.ring.room (Nat.lt_trans bound stores.ring.room)]
      exact bound
    · rw [Fifo.slot_eq stores.buf]
      apply stores.ring.item_cell item
      rcases Bool.eq_false_or_eq_true (droppedSlot s.producer || poppedSlot s.consumer) with cleared | present
      · left
        have logged := logged_of_cleared s cleared
        omega
      · exact .inr present
    · rw [stores.item_number item]
      omega
  inOrder := stores.logged.inOrder
  ahead i message _ _ notGone n logged := by
    have later := Nat.le_of_not_lt fun logged => notGone (stores.logged.mem_iff.mpr logged)
    exact Nat.lt_of_lt_of_le (stores.logged.mem_iff.mp logged) later
  atRest notDropping notPopping i bound between := by
    have producer := of_dropping_eq_false notDropping
    have consumer := of_popping_eq_false notPopping
    rw [stores.cap] at bound
    obtain ⟨j, boundJ, rfl⟩ := Ring.exists_place stores.ring.inside bound
    rw [stores.ring.tail_eq, Ring.between_place_iff stores.ring.room boundJ] at between
    obtain ⟨message, item⟩ : ∃ message, items[j]? = some message := ⟨_, List.getElem?_eq_getElem between⟩
    have number := stores.item_number item
    have count := stores.pushed
    refine ⟨message, ?_, by omega, ?_⟩
    · rw [Fifo.slot_eq stores.buf]
      apply stores.ring.item_cell item
      right
      rw [producer.1, consumer.1, Bool.or_self]
    · intro logged
      have older := stores.logged.mem_iff.mp logged
      rw [producer.2, consumer.2.1] at older
      omega
  producerGoesOn busy := stores.producer_isSome busy
  consumerGoesOn busy := stores.consumer_isSome busy

end Stores

/-- One side goes on alone from `s` and gets to `t`. -/
def GoesOn (e : SharedFifo.Event) (s t : SharedFifo) : Prop :=
  ∃ steps, SharedFifo.machine.run s (List.replicate steps e) = some t

namespace GoesOn

variable {e : SharedFifo.Event} {s next t : SharedFifo}

theorem done : GoesOn e t t := ⟨0, rfl⟩

theorem step (first : s.step e = some next) (rest : GoesOn e next t) : GoesOn e s t := by
  obtain ⟨steps, reached⟩ := rest
  refine ⟨steps + 1, ?_⟩
  rw [List.replicate_succ, EventMachine.run_cons, show SharedFifo.machine.step s e = some next from first]
  exact reached

end GoesOn

/-- The end of a push, from the stored metrics on, is the sequential `metrics_update_depth`. -/
theorem goesOn_reloadMetrics (fifo : Fifo) (dropped : Bool) (consumer : Consumer) (pushed : ℕ)
    (freed returned : List Message) (rets : List ℤ) :
    GoesOn .producer ⟨fifo, .reloadMetrics dropped, consumer, pushed, freed, returned, rets⟩
      ⟨fifo.metricsUpdateDepth, .idle, consumer, pushed, freed, returned, rets ++ [if dropped then 0 else 1]⟩ := by
  apply GoesOn.step rfl
  apply GoesOn.step rfl
  by_cases deeper : fifo.m.maxDepth < fifo.vtsFifoDepth
  · rw [Fifo.metricsUpdateDepth, if_pos deeper]
    exact (GoesOn.step (if_pos deeper) (GoesOn.step rfl GoesOn.done))
  · rw [Fifo.metricsUpdateDepth, if_neg deeper]
    exact GoesOn.step (if_neg deeper) GoesOn.done

theorem goesOn_writeSlot {fifo stored : Fifo} {msg : Option Bytes} {m : FifoMetrics} {pushed : ℕ} (tail : ℕ)
    (dropped : Bool) (consumer : Consumer) (freed returned : List Message) (rets : List ℤ)
    (put : fifo.putAt tail (nextIdx tail fifo.cap) ⟨pushed, msg.getD []⟩ = some stored) :
    GoesOn .producer ⟨fifo, .writeSlot msg tail m dropped, consumer, pushed, freed, returned, rets⟩
      ⟨{ stored with m }.metricsUpdateDepth, .idle, consumer, pushed + 1, freed, returned,
        rets ++ [if dropped then 0 else 1]⟩ := by
  obtain ⟨written, wrote, rest⟩ := Option.bind_eq_some_iff.mp put
  cases rest
  refine GoesOn.step (Option.map_eq_some_iff.mpr ⟨written, wrote, rfl⟩) ?_
  apply GoesOn.step rfl
  apply GoesOn.step rfl
  rw [← Fifo.setSlot_cap wrote]
  exact goesOn_reloadMetrics _ _ _ _ _ _ _

/-- Without interruption the steps of a push are the sequential function. -/
theorem push_alone {s : SharedFifo} (idle : s.producer = .idle) {msg : Option Bytes} {fifo : Fifo} {ret : ℤ}
    {old : Option Message} (call : s.fifo.vtsFifoPushSpsc msg s.pushed = some (fifo, ret, old)) :
    ∃ steps, SharedFifo.machine.run s (.push msg :: List.replicate steps .producer) =
      some { s with fifo, pushed := s.pushed + 1, freed := s.freed ++ old.toList, rets := s.rets ++ [ret] } := by
  obtain ⟨q, producer, consumer, pushed, freed, returned, rets⟩ := s
  cases idle
  change q.vtsFifoPushSpsc msg pushed = some (fifo, ret, old) at call
  have goes : GoesOn .producer ⟨q, .loadHead msg q.tail, consumer, pushed, freed, returned, rets⟩
      ⟨fifo, .idle, consumer, pushed + 1, freed ++ old.toList, returned, rets ++ [ret]⟩ := by
    apply GoesOn.step rfl
    rw [Fifo.vtsFifoPushSpsc] at call
    split at call
    next full =>
      obtain ⟨⟨dropped, taken⟩, took, call⟩ := Option.bind_eq_some_iff.mp call
      obtain ⟨_, found, took⟩ := Option.bind_eq_some_iff.mp took
      obtain ⟨cleared, wrote, took⟩ := Option.bind_eq_some_iff.mp took
      cases took
      obtain ⟨stored, put, call⟩ := Option.bind_eq_some_iff.mp call
      cases call
      apply GoesOn.step rfl
      rw [if_pos full]
      refine GoesOn.step (Option.map_eq_some_iff.mpr ⟨_, found, rfl⟩) ?_
      apply GoesOn.step rfl
      refine GoesOn.step (Option.map_eq_some_iff.mpr ⟨cleared, wrote, rfl⟩) ?_
      apply GoesOn.step rfl
      rw [← Fifo.setSlot_cap wrote] at put
      exact goesOn_writeSlot _ true _ _ _ _ put
    next room =>
      obtain ⟨stored, put, call⟩ := Option.bind_eq_some_iff.mp call
      cases call
      apply GoesOn.step rfl
      rw [if_neg room, Option.toList_none, List.append_nil]
      exact goesOn_writeSlot _ false _ _ _ _ put
  obtain ⟨steps, reached⟩ := goes
  exact ⟨steps, reached⟩

/-- Without interruption the steps of a pop are the sequential function. -/
theorem pop_alone {s : SharedFifo} (idle : s.consumer = .idle) {fifo : Fifo} {out : Option Message}
    (call : s.fifo.vtsFifoPopSpsc = some (fifo, out)) :
    ∃ steps, SharedFifo.machine.run s (.pop :: List.replicate steps .consumer) =
      some { s with fifo, returned := s.returned ++ out.toList } := by
  obtain ⟨q, producer, consumer, pushed, freed, returned, rets⟩ := s
  cases idle
  change q.vtsFifoPopSpsc = some (fifo, out) at call
  have goes : GoesOn .consumer ⟨q, producer, .loadTail q.head, pushed, freed, returned, rets⟩
      ⟨fifo, producer, .idle, pushed, freed, returned ++ out.toList, rets⟩ := by
    rw [Fifo.vtsFifoPopSpsc] at call
    split at call
    next empty =>
      cases call
      exact GoesOn.step (if_pos empty) GoesOn.done
    next nonempty =>
      obtain ⟨_, found, took⟩ := Option.bind_eq_some_iff.mp call
      obtain ⟨cleared, wrote, took⟩ := Option.bind_eq_some_iff.mp took
      cases took
      refine GoesOn.step (if_neg nonempty) ?_
      refine GoesOn.step (Option.map_eq_some_iff.mpr ⟨_, found, rfl⟩) ?_
      refine GoesOn.step (Option.map_eq_some_iff.mpr ⟨cleared, wrote, rfl⟩) ?_
      exact GoesOn.step rfl (GoesOn.step rfl (GoesOn.step rfl GoesOn.done))
  obtain ⟨steps, reached⟩ := goes
  exact ⟨steps, reached⟩

/-- In a run that keeps dropping pushes and pops apart, every message goes one way, in order, and
neither side ever touches memory outside the buffer. -/
theorem apart_eachOnce {cap : ℕ} (large : 2 ≤ cap) {events : List SharedFifo.Event} {s : SharedFifo}
    (apart : SharedFifo.machine.Along Apart (.start cap) events)
    (reached : SharedFifo.machine.run (.start cap) events = some s) : EachOnce s := by
  have kept : ∃ slots items first, Stores s slots items first := by
    apply EventMachine.invariant_along (fun s => ∃ slots items first, Stores s slots items first) _ _ apart reached
    · rintro s e next ⟨slots, items, first, stores⟩ separate step
      exact stores.step separate step
    · exact ⟨_, _, _, Stores.start large⟩
  obtain ⟨slots, items, first, stores⟩ := kept
  exact stores.eachOnce

/-- A push with `steps` steps after its first and nothing in between. -/
def wholePush (msg : Option Bytes) (steps : ℕ) : List SharedFifo.Event :=
  .push msg :: List.replicate steps .producer

/-- Two slots hold one message: the second push drops the first message before the pop starts. -/
theorem apart_eachOnce_drop : ∃ s,
    SharedFifo.machine.run (.start 2) (wholePush (some [97]) 9 ++ wholePush (some [98]) 12 ++ [.pop, .consumer]) =
      some s ∧ s.freed = [⟨0, [97]⟩] ∧ EachOnce s := by
  have events : SharedFifo.machine.Along Apart (.start 2)
      (wholePush (some [97]) 9 ++ wholePush (some [98]) 12 ++ [.pop, .consumer]) := by decide
  exact ⟨_, rfl, rfl, apart_eachOnce (by decide) events rfl⟩

/-- A pop has read message 0 out of a full FIFO when a push frees that message: the pop still returns it,
and both calls are over. -/
theorem popped_message_freed : ∃ s,
    SharedFifo.machine.run (.start 2) (wholePush (some [97]) 9 ++ [.pop, .consumer, .consumer] ++
        wholePush (some [98]) 12 ++ List.replicate 4 .consumer) = some s ∧
      s.producer = .idle ∧ s.consumer = .idle ∧ s.returned = [⟨0, [97]⟩] ∧ s.freed = [⟨0, [97]⟩] ∧
      ¬ EachOnce s := by
  have twice (s : SharedFifo) (returned : taken s = [⟨0, [97]⟩]) (freed : s.freed = [⟨0, [97]⟩]) : ¬ EachOnce s := by
    intro each
    have once := each.once
    rw [gone, returned, freed] at once
    exact absurd once (by decide)
  exact ⟨_, rfl, rfl, rfl, rfl, rfl, twice _ rfl rfl⟩

end ProcessMonitor.Soundness.FifoRace
