import Mathlib.Data.List.TakeWhile
import ProcessMonitor.Machine.Core.Delimited
import ProcessMonitor.Model.Vts.ThreadsRecv

/-! # What the receiver makes of a stream

The parts of a stream between its newlines are its lines and, last, the unterminated rest. One
condition of the loop ends a line at a newline and at a full buffer alike, and in both
cases the byte at hand is not stored. So a stream is delivered exactly when every part fits the buffer: of
a longer line each 4096th byte is lost.
-/

namespace ProcessMonitor.Soundness.LineSplitting

open Machine Model.Vts Model.Vts.ThrRecv

/-- The messages that deliver one line: none for an empty one, and pieces only for one that does not fit. -/
structure Pieces (line : List UInt8) (pieces : List (List UInt8)) : Prop where
  whole : pieces.flatten = line
  sized : ∀ piece ∈ pieces, piece ≠ [] ∧ piece.length ≤ 4095
  undivided : line.length ≤ 4095 → pieces.length ≤ 1

/-- The messages that deliver the parts of a stream, with what is kept of the last for later. -/
inductive Delivered : List (List UInt8) → List (List UInt8) → List UInt8 → Prop
  | rest {rest kept : List UInt8} {pieces : List (List UInt8)} (whole : pieces.flatten ++ kept = rest)
      (sized : ∀ piece ∈ pieces, piece ≠ [] ∧ piece.length ≤ 4095) (undivided : rest.length ≤ 4095 → pieces = []) :
      Delivered [rest] pieces kept
  | line {line kept : List UInt8} {lines pieces messages : List (List UInt8)} (first : Pieces line pieces)
      (others : Delivered lines messages kept) : Delivered (line :: lines) (pieces ++ messages) kept

theorem Delivered.length {parts messages : List (List UInt8)} {kept : List UInt8}
    (delivered : Delivered parts messages kept) :
    messages.flatten.length + kept.length = parts.flatten.length := by
  induction delivered with
  | rest whole => rw [← List.length_append, whole, List.flatten_singleton]
  | line first _ ih =>
    rw [List.flatten_append, List.flatten_cons, List.length_append, List.length_append, first.whole, Nat.add_assoc, ih]

variable {l : LineBuffer UInt8} {w : List UInt8}

private theorem putByte_grows {b : UInt8} (inside : ¬newline = b) (room : l.bytes.length ≠ 4095) :
    (l.putByte id b).1.bytes = l.bytes ++ [b] ∧ (l.putByte id b).1.bytes.length = l.bytes.length + 1 ∧
      (l.putByte id b).2 = [] := by
  have other : id b ≠ newline := Ne.symm inside
  obtain ⟨grown, silent⟩ := l.putByte_room other room
  exact ⟨grown, by rw [grown, List.length_append, List.length_singleton], silent⟩

theorem feed_within (free : newline ∉ w) (fits : l.bytes.length + w.length ≤ 4095) :
    (l.feed id w).1.bytes = l.bytes ++ w ∧ (l.feed id w).2 = [] := by
  induction w generalizing l with
  | nil => exact ⟨(List.append_nil _).symm, rfl⟩
  | cons b w ih =>
    obtain ⟨inside, later⟩ := not_or.mp (List.mem_cons.not.mp free)
    rw [List.length_cons] at fits
    obtain ⟨grown, size, silent⟩ := putByte_grows (l := l) inside (by omega)
    obtain ⟨bytes, lines⟩ := ih (l := (l.putByte id b).1) later (by omega)
    exact ⟨by simp only [LineBuffer.feed, bytes, grown, List.append_cons l.bytes b w],
      by simp only [LineBuffer.feed, lines, silent, List.append_nil]⟩

/-- The bytes that a stretch of the loop has passed on or still holds. -/
def weight (outcome : LineBuffer UInt8 × List (List UInt8)) : ℕ := outcome.2.flatten.length + outcome.1.bytes.length

theorem weight_feed_cons (l : LineBuffer UInt8) (b : UInt8) (w : List UInt8) :
    weight (l.feed id (b :: w)) =
      (l.putByte id b).2.flatten.length + weight ((l.putByte id b).1.feed id w) := by
  simp only [weight, LineBuffer.feed, List.flatten_append, List.length_append, Nat.add_assoc]

theorem weight_putByte_le (l : LineBuffer UInt8) (b : UInt8) : weight (l.putByte id b) ≤ l.bytes.length + 1 := by
  rw [LineBuffer.putByte]
  split
  · split <;> simp [weight, LineBuffer.empty]
  · simp [weight]

theorem weight_feed_le (l : LineBuffer UInt8) (w : List UInt8) : weight (l.feed id w) ≤ l.bytes.length + w.length := by
  induction w generalizing l with
  | nil => simp [weight, LineBuffer.feed]
  | cons b w ih =>
    have first := weight_putByte_le l b
    have later := ih (l.putByte id b).1
    rw [weight_feed_cons, List.length_cons]
    rw [weight] at first
    omega

/-- A line that does not fit loses a byte. -/
theorem weight_feed_lt (free : newline ∉ w) (long : 4095 < l.bytes.length + w.length) :
    weight (l.feed id w) < l.bytes.length + w.length := by
  induction w generalizing l with
  | nil => exact absurd l.fits (Nat.not_le_of_lt long)
  | cons b w ih =>
    obtain ⟨inside, later⟩ := not_or.mp (List.mem_cons.not.mp free)
    rw [List.length_cons] at long ⊢
    rw [weight_feed_cons]
    by_cases full : l.bytes.length = 4095
    · have others := weight_feed_le .empty w
      rw [LineBuffer.empty, List.length_nil, Nat.zero_add] at others
      simp only [l.putByte_full b full, List.flatten_singleton, LineBuffer.empty]
      omega
    · obtain ⟨-, size, silent⟩ := putByte_grows inside full
      have others := ih (l := (l.putByte id b).1) later (by omega)
      rw [silent, List.flatten_nil, List.length_nil]
      omega

/-- The loop from an empty buffer. -/
abbrev split (stream : List UInt8) : LineBuffer UInt8 × List (List UInt8) := LineBuffer.feed id .empty stream

theorem split_line (w stream : List UInt8) :
    split (w ++ newline :: stream) =
      ((split stream).1,
        (split w).2 ++ ((if (split w).1.bytes = [] then [] else [(split w).1.bytes]) ++ (split stream).2)) := by
  have flushed : (split w).1.putByte id newline = _ := LineBuffer.putByte_newline _ rfl
  rw [split, LineBuffer.feed_append]
  simp only [LineBuffer.feed, flushed]

theorem split_within (free : newline ∉ w) (fits : w.length ≤ 4095) : (split w).1.bytes = w ∧ (split w).2 = [] :=
  feed_within free (by rwa [LineBuffer.empty, List.length_nil, Nat.zero_add])

theorem weight_split_lt (free : newline ∉ w) (long : 4095 < w.length) : weight (split w) < w.length := by
  have short := weight_feed_lt (l := .empty) free (by rwa [LineBuffer.empty, List.length_nil, Nat.zero_add])
  rwa [LineBuffer.empty, List.length_nil, Nat.zero_add] at short

theorem weight_split_le (w : List UInt8) : weight (split w) ≤ w.length := by
  have bounded := weight_feed_le .empty w
  rwa [LineBuffer.empty, List.length_nil, Nat.zero_add] at bounded

theorem weight_split_line (w stream : List UInt8) :
    weight (split (w ++ newline :: stream)) = weight (split w) + weight (split stream) := by
  rw [split_line]
  simp only [weight, List.flatten_append, List.length_append]
  split
  · next nothing =>
    rw [nothing, List.flatten_nil, List.length_nil]
    omega
  · rw [List.flatten_singleton]
    omega

/-- The loop passes on and holds no more than the parts of the stream, and all of them only if each fits. -/
theorem weight_split_parts (stream : List UInt8) :
    weight (split stream) ≤ (stream.splitOn newline).flatten.length ∧
      (weight (split stream) = (stream.splitOn newline).flatten.length →
        ∀ part ∈ stream.splitOn newline, part.length ≤ 4095) := by
  induction stream using Delimited.lines_induction with
  | rest w free =>
    rw [List.splitOn_eq_singleton free, List.flatten_singleton]
    refine ⟨weight_split_le w, fun all part member => ?_⟩
    rw [List.mem_singleton.mp member]
    exact Nat.le_of_not_lt fun long => absurd all (Nat.ne_of_lt (weight_split_lt free long))
  | line w stream free ih =>
    have first := weight_split_le w
    rw [List.splitOn_append_cons_self_of_not_mem free, List.flatten_cons, List.length_append, weight_split_line]
    refine ⟨Nat.add_le_add first ih.1, fun all => List.forall_mem_cons.mpr ⟨?_, ih.2 ?_⟩⟩
    · exact Nat.le_of_not_lt fun long => absurd (weight_split_lt free long) (by omega)
    · omega

theorem delivered_split (stream : List UInt8) (fit : ∀ part ∈ stream.splitOn newline, part.length ≤ 4095) :
    Delivered (stream.splitOn newline) (split stream).2 (split stream).1.bytes := by
  induction stream using Delimited.lines_induction with
  | rest w free =>
    rw [List.splitOn_eq_singleton free] at fit ⊢
    obtain ⟨kept, silent⟩ := split_within free (fit w (List.mem_singleton_self w))
    rw [kept, silent]
    exact .rest rfl nofun fun _ => rfl
  | line w stream free ih =>
    rw [List.splitOn_append_cons_self_of_not_mem free] at fit ⊢
    obtain ⟨first, others⟩ := List.forall_mem_cons.mp fit
    obtain ⟨kept, silent⟩ := split_within free first
    rw [split_line, kept, silent, List.nil_append]
    refine .line ?_ (ih others)
    split
    · next nothing => exact ⟨nothing.symm, nofun, fun _ => Nat.zero_le 1⟩
    · next something =>
      exact ⟨List.flatten_singleton, List.forall_mem_singleton.mpr ⟨something, first⟩, fun _ => Nat.le_refl 1⟩

theorem delivered_split_iff (stream : List UInt8) :
    Delivered (stream.splitOn newline) (split stream).2 (split stream).1.bytes ↔
      ∀ part ∈ stream.splitOn newline, part.length ≤ 4095 :=
  ⟨fun delivered => (weight_split_parts stream).2 delivered.length, delivered_split stream⟩

private theorem lineString_plain (present : ∀ b ∈ w, b ≠ 0) : lineString id w = w :=
  List.takeWhile_eq_self_iff.mpr fun b member => decide_eq_true (present b member)

/-- Lines of a stream without NUL are unchanged as C strings. -/
theorem map_lineString (stream : List UInt8) (plain : 0 ∉ stream) :
    (split stream).2.map (lineString id) = (split stream).2 := by
  have present : ∀ b ∈ stream, b ≠ 0 := fun b member absent => plain (absent ▸ member)
  have lines := (LineBuffer.feed_forall nofun present : _ ∧ ∀ line ∈ (split stream).2, _).2
  exact (List.map_congr_left fun line passed => lineString_plain (lines line passed)).trans (List.map_id _)

/-- From a start with an empty buffer, for every way in which the stream is cut into results of `read()`: the
messages are the lines, those too long for the buffer in pieces, and the rest is kept, exactly if no line and no
rest is too long. -/
theorem lines_delivered_iff {s t : ThrRecv UInt8} {events : List (Event UInt8)} (fresh : s.line = .empty)
    (ran : (machine id).run s events = some t) (plain : 0 ∉ received events) :
    (∃ messages, t.messages = s.messages ++ messages ∧
        Delivered ((received events).splitOn newline) messages t.line.bytes) ↔
      ∀ part ∈ (received events).splitOn newline, part.length ≤ 4095 := by
  obtain ⟨line, messages⟩ := run_fed ran
  rw [fresh] at line messages
  rw [map_lineString _ plain] at messages
  rw [← delivered_split_iff, line, messages]
  simp only [List.append_cancel_left_eq, exists_eq_left']

/-- The thread before its first `read()`. -/
def setUp : List (Event UInt8) := [.openFifo (some 3), .epollCreate (some 4), .epollCtl, .report false false]

/-- A line and the beginning of the next, cut in the middle of both. -/
def cutInLines : List (Event UInt8) :=
  setUp ++ [.read (.data [97]), .report false false, .read (.data [98, newline, 99])]

theorem lines_delivered_iff_cut : ∃ t, (machine id).run start cutInLines = some t ∧
    ∃ messages, t.messages = [] ++ messages ∧
      Delivered ([97, 98, newline, 99].splitOn newline) messages t.line.bytes := by
  have evaluated : ((machine id).run start cutInLines).map (·.pc) = some .wait := by decide +kernel
  obtain ⟨t, ran, -⟩ := Option.map_eq_some_iff.mp evaluated
  exact ⟨t, ran, (lines_delivered_iff rfl ran (by decide)).mpr (by decide +kernel)⟩

/-- The byte after a full buffer only ends the line. -/
theorem split_full {b : UInt8} (free : newline ∉ w) (full : w.length = 4095) :
    split (w ++ [b, newline]) = (.empty, [w]) := by
  obtain ⟨held, silent⟩ := split_within free full.le
  have size : (split w).1.bytes.length = 4095 := by rw [held, full]
  rw [split, LineBuffer.feed_append]
  simp only [LineBuffer.feed, LineBuffer.putByte_full _ _ size, held, silent]
  rfl

private theorem run_setUp : ∃ s : ThrRecv UInt8, (machine id).run start setUp = some s ∧ s.pc = .read := by
  have evaluated : ((machine id).run start setUp).map (·.pc) = some .read := by decide +kernel
  exact Option.map_eq_some_iff.mp evaluated

private theorem step_data {s : ThrRecv UInt8} {bytes : List UInt8} (here : s.pc = .read) (nonempty : bytes ≠ [])
    (fits : bytes.length ≤ 65536) : ∃ t, s.step id (.read (.data bytes)) = some t := by
  have data : ¬(bytes = [] ∨ 65536 < bytes.length) := not_or.mpr ⟨nonempty, Nat.not_lt.mpr fits⟩
  exact ⟨_, by simp only [step, here, readStep, if_neg data]; rfl⟩

/-- A full buffer of `a`, one more and a newline: the last `a` is in no message. -/
theorem long_line_shortened : ∃ t,
    (machine id).run start (setUp ++ [.read (.data (List.replicate 4095 97 ++ [97, newline]))]) = some t ∧
    t.messages = [List.replicate 4095 97] ∧ t.line.bytes = [] ∧
    ¬Delivered ((List.replicate 4095 97 ++ [97, newline]).splitOn newline) t.messages t.line.bytes := by
  generalize made : List.replicate 4095 (97 : UInt8) = w
  have full : w.length = 4095 := made ▸ List.length_replicate
  have only : ∀ b ∈ w, b = 97 := fun b member => List.eq_of_mem_replicate (made ▸ member)
  have free : newline ∉ w := fun member => absurd (only _ member) (by decide)
  have plain : 0 ∉ w := fun member => absurd (only _ member) (by decide)
  obtain ⟨s, began, here⟩ := run_setUp
  obtain ⟨t, stepped⟩ := (step_data here (by simp) (by simp [full]) :
    ∃ t, s.step id (.read (.data (w ++ [97, newline]))) = some t)
  have ran : (machine id).run start (setUp ++ [.read (.data (w ++ [97, newline]))]) = some t := by
    rw [EventMachine.run_append, began, Option.bind_some]
    exact Option.bind_eq_some_iff.mpr ⟨t, stepped, rfl⟩
  obtain ⟨line, messages⟩ := (step_moves stepped).feeds
  obtain ⟨unread, unsent⟩ := run_fed began
  have empty : s.line = .empty := unread
  have silent : s.messages = [] := unsent
  have fed : s.line.feed id (w ++ [97, newline]) = (.empty, [w]) := by rw [empty]; exact split_full free full
  simp only [Event.bytes, fed, silent, List.nil_append, List.map_singleton] at line messages
  rw [lineString_plain fun b member zero => plain (zero ▸ member)] at messages
  refine ⟨t, ran, messages, congrArg LineBuffer.bytes line, fun delivered => ?_⟩
  have inside : newline ∉ w ++ [97] := by
    rw [List.mem_append, List.mem_singleton, not_or]
    exact ⟨free, by decide⟩
  have parts : (w ++ [97, newline]).splitOn newline = [w ++ [97], []] := by
    rw [List.append_cons w 97 [newline], List.splitOn_append_cons_self_of_not_mem inside, List.splitOn_nil]
  have size := delivered.length
  rw [parts, messages, line] at size
  simp [full, LineBuffer.empty] at size

end ProcessMonitor.Soundness.LineSplitting
