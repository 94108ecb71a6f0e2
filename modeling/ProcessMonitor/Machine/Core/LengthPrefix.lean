import Mathlib.Data.List.Basic

/-! # Streams of length-prefixed frames

A frame is a header of fixed width announcing a length, followed by that many symbols. Lengths
outside the admitted range announce nothing. Every stream splits in exactly one way into whole
admitted frames and a rest that either still lacks symbols or opens with a refused header. A
prefix of the stream that already splits determines the first frames of the whole stream, which
is what a decoder fed in pieces needs.
-/

namespace ProcessMonitor.Machine

/-- A header codec: exactly the admitted lengths round-trip, in both directions. -/
structure LengthPrefix (α : Type*) where
  width : ℕ
  limit : ℕ
  size : List α → ℕ
  header : ℕ → List α
  header_length : ∀ n, (header n).length = width
  size_header : ∀ n, 0 < n → n ≤ limit → size (header n) = n
  header_size : ∀ symbols : List α, symbols.length = width →
    0 < size symbols → size symbols ≤ limit → header (size symbols) = symbols

namespace LengthPrefix

variable {α : Type*} (f : LengthPrefix α)

/-- The lengths a header may announce. -/
def Admits (n : ℕ) : Prop := 0 < n ∧ n ≤ f.limit

instance (n : ℕ) : Decidable (f.Admits n) := inferInstanceAs (Decidable (_ ∧ _))

/-- The encoding of one payload. -/
def frame (payload : List α) : List α := f.header payload.length ++ payload

/-- Some symbols of the next frame are still missing. -/
def Incomplete (rest : List α) : Prop :=
  rest.length < f.width ∨
    f.Admits (f.size (rest.take f.width)) ∧ rest.length < f.width + f.size (rest.take f.width)

/-- The next header is complete and announces a length that is not admitted. -/
def Rejected (rest : List α) : Prop :=
  f.width ≤ rest.length ∧ ¬ f.Admits (f.size (rest.take f.width))

/-- Whole admitted frames, then a rest at which decoding stops. -/
structure Splits (stream : List α) (payloads : List (List α)) (rest : List α) : Prop where
  stream_eq : stream = payloads.flatMap f.frame ++ rest
  admitted : ∀ payload ∈ payloads, f.Admits payload.length
  stops : f.Incomplete rest ∨ f.Rejected rest

variable {f}

theorem frame_length (payload : List α) :
    (f.frame payload).length = f.width + payload.length := by
  simp only [frame, List.length_append, f.header_length]

theorem take_frame (payload tail : List α) :
    (f.frame payload ++ tail).take f.width = f.header payload.length := by
  rw [frame, List.append_assoc, ← f.header_length payload.length, List.take_left]

theorem size_frame {payload : List α} (admits : f.Admits payload.length) (tail : List α) :
    f.size ((f.frame payload ++ tail).take f.width) = payload.length := by
  rw [take_frame, f.size_header _ admits.1 admits.2]

/-- A stream that opens with a whole admitted frame does not stop there. -/
theorem not_stops_frame {payload : List α} (admits : f.Admits payload.length) (tail : List α) :
    ¬ (f.Incomplete (f.frame payload ++ tail) ∨ f.Rejected (f.frame payload ++ tail)) := by
  have size := size_frame admits tail
  rintro (short | ⟨-, refused⟩)
  · rw [Incomplete, size] at short
    simp only [List.length_append, frame_length] at short
    omega
  · exact refused (size ▸ admits)

/-- The first frame of a stream is determined by the stream. -/
theorem Splits.of_frame {payload tail rest : List α} {payloads : List (List α)}
    (admits : f.Admits payload.length) (splits : f.Splits (f.frame payload ++ tail) payloads rest) :
    ∃ more, payloads = payload :: more ∧ f.Splits tail more rest := by
  cases payloads with
  | nil =>
    have same : rest = f.frame payload ++ tail := by simpa using splits.stream_eq.symm
    exact absurd (same ▸ splits.stops) (not_stops_frame admits tail)
  | cons first more =>
    have equal := splits.stream_eq
    rw [List.flatMap_cons, List.append_assoc] at equal
    have firstAdmits := splits.admitted first (List.mem_cons_self ..)
    have sizes : payload.length = first.length := by
      rw [← size_frame admits tail, equal, size_frame firstAdmits]
    have parts := List.append_inj equal (by rw [frame_length, frame_length, sizes])
    have payloadEq : payload = first := by
      have frames := parts.1
      rw [frame, frame, sizes] at frames
      exact List.append_cancel_left frames
    refine ⟨more, by rw [payloadEq], parts.2, ?_, splits.stops⟩
    exact fun other member => splits.admitted other (List.mem_cons_of_mem _ member)

/-- Whole admitted frames in front of a stream extend its decomposition. -/
theorem Splits.prepend {tail rest : List α} {first payloads : List (List α)}
    (admitted : ∀ payload ∈ first, f.Admits payload.length) (splits : f.Splits tail payloads rest) :
    f.Splits (first.flatMap f.frame ++ tail) (first ++ payloads) rest := by
  refine ⟨?_, ?_, splits.stops⟩
  · rw [List.flatMap_append, List.append_assoc, ← splits.stream_eq]
  · intro payload member
    rcases List.mem_append.mp member with member | member
    · exact admitted payload member
    · exact splits.admitted payload member

/-- Frames already decoded are the first frames of every decomposition of the stream. -/
theorem Splits.of_frames {tail rest : List α} {seen payloads : List (List α)}
    (admitted : ∀ payload ∈ seen, f.Admits payload.length)
    (splits : f.Splits (seen.flatMap f.frame ++ tail) payloads rest) :
    ∃ more, payloads = seen ++ more ∧ f.Splits tail more rest := by
  induction seen generalizing payloads with
  | nil => exact ⟨payloads, rfl, by simpa using splits⟩
  | cons first seen ih =>
    rw [List.flatMap_cons, List.append_assoc] at splits
    obtain ⟨later, rfl, tailSplits⟩ := splits.of_frame (admitted first (List.mem_cons_self ..))
    obtain ⟨more, rfl, moreSplits⟩ :=
      ih (fun payload member => admitted payload (List.mem_cons_of_mem _ member)) tailSplits
    exact ⟨more, rfl, moreSplits⟩

/-- At a rest that stops, no further frame is decoded. -/
theorem Splits.of_stops {tail rest : List α} {payloads : List (List α)}
    (stops : f.Incomplete tail ∨ f.Rejected tail) (splits : f.Splits tail payloads rest) :
    payloads = [] ∧ rest = tail := by
  cases payloads with
  | nil => exact ⟨rfl, by simpa using splits.stream_eq.symm⟩
  | cons first more =>
    have equal := splits.stream_eq
    rw [List.flatMap_cons, List.append_assoc] at equal
    exact absurd (equal ▸ stops)
      (not_stops_frame (splits.admitted first (List.mem_cons_self ..)) _)

/-- A stream has at most one decomposition. -/
theorem Splits.unique {stream rest rest' : List α} {payloads payloads' : List (List α)}
    (first : f.Splits stream payloads rest) (second : f.Splits stream payloads' rest') :
    payloads = payloads' ∧ rest = rest' := by
  obtain ⟨more, rfl, tail⟩ := Splits.of_frames first.admitted (first.stream_eq ▸ second)
  obtain ⟨rfl, rfl⟩ := tail.of_stops first.stops
  exact ⟨(List.append_nil _).symm, rfl⟩

/-- A whole admitted frame at the front of a stream can be cut off. -/
theorem frame_of_length {stream : List α} (admits : f.Admits (f.size (stream.take f.width)))
    (enough : f.width + f.size (stream.take f.width) ≤ stream.length) :
    stream = f.frame ((stream.drop f.width).take (f.size (stream.take f.width))) ++
      stream.drop (f.width + f.size (stream.take f.width)) := by
  have payloadLength : ((stream.drop f.width).take (f.size (stream.take f.width))).length =
      f.size (stream.take f.width) := by
    rw [List.length_take, List.length_drop]
    omega
  have headerEq := f.header_size (stream.take f.width)
    (by rw [List.length_take]; omega) admits.1 admits.2
  rw [frame, payloadLength, headerEq, List.append_assoc, ← List.drop_drop, List.take_append_drop,
    List.take_append_drop]

/-- Every stream has a decomposition. -/
theorem exists_splits (stream : List α) :
    ∃ payloads rest, f.Splits stream payloads rest := by
  induction size : stream.length using Nat.strongRecOn generalizing stream with
  | ind n ih =>
    by_cases short : stream.length < f.width
    · exact ⟨[], stream, rfl, by simp, .inl (.inl short)⟩
    by_cases admits : f.Admits (f.size (stream.take f.width))
    · by_cases missing : stream.length < f.width + f.size (stream.take f.width)
      · exact ⟨[], stream, rfl, by simp, .inl (.inr ⟨admits, missing⟩)⟩
      · have cut := frame_of_length admits (Nat.not_lt.mp missing)
        set payload := (stream.drop f.width).take (f.size (stream.take f.width)) with payloadDef
        set tail := stream.drop (f.width + f.size (stream.take f.width)) with tailDef
        have payloadLength : payload.length = f.size (stream.take f.width) := by
          rw [payloadDef, List.length_take, List.length_drop]
          omega
        obtain ⟨payloads, rest, splits⟩ := ih tail.length
          (by have := admits.1; rw [tailDef, List.length_drop]; omega) tail rfl
        refine ⟨payload :: payloads, rest, ?_, ?_, splits.stops⟩
        · rw [List.flatMap_cons, List.append_assoc, ← splits.stream_eq]
          exact cut
        · intro other member
          rcases List.mem_cons.mp member with rfl | member
          · exact payloadLength ▸ admits
          · exact splits.admitted other member
    · exact ⟨[], stream, rfl, by simp, .inr ⟨Nat.not_lt.mp short, admits⟩⟩

/-- A rest cannot both wait for symbols and refuse its header. -/
theorem Incomplete.not_rejected {rest : List α} (incomplete : f.Incomplete rest) :
    ¬ f.Rejected rest := by
  rintro ⟨long, refused⟩
  rcases incomplete with short | ⟨admits, -⟩
  · omega
  · exact refused admits

/-- A refused header stays refused whatever follows it. -/
theorem Rejected.append {rest : List α} (rejected : f.Rejected rest) (more : List α) :
    f.Rejected (rest ++ more) := by
  refine ⟨?_, ?_⟩
  · rw [List.length_append]
    exact Nat.le_add_right_of_le rejected.1
  · rw [List.take_append_of_le_length rejected.1]
    exact rejected.2

/-- What a first part of a stream splits into are the first frames of the stream. -/
theorem Splits.seen_of_append {first more rest rest' : List α} {seen payloads : List (List α)}
    (splits : f.Splits first seen rest) (stream : f.Splits (first ++ more) payloads rest') :
    ∃ later, payloads = seen ++ later := by
  rw [splits.stream_eq, List.append_assoc] at stream
  obtain ⟨later, same, -⟩ := Splits.of_frames splits.admitted stream
  exact ⟨later, same⟩

/-- Behind a refused header nothing is decoded any more. -/
theorem Splits.append_of_rejected {first rest : List α} {seen : List (List α)} (splits : f.Splits first seen rest)
    (rejected : f.Rejected rest) (more : List α) : f.Splits (first ++ more) seen (rest ++ more) where
  stream_eq := by rw [splits.stream_eq, List.append_assoc]
  admitted := splits.admitted
  stops := .inr (rejected.append more)

end LengthPrefix

end ProcessMonitor.Machine
