import Mathlib.Data.List.Basic
import Mathlib.Data.List.Nodup

/-! # A stream that several writers put together

Each writer has a frame to put on the stream and puts it there piece by piece. The stream is a
sequence of whole frames, followed by a part of one more, as long as every piece extends the frame
that its writer has put so far and finds no other frame half put. Frames of writers that have put
nothing yet may still change.
-/

namespace ProcessMonitor.Machine

variable {ι α : Type*}

/-- The frames of the writers in `whole`, in that order, then what `current` has put so far; nobody
else has put anything. -/
structure Assembled (frame put : ι → List α) (stream : List α) (whole : List ι) (current : ι) : Prop where
  stream_eq : stream = whole.flatMap frame ++ put current
  distinct : whole.Nodup
  apart : current ∉ whole
  complete : ∀ i ∈ whole, put i = frame i ∧ put i ≠ []
  others : ∀ i, i ≠ current → i ∉ whole → put i = []

namespace Assembled

variable {frame put : ι → List α} {stream : List α} {whole : List ι} {current : ι}

theorem start (frame : ι → List α) (current : ι) : Assembled frame (fun _ => []) [] [] current where
  stream_eq := rfl
  distinct := List.nodup_nil
  apart := List.not_mem_nil
  complete _ member := nomatch member
  others _ _ _ := rfl

/-- The frame of a writer that has put nothing does not matter yet. -/
theorem congr_frame (assembled : Assembled frame put stream whole current) {later : ι → List α}
    (same : ∀ i, put i ≠ [] → later i = frame i) : Assembled later put stream whole current where
  stream_eq := by
    rw [assembled.stream_eq]
    congr 1
    exact List.flatMap_congr fun i member => (same i (assembled.complete i member).2).symm
  distinct := assembled.distinct
  apart := assembled.apart
  complete i member :=
    ⟨(assembled.complete i member).1.trans (same i (assembled.complete i member).2).symm,
      (assembled.complete i member).2⟩
  others := assembled.others

/-- A current frame that is whole joins the others. -/
theorem finish (assembled : Assembled frame put stream whole current) (finished : put current = frame current)
    (begun : put current ≠ []) :
    (whole ++ [current]).Nodup ∧ (∀ i ∈ whole ++ [current], put i = frame i ∧ put i ≠ []) ∧
      stream = (whole ++ [current]).flatMap frame := by
  refine ⟨?_, ?_, ?_⟩
  · exact assembled.distinct.append (List.nodup_singleton current) (List.disjoint_singleton.mpr assembled.apart)
  · intro i member
    rcases List.mem_append.mp member with older | new
    · exact assembled.complete i older
    · rw [List.mem_singleton.mp new]
      exact ⟨finished, begun⟩
  · rw [assembled.stream_eq, finished, List.flatMap_append, List.flatMap_singleton]

variable [DecidableEq ι]

/-- A writer that has put something less than its frame is the current one, and one that has put nothing
can become it where no frame is half put. -/
theorem focus (assembled : Assembled frame put stream whole current) {i : ι} (unfinished : put i ≠ frame i)
    (alone : ∀ j, j ≠ i → put j = [] ∨ put j = frame j) : ∃ whole, Assembled frame put stream whole i := by
  have outside : i ∉ whole := fun member => unfinished (assembled.complete i member).1
  by_cases same : i = current
  · exact ⟨whole, same ▸ assembled⟩
  have silent : put i = [] := assembled.others i same outside
  rcases eq_or_ne (put current) [] with empty | begun
  · refine ⟨whole, ?_, assembled.distinct, outside, assembled.complete, ?_⟩
    · rw [assembled.stream_eq, empty, silent]
    · intro j _ notWhole
      rcases eq_or_ne j current with rfl | other
      exacts [empty, assembled.others j other notWhole]
  · have finished : put current = frame current := (alone current (Ne.symm same)).resolve_left begun
    obtain ⟨distinct, complete, stream_eq⟩ := assembled.finish finished begun
    refine ⟨whole ++ [current], ?_, distinct, ?_, complete, ?_⟩
    · rw [silent, List.append_nil, stream_eq]
    · rw [List.mem_append, List.mem_singleton, not_or]
      exact ⟨outside, same⟩
    · intro j _ notWhole
      rw [List.mem_append, List.mem_singleton, not_or] at notWhole
      exact assembled.others j notWhole.2 notWhole.1

/-- One more piece of a frame, put where no other frame is half put. -/
theorem extend (assembled : Assembled frame put stream whole current) {i : ι} {piece : List α}
    (more : piece ≠ []) (part : put i ++ piece <+: frame i)
    (alone : ∀ j, j ≠ i → put j = [] ∨ put j = frame j) :
    ∃ whole, Assembled frame (Function.update put i (put i ++ piece)) (stream ++ piece) whole i := by
  have unfinished : put i ≠ frame i := by
    intro finished
    have length := part.length_le
    have positive := List.length_pos_iff.mpr more
    rw [← finished, List.length_append] at length
    omega
  obtain ⟨whole, focused⟩ := assembled.focus unfinished alone
  refine ⟨whole, ?_, focused.distinct, focused.apart, ?_, ?_⟩
  · rw [focused.stream_eq, Function.update_self, List.append_assoc]
  · intro j member
    rw [Function.update_of_ne fun same : j = i => focused.apart (same ▸ member)]
    exact focused.complete j member
  · intro j other notWhole
    rw [Function.update_of_ne other]
    exact focused.others j other notWhole

omit [DecidableEq ι] in
/-- The stream read off: frames of distinct writers, and at most one frame in part at the end. -/
theorem split (assembled : Assembled frame put stream whole current) :
    ∃ (finished : List ι) (part : List α), finished.Nodup ∧ (∀ i ∈ finished, put i = frame i ∧ put i ≠ []) ∧
      stream = finished.flatMap frame ++ part ∧
      (part = [] ∨ ∃ i, i ∉ finished ∧ part = put i ∧ put i ≠ [] ∧ put i ≠ frame i) := by
  by_cases finished : put current = frame current ∧ put current ≠ []
  · obtain ⟨distinct, complete, stream_eq⟩ := assembled.finish finished.1 finished.2
    exact ⟨whole ++ [current], [], distinct, complete, stream_eq.trans (List.append_nil _).symm, .inl rfl⟩
  · refine ⟨whole, put current, assembled.distinct, assembled.complete, assembled.stream_eq, ?_⟩
    by_cases empty : put current = []
    · exact .inl empty
    · exact .inr ⟨current, assembled.apart, rfl, empty, fun whole => finished ⟨whole, empty⟩⟩

end Assembled

end ProcessMonitor.Machine
