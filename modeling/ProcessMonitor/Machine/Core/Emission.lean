import ProcessMonitor.Machine.Core.Run

/-! # What a run puts out

A step may be seen to put something out, by the state it is taken from and by its label. The output of a run is that
of its steps, one after the other. A property of a state and of the tape that led to it, and so of any number of
outputs so far, is proved from one step and holds along every run.
-/

namespace ProcessMonitor.Machine.EventMachine

variable {σ ε β : Type*} (m : EventMachine σ ε)

/-- The output of a tape, up to a label that is refused. -/
def emits (out : σ → ε → List β) : σ → List ε → List β
  | _, [] => []
  | s, e :: es => out s e ++ (m.step s e).elim [] fun next => emits out next es

variable {m}

theorem emits_concat {out : σ → ε → List β} {s t : σ} {es : List ε} (ran : m.run s es = some t) (e : ε) :
    m.emits out s (es ++ [e]) = m.emits out s es ++ out t e := by
  induction es generalizing s with
  | nil =>
    cases ran
    have nothing : (m.step t e).elim [] (fun next => m.emits out next []) = [] := by
      cases m.step t e <;> rfl
    calc m.emits out t [e] = out t e ++ [] := congrArg (out t e ++ ·) nothing
      _ = [] ++ out t e := List.append_nil _
  | cons first es ih =>
    obtain ⟨next, stepped, rest⟩ := Option.bind_eq_some_iff.mp ran
    simp only [List.cons_append, emits, stepped, Option.elim_some, ih rest, List.append_assoc]

/-- What one step preserves, given the tape so far, every run preserves. -/
theorem invariant_history {s : σ} (holds : List ε → σ → Prop)
    (preserved : ∀ past t e next, m.run s past = some t → holds past t → m.step t e = some next →
      holds (past ++ [e]) next)
    (initial : holds [] s) {t : σ} {es : List ε} (ran : m.run s es = some t) : holds es t := by
  have onward : ∀ (es past : List ε) (middle : σ), m.run s past = some middle → holds past middle →
      m.run middle es = some t → holds (past ++ es) t := by
    intro es
    induction es with
    | nil =>
      intro past middle before held rest
      cases rest
      rwa [List.append_nil]
    | cons e es ih =>
      intro past middle before held rest
      obtain ⟨next, stepped, later⟩ := Option.bind_eq_some_iff.mp rest
      have reached : m.run s (past ++ [e]) = some next := by
        rw [run_append, before, Option.bind_some, run_cons, stepped, Option.bind_some, run_nil]
      have whole := ih (past ++ [e]) next reached (preserved past middle e next before held stepped) later
      rwa [List.append_assoc, List.singleton_append] at whole
  exact onward es [] s rfl initial ran

end ProcessMonitor.Machine.EventMachine
