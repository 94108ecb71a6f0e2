import Mathlib.Data.Option.Basic
import Mathlib.Data.List.Basic

/-! # Machines driven by an event tape

A machine has one executable step. A label that is not enabled gives `none`, so every choice a
scheduler, a kernel, or a peer makes is written on the tape and the step itself stays
deterministic. A run replays a finite tape; it composes and splits at any cut. Invariants are
proved from one step and lifted here, once, to every run, also when the steps are known to meet
a side condition in the states they are taken from. A machine of many threads has them at the places
of a list, one of which changes in a step.
-/

namespace ProcessMonitor.Machine

/-- One executable transition; `none` refuses the label. -/
structure EventMachine (σ ε : Type*) where
  step : σ → ε → Option σ

namespace EventMachine

variable {σ ε : Type*} (m : EventMachine σ ε)

/-- Replay a tape from a state; a refused label refuses the whole tape. -/
def run : σ → List ε → Option σ
  | s, [] => some s
  | s, e :: es => (m.step s e).bind fun next => run next es

@[simp] theorem run_nil (s : σ) : m.run s [] = some s := rfl

theorem run_cons (s : σ) (e : ε) (es : List ε) :
    m.run s (e :: es) = (m.step s e).bind fun next => m.run next es := rfl

theorem run_append (s : σ) (first second : List ε) :
    m.run s (first ++ second) = (m.run s first).bind fun middle => m.run middle second := by
  induction first generalizing s with
  | nil => rfl
  | cons e es ih => simp only [List.cons_append, run_cons, ih, Option.bind_assoc]

/-- Every label of the tape meets `guard` in the state it is taken from. -/
def Along (guard : σ → ε → Prop) : σ → List ε → Prop
  | _, [] => True
  | s, e :: es => guard s e ∧ ∀ next, m.step s e = some next → Along guard next es

instance decidableAlong (guard : σ → ε → Prop) [∀ s e, Decidable (guard s e)] :
    (s : σ) → (es : List ε) → Decidable (m.Along guard s es)
  | _, [] => .isTrue trivial
  | s, e :: es =>
    match step : m.step s e with
    | none => decidable_of_iff (guard s e) (by simp [Along, step])
    | some next =>
      have := decidableAlong guard next es
      decidable_of_iff (guard s e ∧ m.Along guard next es) (by simp [Along, step])

variable {m}

/-- A condition on the labels alone. -/
theorem along_of_forall {meets : ε → Prop} {s : σ} {es : List ε} (all : ∀ e ∈ es, meets e) :
    m.Along (fun _ => meets) s es := by
  induction es generalizing s with
  | nil => trivial
  | cons e es ih =>
    exact ⟨all e List.mem_cons_self, fun _ _ => ih fun later member => all later (List.mem_cons_of_mem e member)⟩

theorem along_iff_forall {meets : ε → Prop} {s t : σ} {es : List ε} (success : m.run s es = some t) :
    m.Along (fun _ => meets) s es ↔ ∀ e ∈ es, meets e := by
  refine ⟨fun along => ?_, along_of_forall⟩
  induction es generalizing s with
  | nil => exact fun e member => absurd member List.not_mem_nil
  | cons e es ih =>
    obtain ⟨next, step, rest⟩ := Option.bind_eq_some_iff.mp success
    intro label member
    rcases List.mem_cons.mp member with rfl | later
    · exact along.1
    · exact ih rest (along.2 next step) label later

/-- A tape is guarded if each of its labels is in the state that those before it lead to. -/
theorem along_iff_split {guard : σ → ε → Prop} {s : σ} {es : List ε} :
    m.Along guard s es ↔
      ∀ earlier e later middle, es = earlier ++ e :: later → m.run s earlier = some middle → guard middle e := by
  induction es generalizing s with
  | nil =>
    refine ⟨fun _ earlier e later middle split _ => ?_, fun _ => trivial⟩
    cases earlier <;> cases split
  | cons first es ih =>
    constructor
    · rintro ⟨guarded, rest⟩ earlier e later middle split ran
      cases earlier with
      | nil =>
        cases split
        cases ran
        exact guarded
      | cons _ earlier =>
        cases split
        obtain ⟨next, step, ran⟩ := Option.bind_eq_some_iff.mp ran
        exact ih.mp (rest next step) earlier e later middle rfl ran
    · intro all
      refine ⟨all [] first es s rfl rfl, fun next step => ih.mpr ?_⟩
      intro earlier e later middle split ran
      exact all (first :: earlier) e later middle (by rw [split, List.cons_append])
        (by rw [run_cons, step, Option.bind_some, ran])

theorem along_append {guard : σ → ε → Prop} {s middle : σ} {first second : List ε}
    (before : m.Along guard s first) (ran : m.run s first = some middle) (after : m.Along guard middle second) :
    m.Along guard s (first ++ second) := by
  induction first generalizing s with
  | nil =>
    cases ran
    exact after
  | cons e es ih =>
    refine ⟨before.1, fun next step => ?_⟩
    rw [run_cons, step, Option.bind_some] at ran
    exact ih (before.2 next step) ran

/-- What one guarded step preserves, a guarded run preserves. -/
theorem invariant_along {guard : σ → ε → Prop} (holds : σ → Prop)
    (preserved : ∀ s e next, holds s → guard s e → m.step s e = some next → holds next)
    {s t : σ} {es : List ε} (initial : holds s) (guarded : m.Along guard s es)
    (success : m.run s es = some t) : holds t := by
  induction es generalizing s with
  | nil => cases success; exact initial
  | cons e es ih =>
    obtain ⟨next, step, rest⟩ := Option.bind_eq_some_iff.mp success
    exact ih (preserved s e next initial guarded.1 step) (guarded.2 next step) rest

/-- What one step preserves, every run preserves. -/
theorem invariant (holds : σ → Prop)
    (preserved : ∀ s e next, holds s → m.step s e = some next → holds next)
    {s t : σ} {es : List ε} (initial : holds s) (success : m.run s es = some t) : holds t := by
  induction es generalizing s with
  | nil => cases success; exact initial
  | cons e es ih =>
    obtain ⟨next, step, rest⟩ := Option.bind_eq_some_iff.mp success
    exact ih (preserved s e next initial step) rest

/-- A machine that follows an abstract function step by step follows it along every tape, and so is
never stuck. -/
theorem run_refines {τ : Type*} (refines : σ → τ → Prop) (abstract : τ → ε → τ)
    (step : ∀ s t e, refines s t → ∃ next, m.step s e = some next ∧ refines next (abstract t e))
    {s : σ} {t : τ} (initial : refines s t) (es : List ε) :
    ∃ final, m.run s es = some final ∧ refines final (es.foldl abstract t) := by
  induction es generalizing s t with
  | nil => exact ⟨s, rfl, initial⟩
  | cons e es ih =>
    obtain ⟨next, stepped, related⟩ := step s t e initial
    obtain ⟨final, ran, ends⟩ := ih related
    refine ⟨final, ?_, ends⟩
    rw [run_cons, stepped]
    exact ran

/-- What a guarded step keeps between a state and an abstract one, a guarded run keeps. -/
theorem run_follows {τ : Type*} {guard : σ → ε → Prop} (follows : σ → τ → Prop) (abstract : τ → ε → τ)
    (preserved : ∀ s t e next, follows s t → guard s e → m.step s e = some next → follows next (abstract t e))
    {s final : σ} {t : τ} {es : List ε} (initial : follows s t) (guarded : m.Along guard s es)
    (success : m.run s es = some final) : follows final (es.foldl abstract t) := by
  induction es generalizing s t with
  | nil => cases success; exact initial
  | cons e es ih =>
    obtain ⟨next, step, rest⟩ := Option.bind_eq_some_iff.mp success
    exact ih (preserved s t e next initial guarded.1 step) (guarded.2 next step) rest

/-- A machine each of whose steps is some run of another, seen through `view`, only has runs of the other. The
labels of a kind are those that the steps show. -/
theorem run_projects {τ δ : Type*} {other : EventMachine τ δ} (view : σ → τ) (kind : δ → Bool) (shows : ε → List δ)
    (step : ∀ s e next, m.step s e = some next →
      ∃ tape, other.run (view s) tape = some (view next) ∧ tape.filter kind = shows e)
    {s t : σ} {es : List ε} (success : m.run s es = some t) :
    ∃ tape, other.run (view s) tape = some (view t) ∧ tape.filter kind = es.flatMap shows := by
  induction es generalizing s with
  | nil =>
    cases success
    exact ⟨[], rfl, rfl⟩
  | cons e es ih =>
    obtain ⟨next, stepped, rest⟩ := Option.bind_eq_some_iff.mp success
    obtain ⟨first, ranFirst, shownFirst⟩ := step s e next stepped
    obtain ⟨later, ranLater, shownLater⟩ := ih rest
    refine ⟨first ++ later, ?_, ?_⟩
    · rw [run_append, ranFirst, Option.bind_some, ranLater]
    · rw [List.filter_append, shownFirst, shownLater, List.flatMap_cons]

/-- A machine each of whose steps is some run of another between related states only has runs of the other. What
the machine has recorded in `seen` are the labels that show something, in order. -/
theorem run_simulates {τ δ β : Type*} {other : EventMachine τ δ} (related : σ → τ → Prop) (seen : σ → List β)
    (shows : δ → Option β)
    (step : ∀ s t e next, related s t → m.step s e = some next → ∃ tape after,
      other.run t tape = some after ∧ related next after ∧ seen next = seen s ++ tape.filterMap shows)
    {s final : σ} {t : τ} {es : List ε} (initial : related s t) (success : m.run s es = some final) :
    ∃ tape after, other.run t tape = some after ∧ related final after ∧
      seen final = seen s ++ tape.filterMap shows := by
  induction es generalizing s t with
  | nil =>
    cases success
    exact ⟨[], t, rfl, initial, (List.append_nil _).symm⟩
  | cons e es ih =>
    obtain ⟨next, stepped, rest⟩ := Option.bind_eq_some_iff.mp success
    obtain ⟨first, middle, ranFirst, kept, seenFirst⟩ := step s t e next initial stepped
    obtain ⟨later, after, ranLater, ends, seenLater⟩ := ih kept rest
    refine ⟨first ++ later, after, ?_, ends, ?_⟩
    · rw [run_append, ranFirst, Option.bind_some, ranLater]
    · rw [seenLater, seenFirst, List.filterMap_append, List.append_assoc]

/-- Where each step keeps a property exactly when it meets `guard`, a run ends with the property
exactly when all of it is guarded. -/
theorem holds_iff_along {guard : σ → ε → Prop} (keeps holds : σ → Prop)
    (preserved : ∀ s e next, keeps s → m.step s e = some next → keeps next)
    (exact_step : ∀ s e next, keeps s → m.step s e = some next → (holds next ↔ holds s ∧ guard s e))
    {s t : σ} {es : List ε} (initial : keeps s) (success : m.run s es = some t) :
    holds t ↔ holds s ∧ m.Along guard s es := by
  induction es generalizing s with
  | nil => cases success; exact (and_iff_left trivial).symm
  | cons e es ih =>
    obtain ⟨next, step, rest⟩ := Option.bind_eq_some_iff.mp success
    rw [ih (preserved s e next initial step) rest, exact_step s e next initial step, and_assoc, Along]
    simp only [step, Option.some.injEq, forall_eq']

/-- The same with the guard on an abstract state that the machine follows for as long as the property lasts. -/
theorem holds_iff_along_of_follows {τ : Type*} {guard : τ → ε → Prop} (follows : σ → τ → Prop) (holds : σ → Prop)
    (abstract : τ → ε → τ) (lasting : ∀ s e next, m.step s e = some next → holds next → holds s)
    (exact_step : ∀ s t e next, follows s t → holds s → m.step s e = some next → (holds next ↔ guard t e))
    (preserved : ∀ s t e next, follows s t → guard t e → m.step s e = some next → follows next (abstract t e))
    {s final : σ} {t : τ} {es : List ε} (initial : follows s t) (good : holds s) (success : m.run s es = some final) :
    holds final ↔ (⟨fun t e => some (abstract t e)⟩ : EventMachine τ ε).Along guard t es := by
  induction es generalizing s t with
  | nil =>
    cases success
    exact iff_of_true good trivial
  | cons e es ih =>
    obtain ⟨next, step, rest⟩ := Option.bind_eq_some_iff.mp success
    have first := exact_step s t e next initial good step
    constructor
    · intro last
      have kept : holds next := by
        refine Classical.by_contradiction fun broken => ?_
        exact EventMachine.invariant (fun s => ¬holds s)
          (fun s e next bad step still => bad (lasting s e next step still)) broken rest last
      have guarded := first.mp kept
      refine ⟨guarded, fun after stepped => ?_⟩
      cases stepped
      exact (ih (preserved s t e next initial guarded step) kept rest).mp last
    · rintro ⟨guarded, later⟩
      exact (ih (preserved s t e next initial guarded step) (first.mpr guarded) rest).mpr (later _ rfl)

end EventMachine

/-! ## Threads at the places of a list -/

section Threads

variable {α : Type*} {threads : List α} {i j : ℕ} {new thread : α}

/-- What is at a place after the thread at place `i` has moved. -/
theorem thread_of_set (found : (threads.set i new)[j]? = some thread) :
    j = i ∧ thread = new ∨ i ≠ j ∧ threads[j]? = some thread := by
  rw [List.getElem?_set] at found
  split at found
  next same =>
    split at found
    next => exact .inl ⟨same.symm, (Option.some.inj found).symm⟩
    next => cases found
  next other => exact .inr ⟨other, found⟩

/-- What is at a place after a thread has been added. -/
theorem thread_of_concat (found : (threads ++ [new])[j]? = some thread) :
    j = threads.length ∧ thread = new ∨ j < threads.length ∧ threads[j]? = some thread := by
  have bound := (List.getElem?_eq_some_iff.mp found).1
  rw [List.length_append, List.length_singleton] at bound
  rcases Nat.lt_or_eq_of_le (Nat.le_of_lt_succ bound) with older | rfl
  · rw [List.getElem?_append_left older] at found
    exact .inr ⟨older, found⟩
  · rw [List.getElem?_concat_length] at found
    exact .inl ⟨rfl, (Option.some.inj found).symm⟩

end Threads

end ProcessMonitor.Machine
