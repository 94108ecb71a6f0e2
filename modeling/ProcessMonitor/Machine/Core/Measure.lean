import ProcessMonitor.Machine.Core.Run

/-! # Measures of a run

A weight summed over a list of threads changes with the one thread that moves. Where every step of some
kind lowers a measure, a run of such steps is no longer than the measure at its start, and so some run
of them reaches a state in which none is left to take.
-/

namespace ProcessMonitor.Machine

variable {α : Type*}

/-- The sum of a weight over a list. -/
def tally (weight : α → ℕ) : List α → ℕ
  | [] => 0
  | a :: l => weight a + tally weight l

variable (weight : α → ℕ)

theorem tally_append (first second : List α) :
    tally weight (first ++ second) = tally weight first + tally weight second := by
  induction first with
  | nil => exact (Nat.zero_add _).symm
  | cons a first ih => simp only [List.cons_append, tally, ih, Nat.add_assoc]

theorem tally_map {change : α → α} (same : ∀ a, weight (change a) = weight a) (l : List α) :
    tally weight (l.map change) = tally weight l := by
  induction l with
  | nil => rfl
  | cons a l ih => simp only [List.map_cons, tally, same, ih]

/-- One element is replaced. -/
theorem tally_set {l : List α} {i : ℕ} {old : α} (found : l[i]? = some old) (new : α) :
    tally weight (l.set i new) + weight old = tally weight l + weight new := by
  induction l generalizing i with
  | nil => cases found
  | cons a l ih =>
    cases i with
    | zero =>
      cases found
      simp only [List.set_cons_zero, tally]
      omega
    | succ i =>
      have rest := ih found
      simp only [List.set_cons_succ, tally]
      omega

theorem le_tally {l : List α} {a : α} (member : a ∈ l) : weight a ≤ tally weight l := by
  induction l with
  | nil => cases member
  | cons b l ih =>
    rw [tally]
    rcases List.mem_cons.mp member with rfl | later
    · exact Nat.le_add_right _ _
    · exact Nat.le_trans (ih later) (Nat.le_add_left _ _)

variable {weight}

theorem tally_eq_zero_iff {l : List α} : tally weight l = 0 ↔ ∀ a ∈ l, weight a = 0 := by
  induction l with
  | nil => exact ⟨fun _ => nofun, fun _ => rfl⟩
  | cons b l ih => rw [tally, Nat.add_eq_zero_iff, ih, List.forall_mem_cons]

/-- What the threads hold, after one of them has moved. -/
theorem flatMap_set_perm {β : Type*} (holds : α → List β) {l : List α} {i : ℕ} {old : α}
    (found : l[i]? = some old) (new : α) :
    ((l.set i new).flatMap holds ++ holds old).Perm (l.flatMap holds ++ holds new) := by
  induction l generalizing i with
  | nil => cases found
  | cons a l ih =>
    cases i with
    | zero =>
      cases found
      have moved : ((holds new ++ l.flatMap holds) ++ holds old).Perm (holds old ++ (l.flatMap holds ++ holds new)) :=
        List.perm_append_comm.trans (List.perm_append_comm.append_left _)
      simpa only [List.set_cons_zero, List.flatMap_cons, List.append_assoc] using moved
    | succ i =>
      simp only [List.set_cons_succ, List.flatMap_cons, List.append_assoc]
      exact (ih found).append_left _

namespace EventMachine

variable {σ ε : Type*} {m : EventMachine σ ε}

/-- Where steps of a kind lower a measure, a run of them costs at least its length. -/
theorem length_add_le {keeps : σ → Prop} {kind : ε → Prop} (measure : σ → ℕ)
    (preserved : ∀ s e next, keeps s → kind e → m.step s e = some next → keeps next)
    (lowers : ∀ s e next, keeps s → kind e → m.step s e = some next → measure next < measure s)
    {s t : σ} {es : List ε} (initial : keeps s) (all : ∀ e ∈ es, kind e) (ran : m.run s es = some t) :
    es.length + measure t ≤ measure s := by
  induction es generalizing s with
  | nil =>
    cases ran
    exact Nat.le_of_eq (Nat.zero_add _)
  | cons e es ih =>
    obtain ⟨next, stepped, rest⟩ := Option.bind_eq_some_iff.mp ran
    obtain ⟨first, others⟩ := List.forall_mem_cons.mp all
    have lower := lowers s e next initial first stepped
    have := ih (preserved s e next initial first stepped) others rest
    rw [List.length_cons]
    omega

/-- Where every step is paid for, so is every run. -/
theorem tally_add_le (measure : σ → ℕ) (price cost : ε → ℕ)
    (paid : ∀ s e next, m.step s e = some next → measure next + price e ≤ measure s + cost e)
    {s t : σ} {es : List ε} (ran : m.run s es = some t) :
    measure t + tally price es ≤ measure s + tally cost es := by
  induction es generalizing s with
  | nil =>
    cases ran
    exact Nat.le_refl _
  | cons e es ih =>
    obtain ⟨next, stepped, rest⟩ := Option.bind_eq_some_iff.mp ran
    have first := paid s e next stepped
    have := ih rest
    simp only [tally]
    omega

/-- A record that every step extends is extended by the whole tape. -/
theorem run_appends {β : Type*} (record : σ → List β) (adds : ε → List β)
    (extends_ : ∀ s e next, m.step s e = some next → record next = record s ++ adds e)
    {s t : σ} {es : List ε} (ran : m.run s es = some t) : record t = record s ++ es.flatMap adds := by
  induction es generalizing s with
  | nil =>
    cases ran
    exact (List.append_nil _).symm
  | cons e es ih =>
    obtain ⟨next, stepped, rest⟩ := Option.bind_eq_some_iff.mp ran
    rw [ih rest, extends_ s e next stepped, List.flatMap_cons, List.append_assoc]

end EventMachine

end ProcessMonitor.Machine
