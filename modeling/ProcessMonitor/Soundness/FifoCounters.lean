import ProcessMonitor.Soundness.FifoQueue
import Mathlib.Data.List.Induction
import Mathlib.Order.Bounds.Basic

/-! # What the FIFO's counters count

The statements `m.pushes;`, `m.pops;` and `m.drops;` compute nothing, so the three counters stay at zero
for good, while `max_depth` is kept right by every push. The calls themselves do balance: what was pushed
has been returned, was dropped, or is still in the ring. Counters that stay at zero agree with that
exactly as long as nothing has been pushed.
-/

namespace ProcessMonitor.Soundness.FifoCounters

open Machine Model.Vts FifoQueue

/-- A pop that returned a message. -/
def isMessage : FifoResult → Bool
  | .popped out => out.isSome
  | .pushed _ | .depth _ => false

/-- A push that returned 0. -/
def isDrop : FifoResult → Bool
  | .pushed ret => ret = 0
  | .popped _ | .depth _ => false

/-- Some of the calls, from the first on, left the FIFO at this depth. -/
def Reached (cap : ℕ) (calls : List FifoCall) (depth : ℕ) : Prop :=
  ∃ made s, made <+: calls ∧ FifoHistory.machine.run (.start cap) made = some s ∧ s.fifo.vtsFifoDepth = depth

/-- The metrics agree with the calls made and with what they returned. -/
structure Balances (cap : ℕ) (calls : List FifoCall) (s : FifoHistory) : Prop where
  pushes : s.fifo.m.pushes = calls.countP FifoCall.isPush
  pops : s.fifo.m.pops = s.results.countP isMessage
  drops : s.fifo.m.drops = s.results.countP isDrop
  balance : s.fifo.m.pushes = s.fifo.m.pops + s.fifo.m.drops + s.fifo.vtsFifoDepth
  deepest : IsGreatest {depth | Reached cap calls depth} s.fifo.m.maxDepth

/-- What a call counts as pushed it counts as returned, dropped or kept. -/
theorem counts_call {bound : ℕ} (room : 0 < bound) (L : DropOldest) (c : FifoCall) :
    (L.call bound c).results.countP isMessage + (L.call bound c).results.countP isDrop +
        (L.call bound c).items.length =
      L.results.countP isMessage + L.results.countP isDrop + L.items.length + if c.isPush then 1 else 0 := by
  cases c with
  | push msg =>
    rw [DropOldest.call]
    split
    · next full =>
      simp only [List.countP_append, List.length_append, List.length_tail, List.countP_singleton, isMessage, isDrop,
        FifoCall.isPush, List.length_singleton, decide_true, ↓reduceIte, Bool.false_eq_true]
      omega
    · simp only [List.countP_append, List.length_append, List.countP_singleton, isMessage, isDrop,
        FifoCall.isPush, List.length_singleton, Int.one_ne_zero, decide_false, ↓reduceIte, Bool.false_eq_true]
      omega
  | pop =>
    cases split : L.items with
    | nil => simp [DropOldest.call, split, isMessage, isDrop, FifoCall.isPush]
    | cons oldest rest =>
      simp only [DropOldest.call, split, List.head?_cons, List.tail_cons, List.countP_append, List.countP_singleton,
        isMessage, isDrop, FifoCall.isPush, Option.isSome_some, List.length_cons, ↓reduceIte, Bool.false_eq_true]
      omega
  | depth => simp [DropOldest.call, isMessage, isDrop, FifoCall.isPush]

/-- The calls balance, whatever the counters say. -/
theorem counts_balance {bound : ℕ} (room : 0 < bound) (calls : List FifoCall) (L : DropOldest) :
    (calls.foldl (DropOldest.call bound) L).results.countP isMessage +
        (calls.foldl (DropOldest.call bound) L).results.countP isDrop +
        (calls.foldl (DropOldest.call bound) L).items.length =
      L.results.countP isMessage + L.results.countP isDrop + L.items.length + calls.countP FifoCall.isPush := by
  induction calls generalizing L with
  | nil => rfl
  | cons c calls ih =>
    rw [List.foldl_cons, ih, counts_call room, List.countP_cons]
    omega

/-- Only a push stores metrics that differ, and only in the depth. -/
theorem metrics_call {s next : FifoHistory} {c : FifoCall} (called : s.call c = some next) :
    next.fifo.m = { s.fifo.m with
      maxDepth := if c.isPush then max s.fifo.m.maxDepth next.fifo.vtsFifoDepth else s.fifo.m.maxDepth } := by
  cases c with
  | push msg =>
    obtain ⟨⟨fifo, ret, old⟩, pushed, same⟩ := Option.bind_eq_some_iff.mp called
    cases same
    obtain ⟨rest, stored, -, -, rfl⟩ := Fifo.push_eq_some pushed
    rfl
  | pop =>
    obtain ⟨⟨fifo, out⟩, popped, same⟩ := Option.bind_eq_some_iff.mp called
    cases same
    rw [Fifo.vtsFifoPopSpsc] at popped
    split at popped
    · cases popped
      rfl
    · exact Fifo.takeHead_m popped
  | depth =>
    cases called
    rfl

theorem depth_eq {cap : ℕ} {s : FifoHistory} {L : DropOldest} (refines : Refines cap s L) :
    s.fifo.vtsFifoDepth = L.items.length := by
  obtain ⟨slots, represents⟩ := refines.represents
  exact represents.depth_eq

theorem items_call_le {bound : ℕ} {L : DropOldest} {c : FifoCall} (idle : c.isPush = false) :
    (L.call bound c).items.length ≤ L.items.length := by
  cases c with
  | push msg => cases idle
  | pop => exact (List.tail_sublist L.items).length_le
  | depth => exact Nat.le_refl _

theorem reached_concat {cap depth : ℕ} {calls : List FifoCall} {c : FifoCall} {s : FifoHistory}
    (ran : FifoHistory.machine.run (.start cap) (calls ++ [c]) = some s) :
    Reached cap (calls ++ [c]) depth ↔ Reached cap calls depth ∨ s.fifo.vtsFifoDepth = depth := by
  constructor
  · rintro ⟨made, t, started, reached, deep⟩
    rcases List.prefix_concat_iff.mp started with rfl | earlier
    · rw [ran] at reached
      cases reached
      exact .inr deep
    · exact .inl ⟨made, t, earlier, reached, deep⟩
  · rintro (⟨made, t, started, reached, deep⟩ | deep)
    · exact ⟨made, t, started.trans (List.prefix_append _ _), reached, deep⟩
    · exact ⟨calls ++ [c], s, List.prefix_refl _, ran, deep⟩

/-- After any calls the counters are still zero, and the depth recorded is the largest reached. -/
theorem exists_metered {cap : ℕ} (large : 2 ≤ cap) (calls : List FifoCall) :
    ∃ s, FifoHistory.machine.run (.start cap) calls = some s ∧
      Refines cap s (calls.foldl (DropOldest.call (cap - 1)) .start) ∧
      s.fifo.m = ⟨0, 0, 0, s.fifo.m.maxDepth⟩ ∧
      IsGreatest {depth | Reached cap calls depth} s.fifo.m.maxDepth := by
  induction calls using List.reverseRecOn with
  | nil =>
    refine ⟨.start cap, rfl, refines_start large, rfl, ⟨[], .start cap, List.prefix_refl _, rfl, rfl⟩, ?_⟩
    rintro depth ⟨made, s, started, reached, deep⟩
    obtain rfl := List.prefix_nil.mp started
    cases reached
    exact Nat.le_of_eq deep.symm
  | append_singleton calls c ih =>
    obtain ⟨s, ran, refines, counters, deepest⟩ := ih
    obtain ⟨next, stepped, refinesNext⟩ := refines_call large s _ c refines
    have reaches : FifoHistory.machine.run (.start cap) (calls ++ [c]) = some next := by
      rw [EventMachine.run_append, ran, Option.bind_some, EventMachine.run_cons, stepped]
      rfl
    have stored := metrics_call stepped
    have greatest : next.fifo.m.maxDepth = max s.fifo.m.maxDepth next.fifo.vtsFifoDepth := by
      rw [stored]
      cases pushes : c.isPush with
      | true => rfl
      | false =>
        have reached : s.fifo.vtsFifoDepth ≤ s.fifo.m.maxDepth := deepest.2 ⟨calls, s, List.prefix_refl _, ran, rfl⟩
        have fewer : next.fifo.vtsFifoDepth ≤ s.fifo.vtsFifoDepth := by
          rw [depth_eq refinesNext, depth_eq refines]
          exact items_call_le pushes
        exact (max_eq_left (fewer.trans reached)).symm
    refine ⟨next, reaches, ?_, ?_, ?_, ?_⟩
    · rw [List.foldl_append]
      exact refinesNext
    · rw [stored, counters]
    · apply (reached_concat reaches).mpr
      rcases Nat.le_total next.fifo.vtsFifoDepth s.fifo.m.maxDepth with before | now
      · rw [greatest, max_eq_left before]
        exact .inl deepest.1
      · exact .inr (greatest.trans (max_eq_right now)).symm
    · intro depth reached
      rw [greatest]
      rcases (reached_concat reaches).mp reached with before | now
      · exact (deepest.2 before).trans (le_max_left _ _)
      · exact now ▸ le_max_right _ _

/-- Whatever is done with a FIFO of at least two slots, its metrics balance exactly when nothing was
pushed. -/
theorem metrics_balance_iff {cap : ℕ} (large : 2 ≤ cap) (calls : List FifoCall) :
    ∃ s, FifoHistory.machine.run (.start cap) calls = some s ∧
      (Balances cap calls s ↔ ∀ c ∈ calls, c.isPush = false) := by
  obtain ⟨s, ran, refines, counters, deepest⟩ := exists_metered large calls
  have balance := counts_balance (show 0 < cap - 1 by omega) calls .start
  simp only [DropOldest.start, List.countP_nil, List.length_nil, Nat.zero_add] at balance
  refine ⟨s, ran, ?_⟩
  constructor
  · intro balances c member
    have none := balances.pushes
    rw [counters] at none
    exact Bool.eq_false_iff.mpr (List.countP_eq_zero.mp none.symm c member)
  · intro idle
    have pushless : calls.countP FifoCall.isPush = 0 :=
      List.countP_eq_zero.mpr fun c member => Bool.eq_false_iff.mp (idle c member)
    have depth := depth_eq refines
    have results := refines.results
    rw [DropOldest.start] at depth results
    rw [← results, ← depth, pushless] at balance
    refine ⟨?_, ?_, ?_, ?_, deepest⟩ <;> rw [counters] <;> dsimp only <;> omega

theorem metrics_balance_of_pops : 2 ≤ 2 ∧ ∃ s, FifoHistory.machine.run (.start 2) [.pop, .depth] = some s ∧
    (Balances 2 [.pop, .depth] s ↔ ∀ c ∈ [FifoCall.pop, .depth], c.isPush = false) :=
  ⟨Nat.le_refl 2, metrics_balance_iff (Nat.le_refl 2) _⟩

/-- One push already leaves `pushes` one behind. -/
theorem metrics_unbalanced_by_push :
    ∃ s, FifoHistory.machine.run (.start 2) [.push none] = some s ∧ ¬ Balances 2 [.push none] s :=
  ⟨_, rfl, fun balances => nomatch balances.pushes⟩

end ProcessMonitor.Soundness.FifoCounters
