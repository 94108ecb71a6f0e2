import Mathlib.Order.Monotone.Basic
import ProcessMonitor.Soundness.RetryLoop

/-! # The delays of the backoff

`pm_backoff_next` returns the stored delay and stores twice that, up to the maximum. So every delay but the first
has been compared with the maximum. The first is the initial value as the caller gave it, and the delays are
those of a doubling with a cap exactly if that value is not above the maximum.
-/

namespace ProcessMonitor.Soundness.BackoffLaw

open Machine Machine.Posix Model.LibPm
open RetryLoop (Backing backing_init)

/-- The backoff after `k` calls of `pm_backoff_next`. -/
def afterCalls (bo : PmBackoff) : ℕ → PmBackoff
  | 0 => bo
  | k + 1 => (pmBackoffNext (afterCalls bo k)).2

/-- The value returned by the call after `k` others. -/
def delay (bo : PmBackoff) (k : ℕ) : ℕ := (pmBackoffNext (afterCalls bo k)).1

theorem afterCalls_next (bo : PmBackoff) (k : ℕ) : afterCalls (pmBackoffNext bo).2 k = afterCalls bo (k + 1) := by
  induction k with
  | zero => rfl
  | succ k ih =>
    rw [afterCalls, ih]
    rfl

theorem delay_next (bo : PmBackoff) (k : ℕ) : delay (pmBackoffNext bo).2 k = delay bo (k + 1) := by
  rw [delay, afterCalls_next, delay]

/-- The state after every call. -/
theorem afterCalls_eq {bo : PmBackoff} (backing : Backing bo) (k : ℕ) :
    Backing (afterCalls bo k) ∧ (afterCalls bo k).maxUs = bo.maxUs ∧
      (afterCalls bo (k + 1)).curUs = min (bo.curUs * 2 ^ (k + 1)) bo.maxUs := by
  induction k with
  | zero => exact ⟨backing, rfl, backing.curUs_next⟩
  | succ k ih =>
    obtain ⟨before, limit, doubled⟩ := ih
    have after : Backing (afterCalls bo (k + 1)) := before.next
    have same : (afterCalls bo (k + 1)).maxUs = bo.maxUs := limit
    refine ⟨after, same, ?_⟩
    have step : (afterCalls bo (k + 2)).curUs = min ((afterCalls bo (k + 1)).curUs * 2) (afterCalls bo (k + 1)).maxUs :=
      after.curUs_next
    rw [step, doubled, same, pow_succ 2 (k + 1), ← Nat.mul_assoc]
    omega

theorem delay_succ {bo : PmBackoff} (backing : Backing bo) (k : ℕ) :
    delay bo (k + 1) = min (bo.curUs * 2 ^ (k + 1)) bo.maxUs :=
  (afterCalls_eq backing k).2.2

/-- Doubling from `i` up to `m`, over the natural numbers. -/
structure CappedDoubling (i m : ℕ) (delays : ℕ → ℕ) : Prop where
  law : ∀ k, delays k = min (i * 2 ^ k) m
  monotone : Monotone delays
  capped : ∀ k, delays k ≤ m
  nonzero : ∀ k, delays k ≠ 0

theorem CappedDoubling.of_law {i m : ℕ} {delays : ℕ → ℕ} (law : ∀ k, delays k = min (i * 2 ^ k) m) (nonzero : i ≠ 0)
    (limit : m ≠ 0) : CappedDoubling i m delays where
  law := law
  monotone j k le := by
    rw [law, law]
    have grows : i * 2 ^ j ≤ i * 2 ^ k := Nat.mul_le_mul_left i (Nat.pow_le_pow_right Nat.two_pos le)
    omega
  capped k := by
    rw [law]
    exact Nat.min_le_right _ _
  nonzero k := by
    rw [law]
    have positive : 0 < i * 2 ^ k := Nat.mul_pos (Nat.pos_of_ne_zero nonzero) (Nat.two_pow_pos k)
    omega

/-- The initial delay and the maximum that `pm_backoff_init` sets. -/
def initialUs (initUs : UInt32) : ℕ := if initUs = 0 then 100 else initUs.toNat

def maximumUs (maxUs : UInt32) : ℕ := if maxUs = 0 then 20000 else maxUs.toNat

/-- The delays follow the law iff the initial one does. -/
theorem delays_cappedDoubling_iff (initUs maxUs : UInt32) :
    CappedDoubling (initialUs initUs) (maximumUs maxUs) (delay (pmBackoffInit initUs maxUs)) ↔
      initialUs initUs ≤ maximumUs maxUs := by
  have backing := backing_init initUs maxUs
  have first : delay (pmBackoffInit initUs maxUs) 0 = initialUs initUs := rfl
  constructor
  · intro doubling
    rw [← first]
    exact doubling.capped 0
  · intro ordered
    apply CappedDoubling.of_law
    · intro k
      cases k with
      | zero => rw [first, pow_zero, Nat.mul_one, Nat.min_eq_left ordered]
      | succ k => exact delay_succ backing k
    · exact Nat.ne_of_gt backing.delay
    · exact Nat.ne_of_gt backing.max

/-- With an initial delay of 200 and a maximum of 100 microseconds the first delay is above the maximum. -/
theorem first_delay_above_maximum :
    delay (pmBackoffInit 200 100) 0 = 200 ∧ delay (pmBackoffInit 200 100) 1 = 100 ∧
      ¬ CappedDoubling 200 100 (delay (pmBackoffInit 200 100)) := by
  refine ⟨rfl, rfl, fun doubling => ?_⟩
  exact absurd (doubling.capped 0) (by decide)

/-- What a call of the library sleeps are the first delays of its backoff. -/
theorem retryLoop_slept (path : Bytes) {requested t0 : ℕ} {complete : ℕ → Bool} {lib : LibPm} {bo : PmBackoff}
    {passes : List Pass} {o : Outcome} (returned : retryLoop path requested complete t0 lib bo passes = some o) :
    o.slept = (List.range o.slept.length).map (delay bo) := by
  induction passes generalizing lib bo o with
  | nil => cases returned
  | cons pass passes ih =>
    rw [retryLoop] at returned
    generalize pass.verdict requested complete lib.errno = judged at returned
    obtain ⟨verdict, errno⟩ := judged
    cases verdict with
    | openError | pollTimeout | pollError | ioError | success => cases returned; rfl
    | retry =>
      dsimp only at returned
      split at returned
      · cases returned
        rfl
      · obtain ⟨rest, later, rfl⟩ := Option.map_eq_some_iff.mp returned
        have slept := ih later
        have shifted : (List.range rest.slept.length).map (delay (pmBackoffNext bo).2) =
            (List.range rest.slept.length).map (delay bo ∘ Nat.succ) :=
          List.map_congr_left fun k _ => delay_next bo k
        dsimp only
        rw [List.length_cons, List.range_succ_eq_map, List.map_cons, List.map_map, ← shifted, ← slept]
        rfl

end ProcessMonitor.Soundness.BackoffLaw
