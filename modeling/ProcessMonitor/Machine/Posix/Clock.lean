import Mathlib.Algebra.Group.Nat.Defs
import Mathlib.Data.Nat.Basic

/-! # Clock readings

A `timespec` counts seconds and nanoseconds. Truncated to whole milliseconds it is monotone, and adding
whole milliseconds, with the carry from the nanoseconds, adds exactly these.
-/

namespace ProcessMonitor.Machine.Posix

/-- `struct timespec` -/
structure Timespec where
  tvSec : ℕ
  tvNsec : ℕ
deriving DecidableEq, Repr

/-- What a clock returns: less than a second of nanoseconds, and seconds far from the end of the word. -/
structure Instant extends Timespec where
  sec_lt : tvSec < 2 ^ 50
  nsec_lt : tvNsec < 10 ^ 9
deriving DecidableEq

namespace Timespec

/-- The time in whole milliseconds. -/
def ms (t : Timespec) : ℕ := t.tvSec * 1000 + t.tvNsec / 1000000

def nanos (t : Timespec) : ℕ := t.tvSec * 10 ^ 9 + t.tvNsec

def addMs (t : Timespec) (h : ℕ) : Timespec :=
  ⟨t.tvSec + (t.tvNsec + h * 1000000) / 1000000000, (t.tvNsec + h * 1000000) % 1000000000⟩

theorem ms_eq (t : Timespec) : t.ms = t.nanos / 1000000 := by
  rw [ms, nanos]
  omega

theorem ms_addMs (t : Timespec) (h : ℕ) : (t.addMs h).ms = t.ms + h := by
  simp only [ms, addMs]
  omega

end Timespec

namespace Instant

instance : LE Instant := ⟨fun t u => t.nanos ≤ u.nanos⟩

instance (t u : Instant) : Decidable (t ≤ u) := inferInstanceAs (Decidable (t.nanos ≤ u.nanos))

theorem le_refl (t : Instant) : t ≤ t := Nat.le_refl _

theorem le_trans {t u v : Instant} (first : t ≤ u) (second : u ≤ v) : t ≤ v := Nat.le_trans first second

theorem ms_mono {t u : Instant} (ordered : t ≤ u) : t.ms ≤ u.ms := by
  rw [Timespec.ms_eq, Timespec.ms_eq]
  exact Nat.div_le_div_right ordered

end Instant

end ProcessMonitor.Machine.Posix
