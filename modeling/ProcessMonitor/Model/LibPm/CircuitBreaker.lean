import ProcessMonitor.Machine.Posix.Clock

/-! # The circuit breaker of libpm

All arithmetic is that of the C types: `uint32_t` for the counter, `uint64_t` for times in milliseconds
and for the carry into the deadline.
-/

namespace ProcessMonitor.Model.LibPm

open Machine Machine.Posix

def u32 (n : ℕ) : ℕ := n % 2 ^ 32

def u64 (n : ℕ) : ℕ := n % 2 ^ 64

/-- `(uint64_t)ts.tv_sec*1000ull + ts.tv_nsec/1000000ull`, as `now_ms` and `pm_breaker_allow` compute it. -/
def nowMs (ts : Timespec) : ℕ := u64 (u64 (ts.tvSec * 1000) + ts.tvNsec / 1000000)

/-- `pm_breaker`; `isOpen` is `open != 0`. -/
structure PmBreaker where
  failN : ℕ
  tripThreshold : ℕ
  halfOpenMs : ℕ
  openUntil : Timespec
  isOpen : Bool
deriving DecidableEq, Repr

def pmBreakerInit (tripThreshold halfOpenMs : UInt32) : PmBreaker where
  failN := 0
  tripThreshold := if tripThreshold = 0 then 8 else tripThreshold.toNat
  halfOpenMs := if halfOpenMs = 0 then 200 else halfOpenMs.toNat
  openUntil := ⟨0, 0⟩
  isOpen := false

/-- At the deadline the breaker closes, so that one more call is tried. -/
def pmBreakerAllow (cb : PmBreaker) (now : Instant) : PmBreaker × Bool :=
  if cb.isOpen = false then (cb, true)
  else if nowMs cb.openUntil ≤ nowMs now.toTimespec then ({ cb with isOpen := false, failN := 0 }, true)
  else (cb, false)

def pmBreakerRecord (cb : PmBreaker) (now : Instant) (ok : Bool) : PmBreaker :=
  if ok = true then { cb with failN := 0 }
  else if cb.tripThreshold ≤ u32 (cb.failN + 1) then
    let ns := u64 (now.tvNsec + u64 (cb.halfOpenMs * 1000000))
    { cb with
      isOpen := true
      openUntil := ⟨u64 (now.tvSec + ns / 1000000000), ns % 1000000000⟩
      failN := 0 }
  else { cb with failN := u32 (cb.failN + 1) }

end ProcessMonitor.Model.LibPm
