import Mathlib.Data.Int.Notation
import Mathlib.Data.List.Basic

/-! # Descriptors and what `epoll` watches

The kernel forgets a registration when its descriptor is closed. A number that is handed out again is a
new descriptor without one, and changing the registration of a descriptor that has none fails.
-/

namespace ProcessMonitor.Machine.Posix

/-- The open descriptors, and those registered for `EPOLLIN`. -/
structure EpollSet where
  opened : List ℤ
  interest : List ℤ
  registered : ∀ fd ∈ interest, fd ∈ opened

namespace EpollSet

def empty : EpollSet := ⟨[], [], nofun⟩

/-- A descriptor with a number that is not in use. -/
def openFd (k : EpollSet) (fd : ℤ) : Option EpollSet :=
  if fd ∈ k.opened then none
  else
    some { k with
      opened := fd :: k.opened
      registered := fun other member => List.mem_cons_of_mem _ (k.registered other member) }

/-- `close(fd)`; of a number that is not open it changes nothing. -/
def closeFd (k : EpollSet) (fd : ℤ) : EpollSet where
  opened := k.opened.filter (· ≠ fd)
  interest := k.interest.filter (· ≠ fd)
  registered := by
    intro other member
    obtain ⟨among, different⟩ := List.mem_filter.mp member
    exact List.mem_filter.mpr ⟨k.registered other among, different⟩

/-- `EPOLL_CTL_ADD` -/
def ctlAdd (k : EpollSet) (fd : ℤ) : EpollSet :=
  if isOpen : fd ∈ k.opened ∧ fd ∉ k.interest then
    { k with
      interest := fd :: k.interest
      registered := List.forall_mem_cons.mpr ⟨isOpen.1, k.registered⟩ }
  else k

/-- `EPOLL_CTL_MOD` with the same events as before, or of a descriptor that is not registered. -/
def ctlMod (k : EpollSet) (_ : ℤ) : EpollSet := k

variable {k next : EpollSet} {fd : ℤ}

theorem openFd_some (success : k.openFd fd = some next) :
    fd ∉ k.opened ∧ next.opened = fd :: k.opened ∧ next.interest = k.interest := by
  rw [openFd] at success
  split at success
  · cases success
  · cases success
    exact ⟨‹_›, rfl, rfl⟩

/-- Nothing is watched once the only descriptor that was is closed. -/
theorem closeFd_interest (only : ∀ other ∈ k.interest, other = fd) : (k.closeFd fd).interest = [] := by
  apply List.filter_eq_nil_iff.mpr
  intro other member
  simp [only other member]

theorem ctlAdd_interest (isOpen : fd ∈ k.opened) (unwatched : k.interest = []) :
    (k.ctlAdd fd).opened = k.opened ∧ (k.ctlAdd fd).interest = [fd] := by
  rw [ctlAdd, dif_pos ⟨isOpen, by simp [unwatched]⟩]
  exact ⟨rfl, congrArg (fd :: ·) unwatched⟩

end EpollSet

end ProcessMonitor.Machine.Posix
