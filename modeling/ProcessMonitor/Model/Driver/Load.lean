import ProcessMonitor.Machine.Kernel.ProcTree
import ProcessMonitor.Machine.Kernel.Seqlock
import ProcessMonitor.Model.Driver.PmCore

/-! # Loading the driver

`pmfs_init` registers a directory and two files, each of which can fail for want of memory, and
`mydrv_init` reports its result. Unloading cancels the work and removes the subtree, as `pmfs_exit` does if
`root` was set. The rest of the proc tree belongs to others.
-/

namespace ProcessMonitor.Model.Driver

open Machine Machine.Posix Machine.Kernel

/-- `cfg_fops`, `stat_fops`, or the operations of some other entry. -/
inductive ProcOps
  | cfgFops
  | statFops
  | foreign (number : ℕ)
deriving DecidableEq, Repr

abbrev Proc := ProcTree Bytes ProcOps

/-- Whether there is memory for the entry of each call. -/
structure Allocations where
  mkdir : Bool
  config : Bool
  status : Bool
deriving DecidableEq, Repr

def procMkdir (tree : Proc) (name : Bytes) (parent : List Bytes) (allocated : Bool) : Option Proc :=
  if allocated then tree.register parent name .dir else none

def procCreate (tree : Proc) (name : Bytes) (mode : ℕ) (parent : List Bytes) (ops : ProcOps) (allocated : Bool) :
    Option Proc :=
  if allocated then tree.register parent name (.file mode ops) else none

/-- The proc tree, and the static `root` of `pm_procfs.c`. -/
structure Pmfs where
  tree : Proc
  root : Option (List Bytes)

/-- `-ENOMEM` -/
def enomem : ℤ := -12

def pmfsInit (s : Pmfs) (memory : Allocations) : Pmfs × ℤ :=
  match procMkdir s.tree (literal "pm_drv") [] memory.mkdir with
  | none => ({ s with root := none }, enomem)
  | some tree =>
    let root := [literal "pm_drv"]
    match procCreate tree (literal "config") 0o220 root .cfgFops memory.config with
    | none => (⟨tree, some root⟩, enomem)
    | some tree =>
      match procCreate tree (literal "status") 0o444 root .statFops memory.status with
      | none => (⟨tree, some root⟩, enomem)
      | some tree => (⟨tree, some root⟩, 0)

def pmfsExit (s : Pmfs) : Pmfs :=
  match s.root with
  | some _ => ⟨s.tree.removeSubtree [] (literal "pm_drv"), none⟩
  | none => s

/-- What loading and unloading touch, with the lines printed to the kernel log. -/
structure MyDriver where
  pmfs : Pmfs
  pmSeq : Seqlock
  pmWork : DelayedWork Tick
  printed : List Bytes

namespace MyDriver

/-- `"my_driver: pmfs_init failed %d\n"` -/
def failedLine (rc : ℤ) : Bytes :=
  literal "my_driver: pmfs_init failed " ++ (if rc < 0 then literal "-" else []) ++ decimal rc.natAbs ++ literal "\n"

def mydrvInit (d : MyDriver) (memory : Allocations) : MyDriver × ℤ :=
  let (pmfs, rc) := pmfsInit d.pmfs memory
  if rc ≠ 0 then (⟨pmfs, .init, .idle, d.printed ++ [failedLine rc]⟩, rc)
  else (⟨pmfs, .init, .idle, d.printed ++ [literal "my_driver: init\n"]⟩, 0)

/-- `mydrv_exit`, while no call of `cfg_write` is in progress; it waits for a tick that is running. -/
def mydrvExit (d : MyDriver) : Option MyDriver :=
  d.pmWork.cancelSync.map fun work =>
    { d with pmfs := pmfsExit d.pmfs, pmWork := work, printed := d.printed ++ [literal "my_driver: exit\n"] }

end MyDriver

end ProcessMonitor.Model.Driver
