import Mathlib.Data.List.Infix
import Mathlib.Logic.Function.Basic

/-! # The tree of proc entries

Whatever is in the tree is in a directory of it. Registering an entry needs its directory and a free name,
and removing a subtree takes away everything below a name; done to a name that was free before, it undoes
whatever has been registered below it since.
-/

namespace ProcessMonitor.Machine.Kernel

inductive ProcEntry (Ops : Type*)
  | dir
  | file (mode : ℕ) (ops : Ops)
deriving DecidableEq, Repr

/-- A path is written from its last name on, so that its tail is the directory it is in; the empty path is
the root. -/
@[ext]
structure ProcTree (Name Ops : Type*) where
  entry : List Name → Option (ProcEntry Ops)
  root : entry [] = some .dir
  closed : ∀ {name parent found}, entry (name :: parent) = some found → entry parent = some .dir

namespace ProcTree

variable {Name Ops : Type*} [DecidableEq Name] [DecidableEq Ops]

/-- `proc_register`, which refuses a name that is taken. -/
def register (tree : ProcTree Name Ops) (parent : List Name) (name : Name) (new : ProcEntry Ops) :
    Option (ProcTree Name Ops) :=
  if fits : tree.entry parent = some .dir ∧ tree.entry (name :: parent) = none then
    some
      { entry := Function.update tree.entry (name :: parent) (some new)
        root := by rw [Function.update_of_ne (List.cons_ne_nil name parent).symm, tree.root]
        closed := by
          intro other above found there
          have inside : tree.entry above = some .dir := by
            by_cases same : other :: above = name :: parent
            · cases same
              exact fits.1
            · rw [Function.update_of_ne same] at there
              exact tree.closed there
          -- A directory that holds something cannot be at the free name.
          have old : above ≠ name :: parent := by
            rintro rfl
            rw [fits.2] at inside
            cases inside
          rw [Function.update_of_ne old, inside] }
  else none

/-- `remove_proc_subtree` -/
def removeSubtree (tree : ProcTree Name Ops) (parent : List Name) (name : Name) : ProcTree Name Ops where
  entry path := if name :: parent <:+ path then none else tree.entry path
  root := by
    rw [if_neg fun below => List.cons_ne_nil name parent (List.suffix_nil.mp below), tree.root]
  closed := by
    intro other above found there
    split at there
    · cases there
    · next outside =>
      rw [if_neg fun below => outside (below.trans (List.suffix_cons other above))]
      exact tree.closed there

variable {tree : ProcTree Name Ops} {parent : List Name} {name : Name}

theorem exists_register (dir : tree.entry parent = some .dir) (free : tree.entry (name :: parent) = none)
    (new : ProcEntry Ops) :
    ∃ next, tree.register parent name new = some next ∧
      next.entry = Function.update tree.entry (name :: parent) (some new) := by
  rw [register, dif_pos ⟨dir, free⟩]
  exact ⟨_, rfl, rfl⟩

omit [DecidableEq Name] [DecidableEq Ops] in
/-- Nothing is below a name that is free. -/
theorem entry_below {path other : List Name} (free : tree.entry path = none) (below : path <:+ other) :
    tree.entry other = none := by
  obtain ⟨names, rfl⟩ := below
  induction names with
  | nil => exact free
  | cons first names ih =>
    rw [List.cons_append]
    cases there : tree.entry (first :: (names ++ path)) with
    | none => rfl
    | some found =>
      rw [tree.closed there] at ih
      cases ih

omit [DecidableEq Ops] in
/-- Removing the subtree of a name that was free gives back the tree as it was. -/
theorem removeSubtree_eq {before after : ProcTree Name Ops} (free : before.entry (name :: parent) = none)
    (outside : ∀ path, ¬ name :: parent <:+ path → after.entry path = before.entry path) :
    after.removeSubtree parent name = before := by
  apply ProcTree.ext
  funext path
  rw [removeSubtree]
  dsimp only
  split
  · next below => exact (entry_below free below).symm
  · next elsewhere => exact outside path elsewhere

end ProcTree

end ProcessMonitor.Machine.Kernel
