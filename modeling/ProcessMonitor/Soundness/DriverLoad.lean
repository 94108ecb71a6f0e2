import ProcessMonitor.Model.Driver.Load

/-! # What a load leaves in the proc tree

`pmfs_init` gives up where it stands: once the directory is there, a file that cannot be registered leaves
it behind, and possibly the other file, because neither `pmfs_init` nor `mydrv_init` calls `pmfs_exit`. That
call would have been enough, since it restores the tree from wherever `pmfs_init` stopped.
-/

namespace ProcessMonitor.Soundness.DriverLoad

open Machine Machine.Kernel Machine.Posix Model.Driver

/-- The tree with the directory of the driver and its two files. -/
def extended (tree : Proc) : List Bytes → Option (ProcEntry ProcOps) :=
  Function.update
    (Function.update
      (Function.update tree.entry [literal "pm_drv"] (some .dir))
      [literal "config", literal "pm_drv"] (some (.file 0o220 .cfgFops)))
    [literal "status", literal "pm_drv"] (some (.file 0o444 .statFops))

/-- A load that fails has changed nothing, and one that succeeds has added the driver's entries only. -/
structure Clean (before after : Proc) (rc : ℤ) : Prop where
  failed : rc ≠ 0 → after = before
  loaded : rc = 0 → after.entry = extended before

/-- The three entries are registered one after the other. -/
structure Stages (tree made configured complete : Proc) : Prop where
  mkdir : tree.register [] (literal "pm_drv") .dir = some made
  config : made.register [literal "pm_drv"] (literal "config") (.file 0o220 .cfgFops) = some configured
  status : configured.register [literal "pm_drv"] (literal "status") (.file 0o444 .statFops) = some complete
  madeEntry : made.entry = Function.update tree.entry [literal "pm_drv"] (some .dir)
  configuredEntry : configured.entry =
    Function.update made.entry [literal "config", literal "pm_drv"] (some (.file 0o220 .cfgFops))
  completeEntry : complete.entry = extended tree

/-- Where the driver is not loaded, only memory can be missing. -/
theorem exists_stages {tree : Proc} (absent : tree.entry [literal "pm_drv"] = none) :
    ∃ made configured complete, Stages tree made configured complete := by
  have free (name : Bytes) : tree.entry [name, literal "pm_drv"] = none :=
    ProcTree.entry_below absent (List.suffix_cons name _)
  obtain ⟨made, mkdir, madeEntry⟩ := ProcTree.exists_register tree.root absent .dir
  have dir : made.entry [literal "pm_drv"] = some .dir := by rw [madeEntry, Function.update_self]
  have noConfig : made.entry [literal "config", literal "pm_drv"] = none := by
    rw [madeEntry, Function.update_of_ne (by decide), free]
  obtain ⟨configured, config, configuredEntry⟩ :=
    ProcTree.exists_register dir noConfig (.file 0o220 .cfgFops)
  have still : configured.entry [literal "pm_drv"] = some .dir := by
    rw [configuredEntry, Function.update_of_ne (by decide), dir]
  have noStatus : configured.entry [literal "status", literal "pm_drv"] = none := by
    rw [configuredEntry, Function.update_of_ne (by decide), madeEntry, Function.update_of_ne (by decide), free]
  obtain ⟨complete, status, completeEntry⟩ :=
    ProcTree.exists_register still noStatus (.file 0o444 .statFops)
  refine ⟨made, configured, complete, mkdir, config, status, madeEntry, configuredEntry, ?_⟩
  rw [completeEntry, configuredEntry, madeEntry, extended]

/-- How far `pmfs_init` gets is decided by the memory there is. -/
theorem pmfsInit_eq {s : Pmfs} {made configured complete : Proc} (stages : Stages s.tree made configured complete)
    (memory : Allocations) :
    pmfsInit s memory =
      if memory.mkdir then
        if memory.config then
          if memory.status then (⟨complete, some [literal "pm_drv"]⟩, 0)
          else (⟨configured, some [literal "pm_drv"]⟩, enomem)
        else (⟨made, some [literal "pm_drv"]⟩, enomem)
      else ({ s with root := none }, enomem) := by
  obtain ⟨mkdir, config, status⟩ := memory
  cases mkdir with
  | false => rfl
  | true =>
    simp only [pmfsInit, procMkdir, ↓reduceIte, stages.mkdir]
    cases config with
    | false => rfl
    | true =>
      simp only [procCreate, ↓reduceIte, stages.config]
      cases status with
      | false => rfl
      | true => simp only [↓reduceIte, stages.status]

theorem mydrvInit_tree (d : MyDriver) (memory : Allocations) :
    (d.mydrvInit memory).1.pmfs = (pmfsInit d.pmfs memory).1 ∧ (d.mydrvInit memory).2 = (pmfsInit d.pmfs memory).2 := by
  rw [MyDriver.mydrvInit]
  dsimp only
  split
  · exact ⟨rfl, rfl⟩
  · next returned => exact ⟨rfl, (not_not.mp returned).symm⟩

/-- Every stage is outside the driver's directory as the tree was. -/
theorem Stages.outside {tree made configured complete : Proc} (stages : Stages tree made configured complete)
    {path : List Bytes} (elsewhere : ¬ [literal "pm_drv"] <:+ path) :
    made.entry path = tree.entry path ∧ configured.entry path = tree.entry path ∧
      complete.entry path = tree.entry path := by
  have notDir : path ≠ [literal "pm_drv"] := by
    rintro rfl
    exact elsewhere List.suffix_rfl
  have notFile (name : Bytes) : path ≠ [name, literal "pm_drv"] := by
    rintro rfl
    exact elsewhere (List.suffix_cons name _)
  have madeSame : made.entry path = tree.entry path := by rw [stages.madeEntry, Function.update_of_ne notDir]
  have configuredSame : configured.entry path = tree.entry path := by
    rw [stages.configuredEntry, Function.update_of_ne (notFile _), madeSame]
  refine ⟨madeSame, configuredSame, ?_⟩
  rw [stages.completeEntry, extended, Function.update_of_ne (notFile _), Function.update_of_ne (notFile _),
    Function.update_of_ne notDir]

/-- `pmfs_exit` restores the tree from wherever `pmfs_init` stopped. -/
theorem pmfsExit_restores {s : Pmfs} (absent : s.tree.entry [literal "pm_drv"] = none) (memory : Allocations) :
    (pmfsExit (pmfsInit s memory).1).tree = s.tree := by
  obtain ⟨made, configured, complete, stages⟩ := exists_stages absent
  have restored {after : Proc}
      (outside : ∀ path, ¬ [literal "pm_drv"] <:+ path → after.entry path = s.tree.entry path) :
      (pmfsExit ⟨after, some [literal "pm_drv"]⟩).tree = s.tree := ProcTree.removeSubtree_eq absent outside
  rw [pmfsInit_eq stages]
  split
  · split
    · split
      · exact restored fun path elsewhere => (stages.outside elsewhere).2.2
      · exact restored fun path elsewhere => (stages.outside elsewhere).2.1
    · exact restored fun path elsewhere => (stages.outside elsewhere).1
  · rfl

/-- A driver that was loaded and is unloaded leaves no trace in the tree. -/
theorem load_exit_restores {d : MyDriver} {memory : Allocations}
    (absent : d.pmfs.tree.entry [literal "pm_drv"] = none) :
    ∃ final, (d.mydrvInit memory).1.mydrvExit = some final ∧ final.pmfs.tree = d.pmfs.tree := by
  have idle : (d.mydrvInit memory).1.pmWork = .idle := by
    rw [MyDriver.mydrvInit]
    dsimp only
    split <;> rfl
  refine ⟨_, by rw [MyDriver.mydrvExit, idle]; rfl, ?_⟩
  rw [← pmfsExit_restores absent memory, ← (mydrvInit_tree d memory).1]

/-- For every tree without the driver, a load is clean exactly when it does not fail after its directory
was made. -/
theorem mydrvInit_clean_iff (d : MyDriver) (absent : d.pmfs.tree.entry [literal "pm_drv"] = none)
    (memory : Allocations) :
    Clean d.pmfs.tree (d.mydrvInit memory).1.pmfs.tree (d.mydrvInit memory).2 ↔
      (memory.mkdir = true → memory.config = true ∧ memory.status = true) := by
  obtain ⟨made, configured, complete, stages⟩ := exists_stages absent
  obtain ⟨sameTree, sameCode⟩ := mydrvInit_tree d memory
  rw [sameTree, sameCode, pmfsInit_eq stages]
  have dirMade : made.entry [literal "pm_drv"] = some .dir := by rw [stages.madeEntry, Function.update_self]
  have dirKept : configured.entry [literal "pm_drv"] = some .dir := by
    rw [stages.configuredEntry, Function.update_of_ne (by decide), dirMade]
  have leftover {after : Proc} (there : after.entry [literal "pm_drv"] = some .dir) :
      ¬ Clean d.pmfs.tree after enomem := by
    intro clean
    rw [clean.failed (by decide), absent] at there
    cases there
  obtain ⟨mkdir, config, status⟩ := memory
  cases mkdir with
  | false => exact ⟨fun _ => nofun, fun _ => ⟨fun _ => rfl, nofun⟩⟩
  | true =>
    cases config with
    | false => exact ⟨fun clean => absurd clean (leftover dirMade), fun all => nomatch (all rfl).1⟩
    | true =>
      cases status with
      | false => exact ⟨fun clean => absurd clean (leftover dirKept), fun all => nomatch (all rfl).2⟩
      | true => exact ⟨fun _ _ => ⟨rfl, rfl⟩, fun _ => ⟨fun failed => absurd rfl failed, fun _ => stages.completeEntry⟩⟩

/-- A tree with nothing in it. -/
def bare : Proc where
  entry path := if path = [] then some .dir else none
  root := rfl
  closed := by
    intro name parent found there
    cases there

def unloaded : MyDriver := ⟨⟨bare, none⟩, .init, .idle, []⟩

theorem mydrvInit_clean_bare : unloaded.pmfs.tree.entry [literal "pm_drv"] = none ∧
    (Clean bare (unloaded.mydrvInit ⟨true, true, true⟩).1.pmfs.tree (unloaded.mydrvInit ⟨true, true, true⟩).2 ↔
      (true = true → true = true ∧ true = true)) :=
  ⟨rfl, mydrvInit_clean_iff unloaded rfl ⟨true, true, true⟩⟩

/-- Without memory for the status file, the directory and the config file stay. -/
theorem mydrvInit_leaves_entries :
    (unloaded.mydrvInit ⟨true, true, false⟩).2 = enomem ∧
      (unloaded.mydrvInit ⟨true, true, false⟩).1.pmfs.tree.entry [literal "config", literal "pm_drv"] =
        some (.file 0o220 .cfgFops) ∧
      ¬ Clean bare (unloaded.mydrvInit ⟨true, true, false⟩).1.pmfs.tree (unloaded.mydrvInit ⟨true, true, false⟩).2 := by
  have there : (unloaded.mydrvInit ⟨true, true, false⟩).1.pmfs.tree.entry [literal "config", literal "pm_drv"] =
      some (.file 0o220 .cfgFops) := by decide
  refine ⟨by decide, there, fun clean => ?_⟩
  rw [clean.failed (by decide)] at there
  cases there

end ProcessMonitor.Soundness.DriverLoad
