import ProcessMonitor.Model.LocGen.LocMain
import ProcessMonitor.Soundness.BreakerAccounting
import ProcessMonitor.Soundness.DriverLoad
import ProcessMonitor.Soundness.StatusText

/-! # Where the snapshots of locgend come from

locgend never calls `pm_init`, so the breaker of libpm has the settings 0 and 0: every failure opens it until the
moment of the failure, and no later call is turned away. What libpm reads is below `/proc/pm`, which the driver of this
repository does not make. So a snapshot comes from the second attempt, and it is the whole status file of the driver,
whatever room was asked for.
-/

namespace ProcessMonitor.Soundness.SnapshotSources

open Machine Machine.Kernel Machine.Posix Model.Driver Model.LocGen Model.LibPm
open BreakerHistory BreakerAccounting DriverLoad StatusText

/-! ## The breaker without `pm_init` -/

/-- What a loop leaves to the breaker: nothing, or one outcome at its end. -/
structure Left (lib : LibPm) (passes : List Pass) (o : Outcome) : Prop where
  back : o.rc ≠ .again
  ends : ∃ pass ∈ passes, o.ends = pass.ends
  breaker : o.lib.gCb = lib.gCb ∨ ∃ ok, o.lib.gCb = pmBreakerRecord lib.gCb o.ends ok
  trips : o.lib.gStats.breakerTrips = lib.gStats.breakerTrips

theorem retryLoop_left {path : Bytes} {requested t0 : ℕ} {complete : ℕ → Bool} {lib : LibPm} {bo : PmBackoff}
    {passes : List Pass} {o : Outcome} (returned : retryLoop path requested complete t0 lib bo passes = some o) :
    Left lib passes o := by
  have codes : PmRc.ioerr ≠ .again ∧ PmRc.timeout ≠ .again ∧ PmRc.ok ≠ .again := by decide
  obtain ⟨ioerr, timeout, success⟩ := codes
  induction passes generalizing lib bo o with
  | nil => cases returned
  | cons pass passes ih =>
    rw [retryLoop] at returned
    generalize pass.verdict requested complete lib.errno = judged at returned
    obtain ⟨verdict, errno⟩ := judged
    cases verdict with
    | openError =>
      cases returned
      exact ⟨ioerr, ⟨pass, List.mem_cons_self, rfl⟩, .inl rfl, rfl⟩
    | pollTimeout =>
      cases returned
      exact ⟨timeout, ⟨pass, List.mem_cons_self, rfl⟩, .inr ⟨false, rfl⟩, rfl⟩
    | pollError | ioError =>
      cases returned
      exact ⟨ioerr, ⟨pass, List.mem_cons_self, rfl⟩, .inr ⟨false, rfl⟩, rfl⟩
    | success n =>
      cases returned
      exact ⟨success, ⟨pass, List.mem_cons_self, rfl⟩, .inr ⟨true, rfl⟩, rfl⟩
    | retry =>
      dsimp only at returned
      split at returned
      next =>
        cases returned
        exact ⟨timeout, ⟨pass, List.mem_cons_self, rfl⟩, .inr ⟨false, rfl⟩, rfl⟩
      next =>
        obtain ⟨rest, later, rfl⟩ := Option.map_eq_some_iff.mp returned
        obtain ⟨back, ⟨last, member, ends⟩, breaker, trips⟩ := ih later
        exact ⟨back, ⟨last, List.mem_cons_of_mem _ member, ends⟩, breaker, trips⟩

/-- A breaker with the settings 0 and 0, which is due to close whenever it is open. -/
structure Unset (cb : PmBreaker) (now : Instant) : Prop where
  trip : cb.tripThreshold = 0
  half : cb.halfOpenMs = 0
  due : ∃ t : Instant, cb.openUntil = t.toTimespec ∧ t ≤ now

theorem Unset.later {cb : PmBreaker} {now t : Instant} (unset : Unset cb now) (ordered : now ≤ t) : Unset cb t := by
  obtain ⟨trip, half, u, until_, before⟩ := unset
  exact ⟨trip, half, u, until_, Instant.le_trans before ordered⟩

theorem nowMs_instant (t : Instant) : nowMs t.toTimespec = t.ms := by
  apply Tracks.nowMs_eq
  have := t.sec_lt
  have := t.nsec_lt
  omega

/-- It lets every call through, and stays as it was set. -/
theorem Unset.allow {cb : PmBreaker} {now : Instant} (unset : Unset cb now) :
    (pmBreakerAllow cb now).2 = true ∧ Unset (pmBreakerAllow cb now).1 now := by
  obtain ⟨trip, half, t, until_, before⟩ := unset
  rw [pmBreakerAllow]
  split_ifs with shut due
  · exact ⟨rfl, trip, half, t, until_, before⟩
  · exact ⟨rfl, trip, half, t, until_, before⟩
  · refine absurd ?_ due
    rw [until_, nowMs_instant, nowMs_instant]
    exact Instant.ms_mono before

/-- A failure opens it until the moment of the failure. -/
theorem Unset.record {cb : PmBreaker} {now t : Instant} (unset : Unset cb now) (ordered : now ≤ t) (ok : Bool) :
    Unset (pmBreakerRecord cb t ok) t := by
  cases ok with
  | true =>
    obtain ⟨trip, half, due⟩ := unset.later ordered
    exact ⟨trip, half, due⟩
  | false =>
    have shut : cb.tripThreshold ≤ u32 (cb.failN + 1) := by rw [unset.trip]; exact Nat.zero_le _
    rw [pmBreakerRecord, if_neg Bool.false_ne_true, if_pos shut]
    refine ⟨unset.trip, unset.half, t, ?_, Instant.le_refl t⟩
    have sec := t.sec_lt
    have nsec := t.nsec_lt
    have nanos : u64 (t.tvNsec + u64 (cb.halfOpenMs * 1000000)) = t.tvNsec := by
      rw [unset.half]
      simp only [u64]
      omega
    have whole : t.tvNsec / 1000000000 = 0 := Nat.div_eq_of_lt nsec
    have rest : t.tvNsec % 1000000000 = t.tvNsec := Nat.mod_eq_of_lt nsec
    have seconds : u64 t.tvSec = t.tvSec := Nat.mod_eq_of_lt (by omega)
    simp only [nanos, whole, rest, Nat.add_zero, seconds]

/-- No call has been turned away. -/
structure Through (s : Session) : Prop where
  unset : Unset s.lib.gCb s.now
  trips : s.lib.gStats.breakerTrips = 0
  tried : ∀ entry ∈ s.log, entry.outcome.rc ≠ .again

theorem exec_left {call : Call} {lib : LibPm} {script : Script} {o : Outcome}
    (admitted : (pmBreakerAllow lib.gCb script.enter).2 = true) (returned : call.exec lib script = some o) :
    Left { lib with gCb := (pmBreakerAllow lib.gCb script.enter).1 } script.passes o := by
  cases call with
  | readStatus node buflen | readData node buflen | setConfig node payloadLen =>
    have ran : textFile lib _ _ _ script = some o := returned
    rw [textFile_of_allowed admitted] at ran
    exact retryLoop_left ran

theorem through_step (s : Session) (event : Call × Script) (next : Session) (through : Through s)
    (success : s.step event = some next) : Through next := by
  obtain ⟨call, script⟩ := event
  obtain ⟨ordered, success⟩ := Option.ite_none_right_eq_some.mp success
  obtain ⟨o, returned, rfl⟩ := Option.map_eq_some_iff.mp success
  obtain ⟨first, rest⟩ := List.pairwise_cons.mp ordered
  obtain ⟨admitted, allowed⟩ := (through.unset.later (first script.enter List.mem_cons_self)).allow
  obtain ⟨back, ⟨pass, member, ends⟩, breaker, trips⟩ := exec_left admitted returned
  have later : script.enter ≤ o.ends := by
    rw [ends]
    apply List.rel_of_pairwise_cons rest
    exact List.mem_cons_of_mem _ (List.mem_flatMap.mpr ⟨pass, member, by simp⟩)
  refine ⟨?_, trips.trans through.trips, ?_⟩
  · rcases breaker with same | ⟨ok, recorded⟩
    · rw [same]
      exact allowed.later later
    · rw [recorded]
      exact allowed.record later ok
  · intro entry among
    rcases List.mem_append.mp among with older | new
    · exact through.tried entry older
    · rw [List.mem_singleton.mp new]
      exact back

/-- Without `pm_init`, no call of the library is ever turned away by the breaker, however many have failed. -/
theorem unset_never_refuses {now : Instant} {events : List (Call × Script)} {s : Session}
    (ran : Session.machine.run ⟨loaded, now, []⟩ events = some s) :
    s.lib.gStats.breakerTrips = 0 ∧ ∀ entry ∈ s.log, entry.outcome.rc ≠ .again := by
  have due : Unset loaded.gCb now := by
    refine ⟨rfl, rfl, ⟨⟨0, 0⟩, by norm_num, by norm_num⟩, rfl, ?_⟩
    change Timespec.nanos _ ≤ Timespec.nanos _
    simp [Timespec.nanos]
  have start : Through ⟨loaded, now, []⟩ := ⟨due, rfl, by simp⟩
  have through := EventMachine.invariant Through through_step start ran
  exact ⟨through.trips, through.tried⟩

/-- The calls that shut a breaker with the setting 2 at the second failure. -/
theorem unset_never_refuses_failing : ∃ s, Session.machine.run ⟨loaded, atMs 0, []⟩ accountedRun = some s ∧
    s.log.map (fun entry => entry.outcome.rc) = [.ioerr, .timeout, .ok] ∧ s.lib.gStats.breakerTrips = 0 := by
  have evaluated : (Session.machine.run ⟨loaded, atMs 0, []⟩ accountedRun).map
      (fun s => s.log.map fun entry => entry.outcome.rc) = some [.ioerr, .timeout, .ok] := by decide +kernel
  obtain ⟨s, ran, returned⟩ := Option.map_eq_some_iff.mp evaluated
  exact ⟨s, ran, returned, (unset_never_refuses ran).1⟩

/-! ## The proc files that locgend sees -/

/-- The names of a path below `/proc`, the last one first. -/
def namesOf (path : Bytes) : Option (List Bytes) :=
  match path.splitOn 47 with
  | [] :: first :: names => if first = literal "proc" then some names.reverse else none
  | _ => none

/-- What a process sees of a proc tree. The status file reads as `status`, the config file cannot be read, and of the
others nothing is known. Paths that are not below `/proc`, and the environment, are those of `outside`. -/
def viewOf (tree : Proc) (status : Bytes) (superuser : Bool) (foreign : ℕ → Option Bytes) (outside : ProcView) :
    ProcView where
  access path :=
    match namesOf path with
    | none => outside.access path
    | some names =>
      match tree.entry names with
      | some .dir => true
      | some (.file mode _) => superuser || mode / 4 % 2 = 1
      | none => false
  read path :=
    match namesOf path with
    | none => outside.read path
    | some names =>
      match tree.entry names with
      | some (.file _ .statFops) => some status
      | some (.file _ (.foreign number)) => foreign number
      | _ => none
  pmProcRoot := outside.pmProcRoot

section View

variable {tree : Proc} {status : Bytes} {superuser : Bool} {foreign : ℕ → Option Bytes} {outside : ProcView}
  {path : Bytes} {names : List Bytes}

theorem access_missing (here : namesOf path = some names) (missing : tree.entry names = none) :
    (viewOf tree status superuser foreign outside).access path = false := by
  simp only [viewOf, here, missing]

theorem access_dir (here : namesOf path = some names) (there : tree.entry names = some .dir) :
    (viewOf tree status superuser foreign outside).access path = true := by
  simp only [viewOf, here, there]

/-- Nothing is read where there is nothing. -/
theorem tryPath_missing {text : Bytes} (here : namesOf (snprintf 128 text).1 = some names)
    (missing : tree.entry names = none) (buflen : ℕ) :
    tryPath (viewOf tree status superuser foreign outside) text buflen = none := by
  rw [tryPath, access_missing here missing]
  rfl

theorem tryPath_status {text : Bytes} (here : namesOf (snprintf 128 text).1 = some names)
    (there : tree.entry names = some (.file 0o444 .statFops)) (printed : status ≠ []) :
    tryPath (viewOf tree status superuser foreign outside) text 4096 = some (status.take 4095) := by
  have granted : (viewOf tree status superuser foreign outside).access (snprintf 128 text).1 = true := by
    simp [viewOf, here, there]
  have content : (viewOf tree status superuser foreign outside).read (snprintf 128 text).1 = some status := by
    simp [viewOf, here, there]
  have nonempty : (status.take 4095).length ≠ 0 := by
    rw [List.length_take]
    have := List.length_pos_iff.mpr printed
    omega
  simp only [tryPath, granted, if_true, tryReadFile, content]
  exact if_neg nonempty

end View

/-- The entries of a driver that was loaded, or whose load failed, where neither it nor `/proc/pm` was there. -/
structure Entries (tree : Proc) (rc : ℤ) : Prop where
  pm : tree.entry [literal "pm"] = none
  others : ∀ name, name ≠ literal "config" → name ≠ literal "status" → tree.entry [name, literal "pm_drv"] = none
  status : rc = 0 → tree.entry [literal "status", literal "pm_drv"] = some (.file 0o444 .statFops)
  noStatus : rc ≠ 0 → tree.entry [literal "status", literal "pm_drv"] = none

theorem Entries.dir {tree : Proc} {rc : ℤ} (entries : Entries tree rc) (success : rc = 0) :
    tree.entry [literal "pm_drv"] = some .dir := tree.closed (entries.status success)

theorem entries_mydrvInit {d : MyDriver} (noPm : d.pmfs.tree.entry [literal "pm"] = none)
    (absent : d.pmfs.tree.entry [literal "pm_drv"] = none) (memory : Allocations) :
    Entries (d.mydrvInit memory).1.pmfs.tree (d.mydrvInit memory).2 := by
  obtain ⟨made, configured, complete, stages⟩ := exists_stages absent
  obtain ⟨same, result⟩ := mydrvInit_tree d memory
  obtain ⟨madeSame, configuredSame, completeSame⟩ :=
    stages.outside (by decide : ¬ [literal "pm_drv"] <:+ [literal "pm"])
  have free (name : Bytes) : d.pmfs.tree.entry [name, literal "pm_drv"] = none :=
    ProcTree.entry_below absent (List.suffix_cons name _)
  have inMade (name : Bytes) : made.entry [name, literal "pm_drv"] = none := by
    rw [stages.madeEntry, Function.update_of_ne (by simp), free]
  have inConfigured (name : Bytes) (other : name ≠ literal "config") :
      configured.entry [name, literal "pm_drv"] = none := by
    rw [stages.configuredEntry, Function.update_of_ne (by simp [other]), inMade]
  have inComplete (name : Bytes) (other : name ≠ literal "config") (second : name ≠ literal "status") :
      complete.entry [name, literal "pm_drv"] = none := by
    rw [stages.completeEntry, extended, Function.update_of_ne (by simp [second]),
      Function.update_of_ne (by simp [other]), Function.update_of_ne (by simp), free]
  have failed : ¬ enomem = 0 := by decide
  rw [same, result, pmfsInit_eq stages]
  obtain ⟨mkdir, config, file⟩ := memory
  cases mkdir with
  | false =>
    exact (⟨noPm, fun name _ _ => free name, fun zero => absurd zero failed, fun _ => free _⟩ :
      Entries d.pmfs.tree enomem)
  | true =>
    cases config with
    | false =>
      exact (⟨madeSame.trans noPm, fun name _ _ => inMade name, fun zero => absurd zero failed, fun _ => inMade _⟩ :
        Entries made enomem)
    | true =>
      cases file with
      | false =>
        exact (⟨configuredSame.trans noPm, fun name other _ => inConfigured name other, fun zero => absurd zero failed,
          fun _ => inConfigured _ (by decide)⟩ : Entries configured enomem)
      | true =>
        refine (⟨completeSame.trans noPm, inComplete, fun _ => ?_, fun nonzero => absurd rfl nonzero⟩ :
          Entries complete 0)
        rw [stages.completeEntry, extended, Function.update_self]

/-! ## The status file -/

theorem nul_not_mem_decimal (n : ℕ) : 0 ∉ decimal n := by
  intro member
  exact absurd (digit_of_mem_decimal member).1 (by decide)

theorem nul_not_mem_statusText (lines : List (ℕ × PmCpuSnap)) (enabled : Bool) (interval : ℕ) :
    0 ∉ statusText lines enabled interval := by
  have literals : 0 ∉ literal "cpu" ∧ 0 ∉ literal ".usage=" ∧ 0 ∉ literal " ts=" ∧ 0 ∉ literal "\n" ∧
      0 ∉ literal "enabled=" ∧ 0 ∉ literal " interval_ms=" := by decide
  obtain ⟨cpu, usage, ts, line, flag, ms⟩ := literals
  rw [statusText, List.mem_append, not_or]
  constructor
  · intro member
    obtain ⟨entry, -, within⟩ := List.mem_flatMap.mp member
    simp [cpuLine, nul_not_mem_decimal, cpu, usage, ts, line] at within
  · simp [settingsLine, nul_not_mem_decimal, flag, ms, line]

theorem statusText_ne_nil (lines : List (ℕ × PmCpuSnap)) (enabled : Bool) (interval : ℕ) :
    statusText lines enabled interval ≠ [] := by
  intro nothing
  obtain ⟨-, second⟩ := List.append_eq_nil_iff.mp nothing
  have long : (settingsLine enabled interval).length = 0 := by rw [second]; rfl
  rw [settingsLine] at long
  simp only [List.length_append] at long
  have : (literal "enabled=").length = 8 := rfl
  omega

/-! ## What is shown -/

/-- The three types that a room's id can stand for. -/
def roomTypes : List Bytes := [literal "cpu", literal "mem", literal "inf"]

/-- Where the first `open` finds no file, the call of libpm fails. -/
theorem exec_missing {script : Script} {pass : Pass} {passes : List Pass} (calls : script.passes = pass :: passes)
    (refused : pass.openErr = some (.other 2)) (node : PmNode) (buflen : ℕ) :
    ∃ o, (Call.readStatus node buflen).exec loaded script = some o ∧ o.rc ≠ .ok := by
  have admitted : (pmBreakerAllow loaded.gCb script.enter).2 = true := rfl
  have returned : (Call.readStatus node buflen).exec loaded script =
      some ⟨.ioerr, none, { loaded with errno := .other 2 }, [buildPath loaded node .status], [], [], pass.ends⟩ := by
    change textFile loaded _ _ _ script = _
    rw [textFile_of_allowed admitted, calls, retryLoop]
    simp only [Pass.verdict, refused]
    rfl
  exact ⟨_, returned, (by decide : PmRc.ioerr ≠ .ok)⟩

/-- The two roots below `/proc`, and their names there. -/
def roots : List (Bytes × Bytes) :=
  [(literal "/proc/pm", literal "pm"), (literal "/proc/pm_drv", literal "pm_drv")]

/-- None of the paths is cut. -/
theorem namesOf_paths : ∀ root ∈ roots, ∀ type ∈ roomTypes,
    namesOf (snprintf 128 (root.1 ++ literal "/" ++ type ++ literal "/data")).1 = some [literal "data", type, root.2] ∧
    namesOf (snprintf 128 (root.1 ++ literal "/" ++ type ++ literal "/status")).1 =
      some [literal "status", type, root.2] ∧
    namesOf (snprintf 128 (root.1 ++ literal "/data")).1 = some [literal "data", root.2] ∧
    namesOf (snprintf 128 (root.1 ++ literal "/status")).1 = some [literal "status", root.2] := by
  decide

section Shown

variable {tree : Proc} {rc : ℤ} (entries : Entries tree rc) {status : Bytes} (printed : status ≠ [])
  (superuser : Bool) (foreign : ℕ → Option Bytes) (outside : ProcView) {type : Bytes} (known : type ∈ roomTypes)
include entries

/-- Without a readable `PM_PROC_ROOT` the root is one of the two, and that of the driver if it is loaded. -/
theorem getProcRoot_driver
    (ignored : ∀ root ∈ outside.pmProcRoot, (viewOf tree status superuser foreign outside).access root = false) :
    getProcRoot (viewOf tree status superuser foreign outside) = literal "/proc/pm" ∧ rc ≠ 0 ∨
      getProcRoot (viewOf tree status superuser foreign outside) = literal "/proc/pm_drv" := by
  have noPm : (viewOf tree status superuser foreign outside).access (literal "/proc/pm") = false :=
    access_missing (by rfl) entries.pm
  have noRoot : (viewOf tree status superuser foreign outside).pmProcRoot.filter
      (viewOf tree status superuser foreign outside).access = none := by
    rw [Option.filter_eq_none_iff]
    exact fun root given => Bool.eq_false_iff.mp (ignored root given)
  rw [getProcRoot, noPm, noRoot, if_neg Bool.false_ne_true]
  dsimp only
  split_ifs with there
  · exact .inr rfl
  · refine .inl ⟨rfl, fun success => there ?_⟩
    exact access_dir (by rfl) (entries.dir success)

include known

/-- No directory of the type and no data file are there. -/
theorem missing_below {root : Bytes × Bytes} (among : root ∈ roots) :
    (∀ last, tree.entry [last, type, root.2] = none) ∧ tree.entry [literal "data", root.2] = none := by
  have notFile : type ≠ literal "config" ∧ type ≠ literal "status" := by
    simp only [roomTypes, List.mem_cons, List.not_mem_nil, or_false] at known
    rcases known with rfl | rfl | rfl <;> decide
  simp only [roots, List.mem_cons, List.not_mem_nil, or_false] at among
  rcases among with rfl | rfl
  · exact ⟨fun last => ProcTree.entry_below entries.pm ⟨[last, type], rfl⟩,
      ProcTree.entry_below entries.pm ⟨[literal "data"], rfl⟩⟩
  · exact ⟨fun last => ProcTree.entry_below (entries.others type notFile.1 notFile.2) ⟨[last], rfl⟩,
      entries.others _ (by decide) (by decide)⟩

include printed

/-- Only the last place can hold a snapshot. -/
theorem tryPaths_driver {root : Bytes × Bytes} (among : root ∈ roots)
    (last : tree.entry [literal "status", root.2] = if rc = 0 then some (.file 0o444 .statFops) else none) :
    (tryPath (viewOf tree status superuser foreign outside) (root.1 ++ literal "/" ++ type ++ literal "/data") 4096 <|>
      tryPath (viewOf tree status superuser foreign outside)
        (root.1 ++ literal "/" ++ type ++ literal "/status") 4096 <|>
      tryPath (viewOf tree status superuser foreign outside) (root.1 ++ literal "/data") 4096 <|>
      tryPath (viewOf tree status superuser foreign outside) (root.1 ++ literal "/status") 4096) =
        if rc = 0 then some (status.take 4095) else none := by
  obtain ⟨typeData, typeStatus, data, file⟩ := namesOf_paths root among type known
  obtain ⟨noType, noData⟩ := missing_below entries known among
  rw [tryPath_missing typeData (noType _), tryPath_missing typeStatus (noType _), tryPath_missing data noData]
  by_cases success : rc = 0
  · rw [if_pos success] at last ⊢
    exact tryPath_status file last printed
  · rw [if_neg success] at last ⊢
    exact tryPath_missing file last 4096

/-- The snapshot of every type is the status file of the driver, if it is loaded. -/
theorem memShowSnapshot_driver {script : Script} {pass : Pass} {passes : List Pass}
    (calls : script.passes = pass :: passes) (refused : pass.openErr = some (.other 2))
    (ignored : ∀ root ∈ outside.pmProcRoot, (viewOf tree status superuser foreign outside).access root = false) :
    memShowSnapshot (viewOf tree status superuser foreign outside) loaded script type 4096 =
      some (if rc = 0 then some (status.take 4095) else none) := by
  obtain ⟨o, returned, failed⟩ := exec_missing calls refused (mapRoomTypeToNode type) 4096
  rw [memShowSnapshot]
  simp only [returned, Option.bind_eq_bind, Option.bind_some, if_neg failed]
  congr 1
  rcases getProcRoot_driver entries superuser foreign outside ignored with ⟨root, unloaded⟩ | root
  · rw [root]
    apply tryPaths_driver entries printed superuser foreign outside known
      (List.mem_cons_self : (_, literal "pm") ∈ roots)
    rw [if_neg unloaded]
    exact ProcTree.entry_below entries.pm ⟨[literal "status"], rfl⟩
  · rw [root]
    apply tryPaths_driver entries printed superuser foreign outside known
      (List.mem_cons_of_mem _ List.mem_cons_self : (_, literal "pm_drv") ∈ roots)
    split_ifs with success
    · exact entries.status success
    · exact entries.noStatus success

end Shown

/-- The type that `show` guesses from an id. -/
theorem guess_known (id : Bytes) :
    (if (strstr id (literal "cpu")).isSome then literal "cpu"
      else if (strstr id (literal "mem")).isSome then literal "mem" else literal "inf") ∈ roomTypes := by
  split_ifs <;> decide

/-- With the driver as the only monitor and `PM_PROC_ROOT` not set to a readable path, `locgend show ID --via libpm`
prints the beginning of its status file, whatever the id; and if the load of the driver failed, at whatever step, it
reports a failure. -/
theorem show_prints_driver {σ : Type} {ε : Type*} (peer : Endpoint σ ε) {d : MyDriver}
    (noPm : d.pmfs.tree.entry [literal "pm"] = none) (absent : d.pmfs.tree.entry [literal "pm_drv"] = none)
    (memory : Allocations) {online : List ℕ} {events : List StatusFile.Event} {f : StatusFile}
    (ran : StatusFile.machine.run (.start online) events = some f) (done : f.reader = .done)
    {w : LocWorld ε} {superuser : Bool} {foreign : ℕ → Option Bytes} {outside : ProcView}
    (sees : w.view = viewOf (d.mydrvInit memory).1.pmfs.tree f.text superuser foreign outside)
    (ignored : ∀ root ∈ w.view.pmProcRoot, w.view.access root = false) {pass : Pass} {passes : List Pass}
    (calls : w.script.passes = pass :: passes) (refused : pass.openErr = some (.other 2))
    (program id : Bytes) (store : RoomStore) (s : σ) :
    main peer w [program, literal "show", id, literal "--via", literal "libpm"] store s =
      some (if (d.mydrvInit memory).2 = 0 then ⟨s, store, f.text.take 4095 ++ literal "\n", [], 0⟩
        else ⟨s, store, [], literal "Memdata show fail\n", 2⟩) := by
  obtain ⟨lines, enabled, interval, text⟩ := text_of_done online ran done
  have printed : f.text ≠ [] := by rw [text]; exact statusText_ne_nil lines enabled interval
  have string : cstr (f.text.take 4095) = f.text.take 4095 := by
    apply cstr_of_nul_free
    intro member
    rw [text] at member
    exact nul_not_mem_statusText lines enabled interval (List.mem_of_mem_take member)
  have entries := entries_mydrvInit noPm absent memory
  rw [sees] at ignored
  have shown := memShowSnapshot_driver entries printed superuser foreign outside (guess_known id) calls refused ignored
  have command : main peer w [program, literal "show", id, literal "--via", literal "libpm"] store s =
      showRoom peer w id true store s := by
    rw [main]
    rfl
  rw [command, showRoom, sees]
  simp only [if_true, shown, Option.bind_eq_bind, Option.bind_some]
  by_cases success : (d.mydrvInit memory).2 = 0
  · simp only [if_pos success, string]
  · simp only [if_neg success]

/-- A run while the driver is loaded and nothing else, with a status file that holds this text and `PM_PROC_ROOT` set to
a path that is not there. -/
def driverWorld (text : Bytes) : LocWorld Unit where
  file _ := none
  view := viewOf (unloaded.mydrvInit ⟨true, true, true⟩).1.pmfs.tree text false (fun _ => none)
    ⟨fun _ => false, fun _ => none, some (literal "/tmp/pm")⟩
  script := ⟨atMs 0, atMs 0, [{ smooth (atMs 0) with openErr := some (.other 2) }]⟩
  calls _ := ⟨0, []⟩
  fresh i := i

theorem show_prints_driver_cpu : ∃ f, StatusFile.machine.run (.start [0]) (List.replicate 5 .read) = some f ∧
    main ⟨fun s _ _ => (s, [])⟩ (driverWorld f.text)
        [literal "locgend", literal "show", literal "r1", literal "--via", literal "libpm"]
        ⟨fun _ => none, none, 0⟩ () =
      some ⟨(), ⟨fun _ => none, none, 0⟩, f.text.take 4095 ++ literal "\n", [], 0⟩ := by
  obtain ⟨f, ran, done⟩ : ∃ f, StatusFile.machine.run (.start [0]) (List.replicate 5 .read) = some f ∧
      f.reader = .done := ⟨_, rfl, rfl⟩
  have loads : (unloaded.mydrvInit ⟨true, true, true⟩).2 = 0 := rfl
  have ignored : ∀ root ∈ (driverWorld f.text).view.pmProcRoot, (driverWorld f.text).view.access root = false := by
    rintro root ⟨⟩
    rfl
  refine ⟨f, ran, ?_⟩
  rw [show_prints_driver _ (by rfl) (by rfl) ⟨true, true, true⟩ ran done (w := driverWorld f.text) (d := unloaded)
    (by rfl) ignored (by rfl) (by rfl), if_pos loads]

end ProcessMonitor.Soundness.SnapshotSources
