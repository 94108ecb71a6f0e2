import ProcessMonitor.Model.LibPm.ProcfsIo

/-! # Snapshots of the monitored data

`mem_show_snapshot` asks libpm for the status file of the room's type, and if that fails looks at four places below
the first root it can read. Paths are cut to the buffer they are formatted in.
-/

namespace ProcessMonitor.Model.LocGen

open Machine Machine.Posix

/-- What the process finds: the paths that `access(path, R_OK)` grants, what a `read` with no limit would deliver
of a file that can be opened and read, and `PM_PROC_ROOT`. -/
structure ProcView where
  access : Bytes → Bool
  read : Bytes → Option Bytes
  pmProcRoot : Option Bytes

def getProcRoot (view : ProcView) : Bytes :=
  if view.access (literal "/proc/pm") then literal "/proc/pm"
  else match view.pmProcRoot.filter view.access with
    | some env => env
    | none => if view.access (literal "/proc/pm_drv") then literal "/proc/pm_drv" else literal "/proc/pm"

/-- The string in the buffer on success. The difference `buflen - 1` is taken in 64 bits. -/
def tryReadFile (view : ProcView) (path : Bytes) (buflen : ℕ) : Option Bytes :=
  match view.read path with
  | none => none
  | some bytes =>
    let read := bytes.take ((buflen + 2 ^ 64 - 1) % 2 ^ 64)
    if read.length = 0 then none else some read

def mapRoomTypeToNode (roomType : Bytes) : LibPm.PmNode :=
  if roomType = literal "cpu" then .cpu
  else if roomType = literal "mem" then .mem
  else if roomType = literal "inf" then .inf
  else .inf

/-- `access(path, R_OK)==0 && try_read_file(path, buf, buflen)==0`, with `path` formatted in 128 bytes. -/
def tryPath (view : ProcView) (text : Bytes) (buflen : ℕ) : Option Bytes :=
  let path := (snprintf 128 text).1
  if view.access path then tryReadFile view path buflen else none

/-- The snapshot, if the call returns 0. The outer `none` is a script of the reading loop of libpm that ends before
the loop does. -/
def memShowSnapshot (view : ProcView) (lib : LibPm.LibPm) (script : LibPm.Script) (roomType : Bytes) (buflen : ℕ) :
    Option (Option Bytes) := do
  let node := mapRoomTypeToNode roomType
  let status ← (LibPm.Call.readStatus node buflen).exec lib script
  if status.rc = .ok then
    some (some (((view.read (LibPm.buildPath lib node .status)).getD []).take (status.count.getD 0)))
  else
    let root := getProcRoot view
    some <|
      tryPath view (root ++ literal "/" ++ roomType ++ literal "/data") buflen <|>
      tryPath view (root ++ literal "/" ++ roomType ++ literal "/status") buflen <|>
      tryPath view (root ++ literal "/data") buflen <|>
      tryPath view (root ++ literal "/status") buflen

end ProcessMonitor.Model.LocGen
