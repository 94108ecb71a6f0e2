import ProcessMonitor.Model.LocGen.RoomMemReader
import ProcessMonitor.Model.LocGen.XmlLoader

/-! # locgend

One run of the program, from its arguments to its exit status. It applies a rooms file, with the store of its rooms
on the heap, or gives one command to the server, or prints a snapshot.
-/

namespace ProcessMonitor.Model.LocGen

open Machine Machine.Posix

/-- What the run meets: the contents of the files that can be opened, the proc files and what the system calls of
libpm return, how each command to the server goes, and the addresses that `calloc` returns. -/
structure LocWorld (ε : Type*) where
  file : Bytes → Option Bytes
  view : ProcView
  script : LibPm.Script
  calls : ℕ → Call ε
  fresh : ℕ → ℕ

/-- What the run leaves: the state of the server, the store, what it has printed to both streams, and its exit
status. -/
structure LocEnd (σ : Type) where
  server : σ
  store : RoomStore
  out : Bytes
  err : Bytes
  status : ℤ

def utf8 (text : String) : Bytes := text.toUTF8.data.toList

/-- What `usage` prints. -/
def usageText : Bytes :=
  utf8 "Usage:\n" ++
  utf8 "  locgend --config <file> --apply            # Đồng bộ toàn bộ rooms từ XML vào VTS (upsert + start/stop)\n" ++
  utf8 "  locgend show <room_id> [--via vts|libpm]   # SHOW trạng thái room qua VTS hoặc trực tiếp Memdata\n" ++
  utf8 "  locgend create|edit <id> <type> <started|stopped>\n" ++
  utf8 "  locgend delete <id>\n"

section Run

variable {σ : Type} {ε : Type*} (peer : Endpoint σ ε) (w : LocWorld ε)

/-- The loop of `apply_from_xml` from room `i` on, and what follows it. -/
def applyStored : ℕ → List Room → RoomStore → σ → Option (LocEnd σ)
  | _, [], store, s => do
    let store ← store.roomStoreDeinit
    some ⟨s, store, [], [], 0⟩
  | i, r :: rooms, store, s => do
    let (store, _) ← store.roomStorePut r (w.fresh i)
    let (s, ret) := vtsApplyRoom peer r (w.calls i) s
    if ret ≠ 0 then
      let store ← store.roomStoreDeinit
      some ⟨s, store, [], literal "VTS apply fail for " ++ cstr r.id ++ literal "\n", 2⟩
    else applyStored (i + 1) rooms store s

/-- `apply_from_xml` with its store. -/
def applyFile (path : Bytes) (store : RoomStore) (s : σ) : Option (LocEnd σ) := do
  match ← locLoadRoomsXml (w.file path) with
  | (0, some rooms) => applyStored peer w 0 rooms store.roomStoreInit s
  | _ => some ⟨s, store, [], literal "Load XML fail\n", 1⟩

/-- `show <id>` and its variants with `--via`; the type of the room is guessed from its id. -/
def showRoom (id : Bytes) (viaLibpm : Bool) (store : RoomStore) (s : σ) : Option (LocEnd σ) :=
  if viaLibpm then do
    let type :=
      if (strstr id (literal "cpu")).isSome then literal "cpu"
      else if (strstr id (literal "mem")).isSome then literal "mem"
      else literal "inf"
    match ← memShowSnapshot w.view LibPm.loaded w.script type 4096 with
    | none => some ⟨s, store, [], literal "Memdata show fail\n", 2⟩
    | some out => some ⟨s, store, cstr out ++ literal "\n", [], 0⟩
  else
    let (s, ret, out) := vtsShowRoom peer id 4096 (w.calls 0) s
    if ret ≠ 0 then some ⟨s, store, [], literal "VTS show fail\n", 2⟩
    else some ⟨s, store, cstr out ++ literal "\n", [], 0⟩

/-- The end of a command that the server answers with nothing to print. -/
def report (store : RoomStore) (failure : Bytes) : σ × ℤ → LocEnd σ
  | (s, ret) => if ret ≠ 0 then ⟨s, store, [], failure, 2⟩ else ⟨s, store, literal "OK\n", [], 0⟩

/-- The room that `create` and `edit` fill in with `strncpy`. -/
def roomOfArgs (id type state : Bytes) : Room := ⟨id.take 63, type.take 31, roomStateFromStr state⟩

def main (argv : List Bytes) (store : RoomStore) (s : σ) : Option (LocEnd σ) :=
  let usage : Option (LocEnd σ) := some ⟨s, store, [], usageText, 1⟩
  match argv with
  | _ :: command :: args =>
    if command = literal "--config" then
      match args with
      | path :: flag :: _ => if flag = literal "--apply" then applyFile peer w path store s else usage
      | _ => usage
    else
      match args with
      | [id] =>
        if command = literal "show" then showRoom peer w id false store s
        else if command = literal "delete" then
          some (report store (literal "delete fail\n") (vtsDeleteRoom peer id (w.calls 0) s))
        else usage
      | [id, second, third] =>
        if command = literal "show" then
          showRoom peer w id (second = literal "--via" && third = literal "libpm") store s
        else if command = literal "create" ∨ command = literal "edit" then
          let applied := vtsApplyRoom peer (roomOfArgs id second third) (w.calls 0) s
          some (report store (literal "apply fail\n") applied)
        else usage
      | _ => usage
  | _ => usage

end Run

end ProcessMonitor.Model.LocGen
