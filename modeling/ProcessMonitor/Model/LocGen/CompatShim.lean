import ProcessMonitor.Machine.Posix.Memory
import ProcessMonitor.Model.LocGen.XmlLoader

/-! # The list of rooms as text

`loc_read_rooms` prints the rooms of a file into the buffer of its caller, one `snprintf` behind the other. The
buffer is an object of its own size, which may be larger than the `outlen` the caller admits to. Lengths are
`size_t`: the difference that a count is compared with is taken modulo `2 ^ 64`.
-/

namespace ProcessMonitor.Model.LocGen

open Machine Machine.Posix

/-- `"id=%s type=%s state=%s\n"` -/
def roomLine (r : Room) : Bytes :=
  literal "id=" ++ cstr r.id ++ literal " type=" ++ cstr r.type ++ literal " state=" ++ roomStateStr r.state ++
    literal "\n"

/-- Whether the loop goes on, has found no more space, or has returned because of an error of `snprintf`. -/
inductive ListingStatus
  | running
  | full
  | failed
deriving DecidableEq, Repr

/-- The buffer and `off`. -/
structure Listing where
  out : Bytes
  off : ℕ
  status : ListingStatus
deriving DecidableEq, Repr

namespace Listing

/-- One round of the loop. `snprintf` returns a negative value for a text of more than `INT_MAX` bytes. -/
def writeRoom (outlen : ℕ) (s : Listing) (r : Room) : Option Listing :=
  match s.status with
  | .running => do
    let out ← snprintfAt s.out s.off (if s.off < outlen then outlen - s.off else 0) (roomLine r)
    let wrote := (roomLine r).length
    if 2 ^ 31 ≤ wrote then some { s with out, status := .failed }
    else if (outlen + 2 ^ 64 - s.off) % 2 ^ 64 ≤ wrote then do
      let off := outlen - 1
      let out ← store out off [0]
      some ⟨out, off, .full⟩
    else some ⟨out, s.off + wrote, .running⟩
  | .full | .failed => some s

def machine (outlen : ℕ) : EventMachine Listing Room := ⟨writeRoom outlen⟩

end Listing

/-- The return value and the buffer; a null `out` is `none`. -/
def locReadRooms (file : Option Bytes) : Option Bytes → ℕ → Option (ℤ × Option Bytes)
  | none, _ => some (-1, none)
  | some out, outlen =>
    if outlen = 0 then some (-1, some out)
    else do
      let out ← store out 0 [0]
      match ← locLoadRoomsXml file with
      | (0, some rooms) =>
        let s ← (Listing.machine outlen).run ⟨out, 0, .running⟩ rooms
        some (if s.status = .failed then -1 else 0, some s.out)
      | _ => some (-1, some out)

end ProcessMonitor.Model.LocGen
