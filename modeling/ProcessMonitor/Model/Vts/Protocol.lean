import ProcessMonitor.Machine.Core.LengthPrefix
import ProcessMonitor.Machine.Posix.Word

/-! # The VTS wire format

A frame is a four-byte big-endian length followed by the payload. The receiving side calls the
conversion `le32_to_host`; it is `ntohl`, so both ends agree on network order. The frame codec is
the instance of the general one that bounds lengths by `VTS_MAX_FRAME`.
-/

namespace ProcessMonitor.Model.Vts

open Machine Machine.Posix

/-- `VTS_MAX_FRAME`, that is `1<<20`. -/
def vtsMaxFrame : ℕ := 2 ^ 20

def be32 (x : ℕ) : ℕ := htonl x

/-- Despite its name the source defines it as `ntohl`. -/
def le32ToHost (x : ℕ) : ℕ := ntohl x

/-- The codec of VTS headers, with the bounds `read_from_conn` checks. -/
def framing : LengthPrefix UInt8 where
  width := 4
  limit := vtsMaxFrame
  size bytes := le32ToHost (loadU32 bytes)
  header n := storeU32 (be32 n)
  header_length _ := rfl
  size_header n _ bound := by
    apply ntohl_loadU32_storeU32_htonl
    rw [vtsMaxFrame] at bound
    omega
  header_size bytes length _ _ := storeU32_htonl_ntohl_loadU32 length

theorem framing_width : framing.width = 4 := rfl

theorem framing_size (bytes : Bytes) : framing.size bytes = le32ToHost (loadU32 bytes) := rfl

theorem framing_admits (n : ℕ) : framing.Admits n ↔ ¬ (n = 0 ∨ vtsMaxFrame < n) := by
  change 0 < n ∧ n ≤ vtsMaxFrame ↔ _
  omega

end ProcessMonitor.Model.Vts
