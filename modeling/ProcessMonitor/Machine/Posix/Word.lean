import Mathlib.Algebra.Group.Nat.Defs
import Mathlib.Data.List.Basic

/-! # Bytes and 32-bit words of a little-endian host

Words are natural numbers below `2 ^ 32`; their memory image is four bytes, least significant
first. `htonl` and `ntohl` swap the four bytes, so the image of a swapped word is the network
(big-endian) order of the original one.
-/

namespace ProcessMonitor.Machine.Posix

/-- A byte string of any length; a NUL byte has no special meaning here. -/
abbrev Bytes := List UInt8

/-- The memory image of a `uint32_t`. -/
def storeU32 (x : ℕ) : Bytes :=
  [UInt8.ofNat x, UInt8.ofNat (x / 2 ^ 8), UInt8.ofNat (x / 2 ^ 16), UInt8.ofNat (x / 2 ^ 24)]

/-- The `uint32_t` whose memory image starts the given bytes. -/
def loadU32 : Bytes → ℕ
  | b₀ :: b₁ :: b₂ :: b₃ :: _ =>
    b₀.toNat + b₁.toNat * 2 ^ 8 + b₂.toNat * 2 ^ 16 + b₃.toNat * 2 ^ 24
  | _ => 0

/-- Reverse the four bytes of a word. -/
def htonl (x : ℕ) : ℕ :=
  x % 2 ^ 8 * 2 ^ 24 + x / 2 ^ 8 % 2 ^ 8 * 2 ^ 16 + x / 2 ^ 16 % 2 ^ 8 * 2 ^ 8 + x / 2 ^ 24 % 2 ^ 8

/-- On this host the two conversions are the same byte reversal. -/
def ntohl (x : ℕ) : ℕ := htonl x

/-- A word assembled from four bytes, least significant first. -/
private def word (a b c d : ℕ) : ℕ := a + b * 2 ^ 8 + c * 2 ^ 16 + d * 2 ^ 24

private theorem word_digits {a b c d : ℕ} (ha : a < 2 ^ 8) (hb : b < 2 ^ 8) (hc : c < 2 ^ 8)
    (hd : d < 2 ^ 8) : word a b c d % 2 ^ 8 = a ∧ word a b c d / 2 ^ 8 % 2 ^ 8 = b ∧
      word a b c d / 2 ^ 16 % 2 ^ 8 = c ∧ word a b c d / 2 ^ 24 % 2 ^ 8 = d := by
  have second : word a b c d / 2 ^ 8 = b + c * 2 ^ 8 + d * 2 ^ 16 := by rw [word]; omega
  have third : word a b c d / 2 ^ 16 = c + d * 2 ^ 8 := by rw [word]; omega
  have fourth : word a b c d / 2 ^ 24 = d := by rw [word]; omega
  rw [second, third, fourth]
  refine ⟨?_, ?_, ?_, ?_⟩
  · rw [word]; omega
  · omega
  · omega
  · omega

private theorem htonl_word {a b c d : ℕ} (ha : a < 2 ^ 8) (hb : b < 2 ^ 8) (hc : c < 2 ^ 8)
    (hd : d < 2 ^ 8) : htonl (word a b c d) = word d c b a := by
  obtain ⟨first, second, third, fourth⟩ := word_digits ha hb hc hd
  rw [htonl, first, second, third, fourth, word]
  omega

private theorem storeU32_word {a b c d : ℕ} (ha : a < 2 ^ 8) (hb : b < 2 ^ 8) (hc : c < 2 ^ 8)
    (hd : d < 2 ^ 8) : storeU32 (word a b c d) =
      [UInt8.ofNat a, UInt8.ofNat b, UInt8.ofNat c, UInt8.ofNat d] := by
  obtain ⟨first, second, third, fourth⟩ := word_digits ha hb hc hd
  simp only [storeU32, List.cons.injEq, and_true, ← UInt8.toNat_inj, UInt8.toNat_ofNat']
  rw [first, second, third, fourth, Nat.mod_eq_of_lt ha, Nat.mod_eq_of_lt hb,
    Nat.mod_eq_of_lt hc, Nat.mod_eq_of_lt hd]
  exact ⟨rfl, rfl, rfl, rfl⟩

private theorem eq_word {x : ℕ} (small : x < 2 ^ 32) :
    ∃ a b c d, a < 2 ^ 8 ∧ b < 2 ^ 8 ∧ c < 2 ^ 8 ∧ d < 2 ^ 8 ∧ x = word a b c d := by
  refine ⟨x % 2 ^ 8, x / 2 ^ 8 % 2 ^ 8, x / 2 ^ 16 % 2 ^ 8, x / 2 ^ 24, ?_, ?_, ?_, ?_, ?_⟩
  · omega
  · omega
  · omega
  · omega
  · rw [word]; omega

/-- The length a peer reads back is the length that was written, below the word size. -/
theorem ntohl_loadU32_storeU32_htonl {x : ℕ} (small : x < 2 ^ 32) :
    ntohl (loadU32 (storeU32 (htonl x))) = x := by
  obtain ⟨a, b, c, d, ha, hb, hc, hd, rfl⟩ := eq_word small
  rw [htonl_word ha hb hc hd, storeU32_word hd hc hb ha]
  simp only [loadU32, UInt8.toNat_ofNat', Nat.mod_eq_of_lt ha, Nat.mod_eq_of_lt hb,
    Nat.mod_eq_of_lt hc, Nat.mod_eq_of_lt hd]
  exact htonl_word hd hc hb ha

theorem htonl_mod (x : ℕ) : htonl (x % 2 ^ 32) = htonl x := by
  simp only [htonl]
  omega

theorem ntohl_lt (x : ℕ) : ntohl x < 2 ^ 32 := by
  simp only [ntohl, htonl]
  omega

/-- Of a longer length the low 32 bits are read back. -/
theorem ntohl_loadU32_storeU32_htonl_mod (x : ℕ) : ntohl (loadU32 (storeU32 (htonl x))) = x % 2 ^ 32 := by
  have small : x % 2 ^ 32 < 2 ^ 32 := Nat.mod_lt x (by decide)
  rw [← ntohl_loadU32_storeU32_htonl small, htonl_mod]

/-- Four bytes are the image of the word they denote. -/
theorem storeU32_htonl_ntohl_loadU32 {bytes : Bytes} (length : bytes.length = 4) :
    storeU32 (htonl (ntohl (loadU32 bytes))) = bytes := by
  match bytes, length with
  | [b₀, b₁, b₂, b₃], _ =>
    change storeU32 (htonl (htonl (word b₀.toNat b₁.toNat b₂.toNat b₃.toNat))) = _
    rw [htonl_word b₀.toNat_lt b₁.toNat_lt b₂.toNat_lt b₃.toNat_lt,
      htonl_word b₃.toNat_lt b₂.toNat_lt b₁.toNat_lt b₀.toNat_lt,
      storeU32_word b₀.toNat_lt b₁.toNat_lt b₂.toNat_lt b₃.toNat_lt]
    simp only [UInt8.ofNat_toNat]

end ProcessMonitor.Machine.Posix
