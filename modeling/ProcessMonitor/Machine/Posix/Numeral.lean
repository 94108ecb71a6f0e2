import ProcessMonitor.Machine.Posix.CString
import Mathlib.Data.Int.Notation

/-! # Numerals

`atoi` as the C library computes it: white space, a sign, as many digits as there are, the range of `long` where
these say more, and of that the lower 32 bits. On the numeral of an `int` it is the inverse of printing.
-/

namespace ProcessMonitor.Machine.Posix

namespace Numeral

/-- White space in the C locale. -/
def isspace (c : UInt8) : Bool := c == 32 || 9 ≤ c && c ≤ 13

def isdigit (c : UInt8) : Bool := 48 ≤ c && c ≤ 57

def value (digits : Bytes) : ℕ := digits.foldl (fun n d => 10 * n + (d.toNat - 48)) 0

/-- `%d` -/
def signed (z : ℤ) : Bytes := if z < 0 then 45 :: decimal z.natAbs else decimal z.toNat

end Numeral

open Numeral

/-- `strtol` to base ten. -/
def strtol (s : Bytes) : ℤ :=
  match s.dropWhile isspace with
  | 45 :: digits => max (-2 ^ 63) (-value (digits.takeWhile isdigit))
  | 43 :: digits => min (2 ^ 63 - 1) (value (digits.takeWhile isdigit))
  | digits => min (2 ^ 63 - 1) (value (digits.takeWhile isdigit))

/-- `(int)strtol(s, NULL, 10)` -/
def atoi (s : Bytes) : ℤ := (strtol s).bmod (2 ^ 32)

namespace Numeral

theorem isdigit_of_mem_decimal {n : ℕ} {c : UInt8} (member : c ∈ decimal n) : isdigit c = true := by
  obtain ⟨low, high⟩ := digit_of_mem_decimal member
  simp only [isdigit, Bool.and_eq_true, decide_eq_true_eq, UInt8.le_iff_toNat_le]
  exact ⟨low, high⟩

theorem takeWhile_decimal (n : ℕ) : (decimal n).takeWhile isdigit = decimal n :=
  List.takeWhile_eq_self_iff.mpr fun _ member => isdigit_of_mem_decimal member

/-- The value of a printed number. -/
theorem value_decimal (n : ℕ) : value (decimal n) = n := by
  have same : ∀ m, ∀ c ∈ Nat.toDigits 10 n,
      10 * m + ((UInt8.ofNat c.toNat).toNat - 48) = 10 * m + (c.toNat - '0'.toNat) := by
    intro m c member
    have digit := digit_of_mem_decimal (List.mem_map_of_mem (f := fun c : Char => UInt8.ofNat c.toNat) member)
    have range := Nat.isDigit_of_mem_toDigits (by decide) (by decide) member
    simp only [Char.isDigit, Bool.and_eq_true, decide_eq_true_eq, ge_iff_le, UInt32.le_iff_toNat_le] at range
    change 48 ≤ c.toNat ∧ c.toNat ≤ 57 at range
    have zero : '0'.toNat = 48 := rfl
    rw [UInt8.toNat_ofNat', zero]
    omega
  rw [value, decimal, List.foldl_map, List.foldl_ext _ _ _ same]
  exact Nat.ofDigitChars_toDigits (by decide) (by decide)

theorem decimal_ne_nil (n : ℕ) : decimal n ≠ [] := by
  rw [decimal, Ne, List.map_eq_nil_iff]
  exact List.ne_nil_of_length_pos Nat.length_toDigits_pos

theorem isspace_of_isdigit {c : UInt8} (digit : isdigit c = true) : isspace c = false := by
  simp only [isdigit, isspace] at *
  grind

/-- Digits, also with zeros in front of them. -/
theorem strtol_digits {digits : Bytes} (nonempty : digits ≠ []) (all : ∀ c ∈ digits, isdigit c = true)
    (small : value digits < 2 ^ 63) : strtol digits = value digits := by
  have taken := List.takeWhile_eq_self_iff.mpr all
  obtain ⟨c, rest, rfl⟩ := List.exists_cons_of_ne_nil nonempty
  have digit := all c List.mem_cons_self
  rw [strtol, List.dropWhile_cons_of_neg (Bool.eq_false_iff.mp (isspace_of_isdigit digit))]
  split
  · next same => cases same; cases digit
  · next same => cases same; cases digit
  · rw [taken]
    omega

theorem strtol_decimal {n : ℕ} (small : n < 2 ^ 63) : strtol (decimal n) = n := by
  have read := strtol_digits (decimal_ne_nil n) (fun _ member => isdigit_of_mem_decimal member)
    (by rwa [value_decimal])
  rw [read, value_decimal]

/-- Digits that say no more than an `int` holds are read as what they say. -/
theorem atoi_digits {digits : Bytes} (nonempty : digits ≠ []) (all : ∀ c ∈ digits, isdigit c = true)
    (small : value digits < 2 ^ 31) : atoi digits = value digits := by
  rw [atoi, strtol_digits nonempty all (by omega)]
  exact Int.bmod_eq_of_le (by omega) (by omega)

theorem strtol_minus {n : ℕ} (small : n ≤ 2 ^ 63) : strtol (45 :: decimal n) = -n := by
  change max (-2 ^ 63) (-(value ((decimal n).takeWhile isdigit) : ℤ)) = -n
  rw [takeWhile_decimal, value_decimal]
  omega

/-- Reading the numeral of an `int` gives it back. -/
theorem atoi_signed {z : ℤ} (low : -2 ^ 31 ≤ z) (high : z < 2 ^ 31) : atoi (signed z) = z := by
  have read : strtol (signed z) = z := by
    rw [signed]
    split
    · next negative =>
      rw [strtol_minus (by omega)]
      omega
    · next nonnegative =>
      rw [strtol_decimal (by omega)]
      omega
  rw [atoi, read]
  exact Int.bmod_eq_of_le (by omega) (by omega)

end Numeral

end ProcessMonitor.Machine.Posix
