import Mathlib.Algebra.Order.Ring.Int
import ClickFs.Lib.Str

/-!
# Rust's numbers

`str::parse` for the two integer types that are read from a text. A sign may stand before
the digits, a minus only where the type has negative numbers, and a number outside the
type is no number: it does not wrap and it is not cut off. An empty text, or a sign alone, is
no number either.
-/

set_option autoImplicit false

namespace Rust

/-- The number that decimal digits are, if they are digits and there is one at least. -/
def digitsVal (digits : List Char) : Option Nat :=
  if digits ≠ [] ∧ digits.all Char.isDigit then some (Nat.ofDigitChars 10 digits 0) else none

/-- `parse::<i32>`. The negative range reaches one further than the positive one. -/
def parseI32 (s : String) : Option Int32 :=
  match s.toList with
  | '-' :: digits =>
    (digitsVal digits).bind fun n => if n ≤ 2 ^ 31 then some (Int32.ofInt (-n)) else none
  | '+' :: digits =>
    (digitsVal digits).bind fun n => if n < 2 ^ 31 then some (Int32.ofNat n) else none
  | digits => (digitsVal digits).bind fun n => if n < 2 ^ 31 then some (Int32.ofNat n) else none

/-- `parse::<u64>`. There is no minus, not even before a zero. -/
def parseU64 (s : String) : Option UInt64 :=
  match s.toList with
  | '+' :: digits =>
    (digitsVal digits).bind fun n => if n < 2 ^ 64 then some (UInt64.ofNat n) else none
  | digits => (digitsVal digits).bind fun n => if n < 2 ^ 64 then some (UInt64.ofNat n) else none

theorem digitsVal_eq_some {digits : List Char} {n : Nat} :
    digitsVal digits = some n ↔
      digits ≠ [] ∧ (∀ c ∈ digits, c.isDigit) ∧ Nat.ofDigitChars 10 digits 0 = n := by
  rw [digitsVal, Option.ite_none_right_eq_some, Option.some.injEq, List.all_eq_true, and_assoc]

/-- What is printed is read back, by way of Mathlib's digits of a number. -/
theorem digitsVal_toDigits (n : Nat) : digitsVal (Nat.toDigits 10 n) = some n := by
  rw [digitsVal_eq_some]
  refine ⟨Nat.toDigits_ne_nil, fun c hc => ?_, Nat.ofDigitChars_ten_toDigits⟩
  exact Nat.isDigit_of_mem_toDigits (by decide) (by decide) hc

/-- Digits alone, without a sign: the first character is not taken for one. -/
theorem parseI32_digits {digits : List Char} (hdigits : ∀ c ∈ digits, c.isDigit) :
    parseI32 (String.ofList digits) =
      (digitsVal digits).bind fun n => if n < 2 ^ 31 then some (Int32.ofNat n) else none := by
  rw [parseI32, String.toList_ofList]
  split
  · exact absurd (hdigits '-' List.mem_cons_self) (by decide)
  · exact absurd (hdigits '+' List.mem_cons_self) (by decide)
  · rfl

theorem parseI32_toDigits {n : Nat} (h : n < 2 ^ 31) :
    parseI32 (String.ofList (Nat.toDigits 10 n)) = some (Int32.ofNat n) := by
  have hval := digitsVal_toDigits n
  rw [parseI32_digits (digitsVal_eq_some.mp hval).2.1, hval, Option.bind_some, if_pos h]

example : parseI32 "-7" = some (-7) := by decide

end Rust
