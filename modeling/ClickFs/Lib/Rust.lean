import Mathlib.Algebra.Order.Ring.Int
import Mathlib.Data.List.Basic

/-!
# Rust's partial and saturating operations

The operations whose overflow behaviour a Rust program chooses by name. Plain
subtraction and slicing panic outside their domain, which is `none` here, so that
"no subtraction underflows, no slice is out of bounds" is a statement about the
value of the model and not a remark. A model that used Lean's truncated subtraction instead
would make the same statement true by definition.
-/

set_option autoImplicit false

namespace Rust

/-- `u64::saturating_add`: the largest value instead of an overflow. -/
def saturatingAdd (a b : UInt64) : UInt64 :=
  if a.toNat + b.toNat < 2 ^ 64 then a + b else UInt64.ofNat (2 ^ 64 - 1)

/-- `u64::saturating_sub`: zero instead of an underflow. -/
def saturatingSub (a b : UInt64) : UInt64 := if b ≤ a then a - b else 0

/-- `a - b` on `u64`; `none` is the underflow panic. -/
def sub? (a b : UInt64) : Option UInt64 := if b ≤ a then some (a - b) else none

/-- `&xs[lo..hi]`; `none` is the out-of-range panic. -/
def slice? {α : Type*} (xs : List α) (lo hi : Nat) : Option (List α) :=
  if lo ≤ hi ∧ hi ≤ xs.length then some ((xs.drop lo).take (hi - lo)) else none

/-- No Rust allocation is longer than `isize::MAX` bytes. That is why a length added to an offset
    below `u64::MAX / 2` cannot overflow. -/
def isizeMax : Nat := 2 ^ 63 - 1

/-- `x as usize` for an `i64` on a 64-bit target: two's complement, so a negative offset becomes a
    large one. -/
def asUsize (x : Int) : Nat := (x % 2 ^ 64).toNat

theorem saturatingSub_toNat (a b : UInt64) :
    (saturatingSub a b).toNat = a.toNat - b.toNat := by
  unfold saturatingSub
  split
  · rename_i h
    exact UInt64.toNat_sub_of_le a b h
  · rename_i h
    rw [UInt64.le_iff_toNat_le] at h
    rw [UInt64.toNat_zero]
    omega

theorem sub?_of_le {a b : UInt64} (h : b ≤ a) : sub? a b = some (a - b) := if_pos h

theorem slice?_of_le {α : Type*} {xs : List α} {lo hi : Nat} (h₁ : lo ≤ hi)
    (h₂ : hi ≤ xs.length) : slice? xs lo hi = some ((xs.drop lo).take (hi - lo)) :=
  if_pos ⟨h₁, h₂⟩

end Rust
