import Mathlib.Data.Int.Basic

/-!
# `int`: 32-bit two's complement arithmetic

A C `int` is modelled by an `Int` that every store passes through `wrap32`. Where no
intermediate value leaves the range the wrap is the identity (`wrap32_of_inRange`), and a
counter that is only ever incremented is the wrap of the number of increments
(`wrap32_succ`), so one `bmod` at the end stands for all of them.

An `unsigned int` is a `UInt32`. A counter that a loop compares with its bound first does not wrap
around either (`toNat_succ_of_lt`).
-/

namespace Labs
namespace Lib

def INT_MAX : Int := 2147483647
def INT_MIN : Int := -2147483648

/-- The value an `int` object holds after `x` is stored in it. -/
def wrap32 (x : Int) : Int := x.bmod 4294967296

/-- `x` is representable as an `int`. -/
def InRange32 (x : Int) : Prop := INT_MIN ≤ x ∧ x ≤ INT_MAX

instance (x : Int) : Decidable (InRange32 x) := inferInstanceAs (Decidable (_ ∧ _))

theorem wrap32_of_inRange {x : Int} (h : InRange32 x) : wrap32 x = x := by
  obtain ⟨hlo, hhi⟩ := h
  unfold INT_MIN at hlo
  unfold INT_MAX at hhi
  exact Int.bmod_eq_of_le (by omega) (by omega)

@[simp] theorem wrap32_zero : wrap32 0 = 0 := wrap32_of_inRange (by decide)

theorem inRange_wrap32 (x : Int) : InRange32 (wrap32 x) := by
  have hlo : -2147483648 ≤ wrap32 x := Int.le_bmod (by omega)
  have hhi : wrap32 x < 2147483648 := Int.bmod_lt (by omega)
  exact ⟨hlo, Int.le_of_lt_add_one hhi⟩

/-- Incrementing a wrapped counter is wrapping the incremented one. -/
theorem wrap32_succ (x : Int) : wrap32 (wrap32 x + 1) = wrap32 (x + 1) :=
  Int.bmod_add_bmod

/-- Adding to a wrapped value, or taking from it, is wrapping what comes of that. -/
theorem wrap32_add (x y : Int) : wrap32 (wrap32 x + y) = wrap32 (x + y) := Int.bmod_add_bmod

theorem wrap32_sub_wrap (x y : Int) : wrap32 (wrap32 x - y) = wrap32 (x - y) :=
  Int.bmod_sub_bmod

/-! ## `unsigned int` -/

/-- A counter that is below another number does not wrap around. -/
theorem toNat_succ_of_lt {counter bound : UInt32} (h : counter < bound) :
    (counter + 1).toNat = counter.toNat + 1 := by
  have hlt := UInt32.lt_iff_toNat_lt.mp h
  have hmax := bound.toNat_lt
  rw [UInt32.toNat_add, UInt32.toNat_one, Nat.mod_eq_of_lt (by omega)]

/-- What is left of the turns of a loop gets less. -/
theorem turns_left_lt {counter bound : UInt32} (h : counter < bound) :
    bound.toNat - (counter + 1).toNat < bound.toNat - counter.toNat := by
  have hlt := UInt32.lt_iff_toNat_lt.mp h
  rw [toNat_succ_of_lt h]
  omega

/-! ## `ssize_t` and `long` -/

def SSIZE_MAX : Int := 9223372036854775807
def LONG_MAX : Int := 9223372036854775807
def LONG_MIN : Int := -9223372036854775808

/-- The value an `ssize_t` or a `long` object holds after `x` is stored in it. -/
def wrap64 (x : Int) : Int := x.bmod 18446744073709551616

theorem wrap64_of_inRange {x : Int} (hlo : -1 ≤ x) (hhi : x ≤ SSIZE_MAX) : wrap64 x = x := by
  unfold SSIZE_MAX at hhi
  exact Int.bmod_eq_of_le (by omega) (by omega)

theorem wrap64_of_long {x : Int} (h0 : 0 ≤ x) (hmax : x ≤ LONG_MAX) : wrap64 x = x :=
  wrap64_of_inRange (Int.le_trans (by decide) h0) hmax

/-- Adding to a wrapped total is wrapping the sum. -/
theorem wrap64_add (x y : Int) : wrap64 (wrap64 x + y) = wrap64 (x + y) :=
  Int.bmod_add_bmod

end Lib
end Labs
