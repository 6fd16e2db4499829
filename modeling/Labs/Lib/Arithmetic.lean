import Labs.Lib.CString
import Mathlib.Data.List.DropRight
import Mathlib.Data.Rat.Floor

/-!
# The numbers of a program

A C `double` is a `Float`: binary64, rounded to the nearest, with two zeros, the infinities and one
`NaN`. `Arithmetic` is what a program does with such numbers, besides the four operations: it compares
one with zero, takes a decimal numeral for one, converts from `int` and to `int`, and prints one with
`%g`. A program over an `Arithmetic` can be run in doubles, which is what the processor does, and in the
rationals, where nothing is rounded.

* Zero is not one number. `-0.0` compares equal to `0.0` and is printed as `-0`, so a program's test is
  `isZero`, never an equation.
* `trunc` is what stands in front of the point. An infinity has none, and neither has a `NaN`; whether
  what there is fits an `int` is the program's business.
* `%g` takes six digits. They are those of the number itself, not of a double near it: `sixDigits`
  divides the exact fraction once, and rounds a tie to the even one of two.

Addition and multiplication commute, also in doubles (`float_add_comm`, `float_mul_comm`); nothing else
is asked of an `Arithmetic`.
-/

namespace Labs
namespace Lib

/-! ## 1. `%g` -/

/-- `p / q` to the nearest number, the even one of two. -/
def nearest (p q : Nat) : Nat :=
  let n := p / q
  let twice := 2 * (p % q)
  if q < twice ∨ (twice = q ∧ n % 2 = 1) then n + 1 else n

/-- The power of ten of the first digit of `p / q`. -/
def decimalExponent (p q : Nat) : Int :=
  if q ≤ p then (Nat.digits 10 (p / q)).length - 1 else -(Nat.digits 10 ((q - 1) / p)).length

/-- Six digits of `p / q`, and the power of ten of the first of them. -/
def sixDigits (p q : Nat) : Nat × Int :=
  let e := decimalExponent p q
  let n := if e ≤ 5 then nearest (p * 10 ^ (5 - e).toNat) q else nearest p (q * 10 ^ (e - 5).toNat)
  -- `9.999995` has one digit more when it is rounded
  if n = 1000000 then (100000, e + 1) else (n, e)

/-- A point and digits behind it, without the zeros at their end. -/
def pointed (fraction : List UInt8) : List UInt8 :=
  match fraction.rdropWhile (· == 48) with
  | [] => []
  | ds => ascii "." ++ ds

/-- An exponent has a sign and two digits at least. -/
def exponentText (e : Int) : List UInt8 :=
  (if e < 0 then ascii "e-" else ascii "e+") ++ (if e.natAbs < 10 then ascii "0" else []) ++
    decimal e.natAbs

/-- `%g` of `p / q`, both positive. -/
def generalRatio (p q : Nat) : List UInt8 :=
  let (n, e) := sixDigits p q
  let ds := decimal n
  if -4 ≤ e ∧ e < 0 then ascii "0" ++ pointed (List.replicate (-e - 1).toNat 48 ++ ds)
  else if 0 ≤ e ∧ e < 6 then ds.take (e + 1).toNat ++ pointed (ds.drop (e + 1).toNat)
  else ds.take 1 ++ pointed (ds.drop 1) ++ exponentText e

/-- `%g` of `± p / q`; `q` is positive. -/
def general (negative : Bool) (p q : Nat) : List UInt8 :=
  (if negative then ascii "-" else []) ++ if p = 0 then ascii "0" else generalRatio p q

example : general false 1234567 1 = ascii "1.23457e+06" := by decide +kernel
example : general true 1 3 = ascii "-0.333333" := by decide +kernel

/-! ## 2. Numbers -/

/-- Numbers, and what a program does with them. -/
class Arithmetic (D : Type) extends Add D, Sub D, Mul D, Div D, Neg D where
  /-- `x == 0.0`. -/
  isZero : D → Bool
  /-- The number that `m / 10 ^ e` is read as. -/
  ofDecimal : Nat → Nat → D
  ofInt : Int → D
  trunc : D → Option Int
  /-- `%g`. -/
  printG : D → List UInt8
  add_comm : ∀ x y : D, x + y = y + x
  mul_comm : ∀ x y : D, x * y = y * x

instance : Arithmetic ℚ where
  isZero x := x == 0
  ofDecimal m e := m / 10 ^ e
  ofInt n := n
  trunc x := some (x.num.tdiv x.den)
  printG x := general (x < 0) x.num.natAbs x.den
  add_comm := Rat.add_comm
  mul_comm := Rat.mul_comm

/-! ## 3. Doubles -/

open Float.Model Float.Model.UnpackedFloat

/-- The sign of a double, and its distance from zero as a fraction. -/
def floatParts (x : Float) : Option (Bool × Nat × Nat) :=
  match x.toModel.unpack with
  | .zero s => some (s == .negative, 0, 1)
  | .finite s m e _ => some (s == .negative, m * 2 ^ e.toNat, 2 ^ (-e).toNat)
  | _ => none

def floatTrunc (x : Float) : Option Int :=
  (floatParts x).map fun (negative, p, q) => if negative then -(p / q : Nat) else (p / q : Nat)

/-- A `NaN` that is computed has its sign set on x86-64. -/
def floatPrintG (x : Float) : List UInt8 :=
  match floatParts x with
  | some (negative, p, q) => general negative p q
  | none => if x.isNaN then ascii "-nan" else if x < 0 then ascii "-inf" else ascii "inf"

theorem sign_mul_comm (s t : Sign) : s * t = t * s := by
  cases s <;> cases t <;> rfl

theorem unpacked_add_comm (spec : Format) (a b : UnpackedFloat) :
    UnpackedFloat.add spec a b = UnpackedFloat.add spec b a := by
  cases a with
  | notANumber => cases b <;> rfl
  | infinity s =>
    cases b with
    | infinity t => cases s <;> cases t <;> rfl
    | _ => rfl
  | zero s =>
    cases b with
    | zero t => cases s <;> cases t <;> rfl
    | _ => rfl
  | finite s m e hm =>
    cases b with
    | finite t n f hn =>
      unfold UnpackedFloat.add
      simp only [Int.min_comm e f, Int.add_comm (s.apply _)]
    | _ => rfl

theorem unpacked_mul_comm (spec : Format) (a b : UnpackedFloat) :
    UnpackedFloat.mul spec a b = UnpackedFloat.mul spec b a := by
  cases a with
  | notANumber => cases b <;> rfl
  | infinity s | zero s =>
    cases b with
    | notANumber => rfl
    | _ =>
      unfold UnpackedFloat.mul
      simp only [sign_mul_comm s]
  | finite s m e hm =>
    cases b with
    | notANumber => rfl
    | finite t n f hn =>
      unfold UnpackedFloat.mul
      simp only [sign_mul_comm s, Nat.mul_comm m, Int.add_comm e]
    | infinity t | zero t =>
      unfold UnpackedFloat.mul
      simp only [sign_mul_comm s]

theorem float_add_comm (x y : Float) : x + y = y + x :=
  congrArg (fun u => Float.ofModel (Float.Model.pack u)) (unpacked_add_comm _ _ _)

theorem float_mul_comm (x y : Float) : x * y = y * x :=
  congrArg (fun u => Float.ofModel (Float.Model.pack u)) (unpacked_mul_comm _ _ _)

instance : Arithmetic Float where
  isZero x := x == 0
  ofDecimal m e := Float.ofScientific m true e
  ofInt := Float.ofInt
  trunc := floatTrunc
  printG := floatPrintG
  add_comm := float_add_comm
  mul_comm := float_mul_comm

example : Arithmetic.printG (0.1 + 0.2 : Float) = ascii "0.3" := by decide +kernel
example : Arithmetic.printG (0 * -1 : Float) = ascii "-0" := by decide +kernel

end Lib
end Labs
