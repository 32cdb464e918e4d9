/-!
# Floating-point numbers of 64 bits

- `Ratio`: quotients of natural numbers, and their rounding.
- `Binary64`: the numbers, by what they stand for.
- `Binary64.ofDecimal`: the number nearest to a decimal.
- `Binary64.integer?`: the integer that a number is.
-/
namespace Offside

set_option autoImplicit false

/-! ## Quotients -/

structure Ratio where
  numerator : Nat
  denominator : Nat
  deriving DecidableEq, Repr

namespace Ratio

def ofNat (n : Nat) : Ratio := ⟨n, 1⟩

def scale (ratio : Ratio) (base : Nat) (exponent : Int) : Ratio :=
  ⟨ratio.numerator * base.pow exponent.toNat, ratio.denominator * base.pow (-exponent).toNat⟩

def floor (ratio : Ratio) : Nat := ratio.numerator / ratio.denominator

/-- Whether a quotient is closer to the integer below it than to the one above. Half way it counts
as closer to the even one. -/
def isNearFloor (ratio : Ratio) : Bool :=
  let twice := 2 * (ratio.numerator % ratio.denominator)
  twice < ratio.denominator || (twice == ratio.denominator && ratio.floor % 2 == 0)

def round (ratio : Ratio) : Nat := if ratio.isNearFloor then ratio.floor else ratio.floor + 1

def binaryOrder (ratio : Ratio) : Int :=
  let guess : Int := ratio.numerator.log2 - ratio.denominator.log2
  if (ratio.scale 2 (-guess)).floor = 0 then guess - 1 else guess

end Ratio

def digitCount (n : Nat) : Nat := (toString n).length

/-! ## Numbers -/

/-- A number: a significand times a power of two with a sign, which zero has too; an infinity; or
the value that is no number. A significand has at most 53 binary digits, and fewer only where the
exponent is the least. -/
inductive Binary64 where
  | finite (negative : Bool) (significand : Nat) (exponent : Int)
  | infinite (negative : Bool)
  | notANumber
  deriving DecidableEq, Repr

namespace Binary64

def leastExponent : Int := -1074

def greatestExponent : Int := 971

def leastFullSignificand : Nat := Nat.pow 2 52

/-- The number whose significand has been rounded, where it may have become one digit longer. -/
def ofRounded (negative : Bool) (significand : Nat) (exponent : Int) : Binary64 :=
  let (significand, exponent) :=
    if significand = 2 * leastFullSignificand then (leastFullSignificand, exponent + 1)
    else (significand, exponent)
  if greatestExponent < exponent then .infinite negative
  else .finite negative significand exponent

def ofRatio (negative : Bool) (ratio : Ratio) : Binary64 :=
  let exponent := max leastExponent (ratio.binaryOrder - 52)
  ofRounded negative (ratio.scale 2 (-exponent)).round exponent

/-- The number nearest to a coefficient times a power of ten. What is far outside the range is
recognised by its magnitude alone. -/
def ofDecimal (negative : Bool) (coefficient : Nat) (exponent : Int) : Binary64 :=
  let magnitude := digitCount coefficient + exponent
  if coefficient = 0 ∨ magnitude ≤ -324 then .finite negative 0 leastExponent
  else if 310 ≤ magnitude then .infinite negative
  else ofRatio negative ((Ratio.ofNat coefficient).scale 10 exponent)

def isZero : Binary64 → Bool
  | .finite _ significand _ => significand = 0
  | _ => false

def integer? : Binary64 → Option Int
  | .finite negative significand exponent =>
    let ratio := (Ratio.ofNat significand).scale 2 exponent
    if ratio.numerator % ratio.denominator = 0 then
      some (if negative then -(ratio.floor : Int) else ratio.floor)
    else none
  | _ => none

end Binary64

end Offside
