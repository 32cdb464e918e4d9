import Offside.Binary64

/-!
# Shortest decimals

The decimal with the fewest digits among those that are nearest to one floating-point number only.

- `Decimal`: a coefficient times a power of ten.
- `Binary64.shortest`: the decimal of a positive significand and its exponent.
-/
namespace Offside

set_option autoImplicit false

structure Decimal where
  coefficient : Nat
  exponent : Int
  deriving DecidableEq, Repr

def Ratio.decimalOrder (ratio : Ratio) : Int :=
  (digitCount (ratio.scale 10 400).floor : Int) - 401

/-- The two multiples of a power of ten around a quotient, by their coefficients, the nearer
first. -/
def Ratio.neighbours (ratio : Ratio) (exponent : Int) : List Nat :=
  let scaled := ratio.scale 10 (-exponent)
  if scaled.isNearFloor then [scaled.floor, scaled.floor + 1]
  else [scaled.floor + 1, scaled.floor]

namespace Binary64

def isReadFrom (significand : Nat) (exponent : Int) (decimal : Decimal) : Bool :=
  ofDecimal false decimal.coefficient decimal.exponent = .finite false significand exponent

/-- The nearest decimal with at most so many digits that is read as the number, if there is one. -/
def shortestOf? (significand : Nat) (exponent : Int) (digits : Nat) : Option Decimal :=
  let ratio := (Ratio.ofNat significand).scale 2 exponent
  let grid := ratio.decimalOrder - (digits : Int) + 1
  ((ratio.neighbours grid).map fun coefficient => ⟨coefficient, grid⟩).find?
    (isReadFrom significand exponent)

def exactDecimal (significand : Nat) (exponent : Int) : Decimal :=
  if 0 ≤ exponent then ⟨significand * Nat.pow 2 exponent.toNat, 0⟩
  else ⟨significand * Nat.pow 5 (-exponent).toNat, exponent⟩

/-- The decimal with the fewest digits that is read as the number, and of these the nearest to it.
Seventeen digits are enough for every number. -/
def shortest (significand : Nat) (exponent : Int) : Decimal :=
  ((List.range 17).findSome? fun n => shortestOf? significand exponent (n + 1)).getD
    (exactDecimal significand exponent)

end Binary64

end Offside
