import Offside.Text.CharClass
import Offside.Token

/-!
# Numbers

How many characters a number covers, and whether it is a floating-point number.

- `number`: the extent and kind of the number that starts with a given digit.
-/
namespace Offside.Lexeme

set_option autoImplicit false

open Offside.Text

def runLength (p : Char → Bool) (cs : List Char) : Nat := (cs.takeWhile p).length

def isDigitOrGap (c : Char) : Bool := isDigit c || c == '_'

def isHexOrGap (c : Char) : Bool :=
  ('0' ≤ c && c ≤ '9') || ('a' ≤ c && c ≤ 'f') || ('A' ≤ c && c ≤ 'F') || c == '_'

/-- The length of a fraction: a point directly before a digit, and the digits. -/
def fractionLength : List Char → Nat
  | point :: digit :: rest =>
    if point = '.' ∧ isDigit digit then 2 + runLength isDigitOrGap rest else 0
  | _ => 0

def startsWithDigit (cs : List Char) : Bool := (cs.head?.map isDigit).getD false

/-- The length of an exponent: its letter, a sign if there is one, and at least one digit. -/
def exponentLength : List Char → Nat
  | letter :: first :: rest =>
    if (letter = 'e' ∨ letter = 'E') ∧
        (isDigit first ∨ (first = '+' ∨ first = '-') ∧ startsWithDigit rest) then
      2 + runLength isDigitOrGap rest
    else 0
  | _ => 0

/-- The kind of the number that starts with the digit `c` before `rest`, and how much of `rest`
belongs to it. A number in base two, eight or sixteen takes hexadecimal digits of any value; every
number takes the word behind it as its suffix. -/
def number (c : Char) (rest : List Char) : TokenKind × Nat :=
  if c = '0' ∧ (rest.head? = some 'x' ∨ rest.head? = some 'o' ∨ rest.head? = some 'b') then
    let digits := 1 + runLength isHexOrGap (rest.drop 1)
    (.integer, digits + runLength isWord (rest.drop digits))
  else
    let whole := runLength isDigitOrGap rest
    let fraction := fractionLength (rest.drop whole)
    let exponent := exponentLength (rest.drop (whole + fraction))
    let mantissa := whole + fraction + exponent
    let suffix := rest.drop mantissa
    let isFloat := fraction ≠ 0 ∨ exponent ≠ 0 ∨ suffix.head? = some 'f'
    (if isFloat then .float else .integer, mantissa + runLength isWord suffix)

end Offside.Lexeme
