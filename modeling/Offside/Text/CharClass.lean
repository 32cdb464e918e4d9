import Offside.Text.Letter
import Offside.Text.Digit
import Offside.Text.Numeral
import Offside.Text.Unprintable

/-!
# Character classes

The classes that decide where names and numbers begin and end, and which characters a quotation
may show as they are.

- `isLetter`, `isDigit`, `isAlphanumeric`: read from the tables of the character standard.
- `isWord`: what a name may hold after its first character.
- `isPrintable`: what a quotation shows unescaped.
-/
namespace Offside.Text

set_option autoImplicit false

/-- Whether a code point lies in one of the ascending inclusive ranges. -/
def inRanges (n : Nat) : List (Nat × Nat) → Bool
  | [] => false
  | (lo, hi) :: rest => lo ≤ n && (n ≤ hi || inRanges n rest)

def isLetter (c : Char) : Bool := inRanges c.toNat letterRanges

/-- A digit of any script, superscripts and circled digits included. -/
def isDigit (c : Char) : Bool := inRanges c.toNat digitRanges

/-- A letter, a digit or another numeral. -/
def isAlphanumeric (c : Char) : Bool :=
  isLetter c || isDigit c || inRanges c.toNat numeralRanges

def isWord (c : Char) : Bool := isAlphanumeric c || c == '_'

def isWordStart (c : Char) : Bool := isLetter c || c == '_'

/-- A character with a visible form, or the space. -/
def isPrintable (c : Char) : Bool := !inRanges c.toNat unprintableRanges

/-! ## The classes nest -/

theorem isAlphanumeric_of_isLetter {c : Char} (h : isLetter c = true) :
    isAlphanumeric c = true := by
  simp [isAlphanumeric, h]

theorem isWord_of_isWordStart {c : Char} (h : isWordStart c = true) : isWord c = true := by
  rcases Bool.or_eq_true_iff.mp h with hl | hu
  · simp [isWord, isAlphanumeric_of_isLetter hl]
  · simp [isWord, hu]

end Offside.Text
