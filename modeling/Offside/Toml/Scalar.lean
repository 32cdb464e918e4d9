import Offside.Toml.Lexical
import Offside.Toml.Value

/-!
# Numbers, dates and times of a configuration document

Each reader answers nothing where its form does not stand, so that the next form can be tried.

- `number?`: an integer or a floating-point number.
- `specialFloat?`: an infinity, or the value that is no number.
- `moment?`: a date, a time, or both.
-/
namespace Offside.Toml

set_option autoImplicit false

/-! ## Numbers -/

/-- How many characters continue digits: digits, and single gaps between two. -/
def moreDigits (isDigit : Char → Bool) : List Char → Nat
  | [] => 0
  | [c] => if isDigit c then 1 else 0
  | c :: d :: rest =>
    if isDigit c then 1 + moreDigits isDigit (d :: rest)
    else if c = '_' ∧ isDigit d then 2 + moreDigits isDigit rest
    else 0

def digitsLength (isDigit : Char → Bool) : List Char → Nat
  | [] => 0
  | c :: rest => if isDigit c then 1 + moreDigits isDigit rest else 0

def withoutGaps (cs : List Char) : List Char := cs.filter (· ≠ '_')

def basedInteger? (cs : List Char) : Option (Value × List Char) :=
  let read (base : Nat) (isDigit : Char → Bool) (rest : List Char) :=
    match digitsLength isDigit rest with
    | 0 => none
    | n => some (.integer (numeral base (withoutGaps (rest.take n))), rest.drop n)
  match cs with
  | '0' :: 'x' :: rest => read 16 isHexadecimal rest
  | '0' :: 'b' :: rest => read 2 (fun c => c == '0' || c == '1') rest
  | '0' :: 'o' :: rest => read 8 (fun c => '0' ≤ c && c ≤ '7') rest
  | _ => none

/-- How many characters are the whole part of a decimal number: a zero, or digits that start with
another. -/
def wholeLength (cs : List Char) : Nat :=
  if cs.head? = some '0' then 1 else digitsLength isDecimal cs

def fractionLength : List Char → Nat
  | '.' :: rest =>
    match digitsLength isDecimal rest with
    | 0 => 0
    | n => 1 + n
  | _ => 0

def signLength (cs : List Char) : Nat :=
  if cs.head? = some '+' ∨ cs.head? = some '-' then 1 else 0

def exponentLength : List Char → Nat
  | c :: rest =>
    let sign := signLength rest
    match digitsLength isDecimal (rest.drop sign) with
    | 0 => 0
    | n => if c = 'e' ∨ c = 'E' then 1 + sign + n else 0
  | [] => 0

def isNegative (cs : List Char) : Bool := cs.head? = some '-'

def decimalInteger (cs : List Char) (digits rest : List Char) :
    Except Stop (Value × List Char) :=
  if digitLimit < digits.length then stop (.longInteger digits.length) cs
  else
    let n : Int := numeral 10 digits
    .ok (.integer (if isNegative cs then -n else n), rest)

def exponentValue (cs : List Char) : Int :=
  let n : Int := numeral 10 (cs.drop (signLength cs))
  if isNegative cs then -n else n

/-- The floating-point number nearest to the decimal that is written, gaps left out. The digits of
the fraction count as further digits of a coefficient with a lower exponent. -/
def decimalFloat (isNegative : Bool) (whole fraction exponent : List Char) : Binary64 :=
  let places := fraction.drop 1
  .ofDecimal isNegative (numeral 10 (whole ++ places))
    (exponentValue (exponent.drop 1) - places.length)

/-- A decimal integer, or a floating-point number if a fraction or an exponent follows. -/
def decimalNumber? (cs : List Char) : Option (Except Stop (Value × List Char)) :=
  let unsigned := cs.drop (signLength cs)
  match wholeLength unsigned with
  | 0 => none
  | length =>
    let whole := withoutGaps (unsigned.take length)
    let afterWhole := unsigned.drop length
    let fraction := afterWhole.take (fractionLength afterWhole)
    let afterFraction := afterWhole.drop fraction.length
    let exponent := afterFraction.take (exponentLength afterFraction)
    let rest := afterFraction.drop exponent.length
    if fraction = [] ∧ exponent = [] then some (decimalInteger cs whole rest)
    else
      let x := decimalFloat (isNegative cs) whole (withoutGaps fraction) (withoutGaps exponent)
      some (.ok (.float x, rest))

def number? (cs : List Char) : Option (Except Stop (Value × List Char)) :=
  match basedInteger? cs with
  | some found => some (.ok found)
  | none => decimalNumber? cs

def specialFloat? (cs : List Char) : Option (Value × List Char) :=
  let word := (cs.drop (signLength cs)).take 3
  let rest := cs.drop (signLength cs + 3)
  if word = ['i', 'n', 'f'] then some (.float (.infinite (isNegative cs)), rest)
  else if word = ['n', 'a', 'n'] then some (.float .notANumber, rest)
  else none

/-! ## Dates and times -/

/-- A number of exactly so many decimal digits that lies between two bounds. -/
def bounded? (width least most : Nat) (cs : List Char) : Option (Nat × List Char) :=
  let digits := cs.take width
  let n := numeral 10 digits
  if digits.length = width ∧ digits.all isDecimal ∧ least ≤ n ∧ n ≤ most then
    some (n, cs.drop width)
  else none

def after? (c : Char) (cs : List Char) : Option (List Char) :=
  if cs.head? = some c then some (cs.drop 1) else none

def date? (cs : List Char) : Option (Date × List Char) := do
  let (year, cs) ← bounded? 4 0 9999 cs
  let cs ← after? '-' cs
  let (month, cs) ← bounded? 2 1 12 cs
  let cs ← after? '-' cs
  let (day, cs) ← bounded? 2 1 31 cs
  return (⟨year, month, day⟩, cs)

/-- The parts of a second in millionths, further digits left out; zero if there are none. -/
def fractionOfSecond (cs : List Char) : Nat × List Char :=
  match cs with
  | '.' :: rest =>
    let digits := rest.takeWhile isDecimal
    if digits = [] then (0, cs)
    else
      let kept := digits.take 6
      (numeral 10 (kept ++ List.replicate (6 - kept.length) '0'), rest.drop digits.length)
  | _ => (0, cs)

def time? (cs : List Char) : Option (Time × List Char) := do
  let (hour, cs) ← bounded? 2 0 23 cs
  let cs ← after? ':' cs
  let (minute, cs) ← bounded? 2 0 59 cs
  let cs ← after? ':' cs
  let (second, cs) ← bounded? 2 0 59 cs
  let (microsecond, cs) := fractionOfSecond cs
  return (⟨hour, minute, second, microsecond⟩, cs)

def offset? (cs : List Char) : Option (Int × List Char) :=
  match cs with
  | 'Z' :: rest => some (0, rest)
  | 'z' :: rest => some (0, rest)
  | sign :: rest =>
    if sign = '+' ∨ sign = '-' then do
      let (hours, rest) ← bounded? 2 0 23 rest
      let rest ← after? ':' rest
      let (minutes, rest) ← bounded? 2 0 59 rest
      let offset : Int := hours * 60 + minutes
      return (if sign = '-' then -offset else offset, rest)
    else none
  | [] => none

def dated? (cs : List Char) : Option (Date × Value × List Char) := do
  let (date, cs) ← date? cs
  let timed : Option (Time × List Char) := do
    let mark ← cs.head?
    if mark = 'T' ∨ mark = 't' ∨ mark = ' ' then time? (cs.drop 1) else none
  match timed with
  | none => return (date, .date date, cs)
  | some (time, cs) =>
    match offset? cs with
    | none => return (date, .dateTime date time none, cs)
    | some (offset, cs) => return (date, .dateTime date time (some offset), cs)

/-- A date that must be in the calendar, or a time of day. -/
def moment? (cs : List Char) : Option (Except Stop (Value × List Char)) :=
  match dated? cs with
  | some (date, value, rest) => some (if date.isValid then .ok (value, rest) else stop .date cs)
  | none => (time? cs).map fun (time, rest) => .ok (.time time, rest)

end Offside.Toml
