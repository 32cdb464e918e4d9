import Offside.Binary64.Shortest
import Offside.Text.Quoted
import Offside.Toml.Value

/-!
# How messages show values

- `Value.shown`: the form in which a message shows a value.
- `shownFloat`: a floating-point number, with the fewest digits that are read as it.
- `digitLimit`, `Value.isShowable`: integers are read and shown with a limited number of digits.
-/
namespace Offside.Toml

set_option autoImplicit false

/-! ## Long integers -/

/-- How many decimal digits an integer may have where it is read from them or shown by them. -/
def digitLimit : Nat := 4300

def digitLimitMessage (detail : String) : String :=
  "Exceeds the limit (" ++ toString digitLimit ++ " digits) for integer string conversion" ++
    detail ++ "; use sys.set_int_max_str_digits() to increase the limit"

/-! ## Floating-point numbers -/

/-- Digits with a point behind so many of them, which may lie before the first or after the last. A
zero stands where there would be no digit on one side of the point. -/
def positional (digits : List Char) (point : Int) : List Char :=
  if point ≤ 0 then '0' :: '.' :: List.replicate (-point).toNat '0' ++ digits
  else
    let whole := digits.take point.toNat
    let rest := digits.drop point.toNat
    whole ++ List.replicate (point.toNat - whole.length) '0' ++
      '.' :: (if rest = [] then ['0'] else rest)

/-- Digits with a point behind the first and an exponent, which has a sign and at least two
digits. A point with nothing behind it is left out. -/
def scientific (digits : List Char) (exponent : Int) : List Char :=
  let rest := digits.drop 1
  let power := (toString exponent.natAbs).toList
  digits.take 1 ++ (if rest = [] then [] else '.' :: rest) ++
    'e' :: (if exponent < 0 then '-' else '+') ::
      List.replicate (2 - power.length) '0' ++ power

/-- A positive decimal. It is written with an exponent where more than sixteen digits would stand
before the point, or more than three zeros between the point and the first digit. -/
def shownDecimal (decimal : Decimal) : List Char :=
  let written := (toString decimal.coefficient).toList
  let digits := (written.reverse.dropWhile (· = '0')).reverse
  let point : Int := written.length + decimal.exponent
  if -4 < point ∧ point ≤ 16 then positional digits point else scientific digits (point - 1)

def shownFloat : Binary64 → String
  | .finite negative significand exponent =>
    let digits := if significand = 0 then positional [] 0 ++ ['0']
      else shownDecimal (Binary64.shortest significand exponent)
    String.ofList (if negative then '-' :: digits else digits)
  | .infinite negative => if negative then "-inf" else "inf"
  | .notANumber => "nan"

/-! ## Dates and times -/

def shownCall (name : String) (arguments : List String) : String :=
  "datetime." ++ name ++ "(" ++ ", ".intercalate arguments ++ ")"

def Date.numbers (d : Date) : List String := [toString d.year, toString d.month, toString d.day]

/-- The numbers of a time, without a zero at the end that stands for seconds or their parts. -/
def Time.numbers (t : Time) : List String :=
  [toString t.hour, toString t.minute] ++
    (if t.second = 0 ∧ t.microsecond = 0 then [] else [toString t.second]) ++
    (if t.microsecond = 0 then [] else [toString t.microsecond])

def shownZone (offset : Int) : String :=
  if offset = 0 then "datetime.timezone.utc"
  else
    let seconds := "seconds=" ++ toString (offset * 60 % 86400)
    shownCall "timezone"
      [shownCall "timedelta" (if offset < 0 then ["days=-1", seconds] else [seconds])]

/-! ## Values -/

mutual

def Value.shown : Value → String
  | .string text => Text.quoted text
  | .integer n => toString n
  | .float x => shownFloat x
  | .boolean b => if b then "True" else "False"
  | .date d => shownCall "date" d.numbers
  | .time t => shownCall "time" t.numbers
  | .dateTime d t offset =>
    shownCall "datetime" (d.numbers ++ t.numbers ++
      (match offset with
        | none => []
        | some minutes => ["tzinfo=" ++ shownZone minutes]))
  | .array items => "[" ++ ", ".intercalate (shownItems items) ++ "]"
  | .table entries => "\x7b" ++ ", ".intercalate (shownEntries entries) ++ "\x7d"

def shownItems : List Value → List String
  | [] => []
  | item :: rest => item.shown :: shownItems rest

def shownEntries : List (String × Value) → List String
  | [] => []
  | (key, value) :: rest => (Text.quoted key ++ ": " ++ value.shown) :: shownEntries rest

end

mutual

def Value.isShowable : Value → Bool
  | .integer n => digitCount n.natAbs ≤ digitLimit
  | .array items => areShowable items
  | .table entries => entriesAreShowable entries
  | _ => true

def areShowable : List Value → Bool
  | [] => true
  | item :: rest => item.isShowable && areShowable rest

def entriesAreShowable : List (String × Value) → Bool
  | [] => true
  | (_, value) :: rest => value.isShowable && entriesAreShowable rest

end

end Offside.Toml
