/-!
# Terminal colours

- `Style`: the styles that a text may be shown in.
- `sequenceLength`: how far a control sequence reaches.
- `stripped`: a text without its control sequences.
-/
namespace Offside.Text

set_option autoImplicit false

inductive Style where
  | bold
  | red
  | yellow
  | cyan
  | blue
  deriving DecidableEq, Repr

def Style.parameters : Style → List Char
  | .bold => ['1']
  | .red => ['1', ';', '3', '1']
  | .yellow => ['1', ';', '3', '3']
  | .cyan => ['1', ';', '3', '6']
  | .blue => ['1', ';', '3', '4']

def escape : Char := '\x1b'

def controlSequence (parameters : List Char) : List Char :=
  escape :: '[' :: parameters ++ ['m']

def styled (style : Style) (cs : List Char) : List Char :=
  controlSequence style.parameters ++ cs ++ controlSequence ['0']

def isParameter (c : Char) : Bool := '0' ≤ c && c ≤ '?'

def isIntermediate (c : Char) : Bool := ' ' ≤ c && c ≤ '/'

def isFinal (c : Char) : Bool := '@' ≤ c && c ≤ '~'

/-- How many characters after an escape belong to a control sequence: a bracket, parameters,
intermediate characters, and one that ends it. None where these do not follow. -/
def sequenceLength : List Char → Nat
  | [] => 0
  | c :: rest =>
    let parameters := (rest.takeWhile isParameter).length
    let intermediates := ((rest.drop parameters).takeWhile isIntermediate).length
    let body := parameters + intermediates
    if c = '[' ∧ (rest[body]?.map isFinal).getD false then body + 2 else 0

def strippedAfter : Nat → List Char → List Char
  | _, [] => []
  | skip + 1, _ :: rest => strippedAfter skip rest
  | 0, c :: rest =>
    if c = escape ∧ sequenceLength rest ≠ 0 then strippedAfter (sequenceLength rest) rest
    else c :: strippedAfter 0 rest

def stripped (cs : List Char) : List Char := strippedAfter 0 cs

end Offside.Text
