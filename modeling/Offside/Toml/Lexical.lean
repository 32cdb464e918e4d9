import Offside.Toml.Fault

/-!
# Blanks, comments, strings and keys of a configuration document

- `skipBlanks`, `skipComment`, `skipFiller`: what stands between values.
- `basicString`, `literalString`, `multilineString`: the four forms of strings.
- `key`: a dotted key.
-/
namespace Offside.Toml

set_option autoImplicit false

/-! ## Characters -/

def isBlank (c : Char) : Bool := c == ' ' || c == '\t'

def isFiller (c : Char) : Bool := isBlank c || c == '\n'

def isControl (c : Char) : Bool := c.toNat < 0x20 || c.toNat == 0x7f

def isIllegalInLine (c : Char) : Bool := isControl c && c != '\t'

def isIllegalInLines (c : Char) : Bool := isIllegalInLine c && c != '\n'

def isDecimal (c : Char) : Bool := '0' ≤ c && c ≤ '9'

def isHexadecimal (c : Char) : Bool :=
  isDecimal c || ('a' ≤ c && c ≤ 'f') || ('A' ≤ c && c ≤ 'F')

def isBare (c : Char) : Bool :=
  isDecimal c || ('a' ≤ c && c ≤ 'z') || ('A' ≤ c && c ≤ 'Z') || c == '-' || c == '_'

def numeral (base : Nat) (digits : List Char) : Nat :=
  digits.foldl (fun n c =>
    let digit :=
      if isDecimal c then c.toNat - '0'.toNat
      else if 'a' ≤ c then c.toNat - 'a'.toNat + 10
      else c.toNat - 'A'.toNat + 10
    n * base + digit) 0

/-! ## Between values -/

def skipBlanks (cs : List Char) : List Char := cs.dropWhile isBlank

/-- A text cut before the first occurrence of a mark, if there is one. -/
def cutBefore? (mark : List Char) : List Char → Option (List Char × List Char)
  | [] => if mark = [] then some ([], []) else none
  | c :: rest =>
    if mark.isPrefixOf (c :: rest) then some ([], c :: rest)
    else (cutBefore? mark rest).map fun (before, after) => (c :: before, after)

/-- The text before a mark, and the text from the mark on. A missing mark is found missing at the
end, before any illegal character in front of it is looked for. -/
def upTo (mark : List Char) (isIllegal : Char → Bool) (cs : List Char) : Parsed (List Char) :=
  match cutBefore? mark cs with
  | none => stop (.expected (String.ofList mark)) []
  | some (before, after) =>
    match before.find? isIllegal with
    | some c => stop (.illegalHere c) (cs.dropWhile fun d => !isIllegal d)
    | none => .ok (before, after)

def skipComment (cs : List Char) : Except Stop (List Char) :=
  match cs with
  | '#' :: rest =>
    let comment := rest.takeWhile (· ≠ '\n')
    match comment.find? isIllegalInLine with
    | some c => stop (.illegalHere c) (rest.dropWhile fun d => !isIllegalInLine d)
    | none => .ok (rest.drop comment.length)
  | _ => .ok cs

def skipFillerWithin : Nat → List Char → Except Stop (List Char)
  | 0, cs => .ok cs
  | fuel + 1, cs => do
    let after ← skipComment (cs.dropWhile isFiller)
    if after.length = cs.length then .ok after else skipFillerWithin fuel after

/-- The text after blanks, line ends and comments. Each round but the last takes a character. -/
def skipFiller (cs : List Char) : Except Stop (List Char) := skipFillerWithin (cs.length + 1) cs

/-! ## Strings -/

def hexCharacter (width : Nat) (cs : List Char) : Parsed (List Char) :=
  let digits := cs.take width
  if digits.length ≠ width ∨ !digits.all isHexadecimal then stop .hexadecimal cs
  else
    let code := numeral 16 digits
    if h : code.isValidChar then .ok ([Char.ofNatAux code h], cs.drop width)
    else stop .scalar (cs.drop width)

/-- The text after a line end that a backslash hides, with all blanks and line ends after it. -/
def hiddenLineEnd (cs : List Char) : Parsed (List Char) :=
  match skipBlanks cs with
  | [] => .ok ([], [])
  | '\n' :: rest => .ok ([], rest.dropWhile isFiller)
  | rest => stop .escape rest

/-- What the escape after a backslash stands for. In a text of several lines a backslash may hide
the end of its line. -/
def escaped (multiline : Bool) : List Char → Parsed (List Char)
  | [] => stop .escape []
  | c :: rest =>
    if multiline && isFiller c then hiddenLineEnd (c :: rest)
    else if c = 'u' then hexCharacter 4 rest
    else if c = 'U' then hexCharacter 8 rest
    else
      match [('b', '\x08'), ('t', '\t'), ('n', '\n'), ('f', '\x0c'), ('r', '\r'), ('"', '"'),
        ('\\', '\\')].lookup c with
      | some meant => .ok ([meant], rest)
      | none => stop .escape rest

def tripleQuote : List Char := ['"', '"', '"']

def basicStringWithin (multiline : Bool) : Nat → List Char → Parsed (List Char)
  | 0, cs => stop .openString cs
  | _, [] => stop .openString []
  | fuel + 1, c :: rest =>
    if c = '"' then
      if !multiline then .ok ([], rest)
      else if tripleQuote.isPrefixOf (c :: rest) then .ok ([], rest.drop 2)
      else more fuel [c] rest
    else if c = '\\' then
      match escaped multiline rest with
      | .error stop => .error stop
      | .ok (meant, after) => more fuel meant after
    else if (if multiline then isIllegalInLines c else isIllegalInLine c) then
      stop (.illegalInString c) (c :: rest)
    else more fuel [c] rest
where
  more (fuel : Nat) (read rest : List Char) : Parsed (List Char) :=
    match basicStringWithin multiline fuel rest with
    | .error stop => .error stop
    | .ok (text, after) => .ok (read ++ text, after)

def basicString (multiline : Bool) (cs : List Char) : Parsed (List Char) :=
  basicStringWithin multiline (cs.length + 1) cs

def literalString (cs : List Char) : Except Stop (List Char × List Char) := do
  let (text, after) ← upTo ['\x27'] isIllegalInLine cs
  return (text, after.drop 1)

/-- A text of several lines after its three opening quotation marks. A line end right behind them
is left out, and up to two quotation marks before the closing three belong to the text. -/
def multilineString (literal : Bool) (cs : List Char) :
    Except Stop (List Char × List Char) := do
  let body := if cs.head? = some '\n' then cs.drop 1 else cs
  let quote := if literal then '\x27' else '"'
  let (text, after) ←
    if literal then do
      let (text, after) ← upTo ['\x27', '\x27', '\x27'] isIllegalInLines body
      pure (text, after.drop 3)
    else basicString true body
  let extra := ((after.take 2).takeWhile (· = quote)).length
  return (text ++ List.replicate extra quote, after.drop extra)

/-! ## Keys -/

def keyPart (cs : List Char) : Parsed String :=
  match cs with
  | '"' :: rest => (basicString false rest).map fun (text, after) => (String.ofList text, after)
  | '\x27' :: rest => (literalString rest).map fun (text, after) => (String.ofList text, after)
  | c :: rest =>
    if isBare c then
      .ok (String.ofList ((c :: rest).takeWhile isBare), (c :: rest).dropWhile isBare)
    else stop .keyStart (c :: rest)
  | [] => stop .keyStart []

def keyWithin : Nat → List Char → Except Stop (Key × List Char)
  | 0, cs => stop .keyStart cs
  | fuel + 1, cs => do
    let (part, after) ← keyPart cs
    match skipBlanks after with
    | '.' :: rest => do
      let (parts, after) ← keyWithin fuel (skipBlanks rest)
      return (part :: parts, after)
    | rest => return ([part], rest)

def key (cs : List Char) : Parsed Key := keyWithin (cs.length + 1) cs

end Offside.Toml
