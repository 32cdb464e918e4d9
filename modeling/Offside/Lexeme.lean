import Offside.Chunks
import Offside.Diagnostic
import Offside.Lexeme.Number
import Offside.Lexeme.Reach
import Offside.Text.Quoted

/-!
# Lexemes

A text is cut from the left into pieces, and each piece is one lexeme: a blank, a comment, a token
or a fault.

- `Lexeme`, `Lexeme.Fault`: what a piece is.
- `Lexeme.scan`: the lexeme at the head of a text and how far it reaches.
- `Piece`, `pieces`: the pieces of a text.
-/
namespace Offside

set_option autoImplicit false

open Text

inductive Lexeme.Fault where
  | strayCharacter (c : Char)
  | tab
  | openString
  | openCharacter
  | openComment
  | openRawString
  deriving DecidableEq, Repr

namespace Lexeme.Fault

def code : Fault → String
  | .strayCharacter _ => "E100"
  | .tab => "E101"
  | .openString => "E102"
  | .openCharacter => "E103"
  | .openComment => "E104"
  | .openRawString => "E105"

def message : Fault → String
  | .strayCharacter c => "unexpected character: " ++ quoted (String.singleton c)
  | .tab => "tabs are not allowed; use spaces"
  | .openString => "unterminated string literal"
  | .openCharacter => "unterminated character literal"
  | .openComment => "unterminated block comment"
  | .openRawString => "unterminated raw string literal"

end Lexeme.Fault

inductive Lexeme where
  | blank
  | comment
  | token (kind : TokenKind)
  | fault (fault : Lexeme.Fault)
  deriving DecidableEq, Repr

namespace Lexeme

/-- The lexeme of a literal whose opening mark ends `before` characters after the piece starts. -/
def literal (kind : TokenKind) (fault : Fault) (before : Nat) (reach : Reach) : Lexeme × Nat :=
  if reach.closed then (.token kind, before + reach.length)
  else (.fault fault, before + reach.length)

def stringAt (before : Nat) (rest : List Char) : Lexeme × Nat :=
  literal .string .openString before (stringReach (rest.drop before))

/-- A character whose opening apostrophe stands `before` characters after the piece starts. The
closing apostrophe is read only where it stands. -/
def characterAt (before : Nat) (rest : List Char) : Lexeme × Nat :=
  let reach := characterReach (rest.drop before)
  literal .character .openCharacter before
    (if reach.closed then ⟨true, reach.length + 1⟩ else reach)

def rawOpening? (cs : List Char) : Option Nat :=
  let hashes := runLength (· == '#') cs
  if cs[hashes]? = some '"' then some hashes else none

def rawStringAt? (before : Nat) (rest : List Char) : Option (Lexeme × Nat) :=
  (rawOpening? (rest.drop before)).map fun hashes =>
    let opened := before + hashes + 1
    literal .rawString .openRawString opened (rawReach hashes (rest.drop opened))

def letteredLiteral? (c : Char) (rest : List Char) : Option (Lexeme × Nat) :=
  if c = 'b' then
    if rest.head? = some 'r' then rawStringAt? 1 rest
    else if rest.head? = some '"' then some (stringAt 1 rest)
    else if rest.head? = some '\x27' then some (characterAt 1 rest)
    else none
  else if c = 'r' then rawStringAt? 0 rest
  else none

/-- What an apostrophe starts: a character where a backslash follows it or an apostrophe closes it
after one character, else a lifetime where a name follows it, else an attempt at a character. -/
def afterApostrophe (rest : List Char) : Lexeme × Nat :=
  if rest.head? = some '\\' ∨ rest[1]? = some '\x27' then characterAt 0 rest
  else if (rest.head?.map isWordStart).getD false then
    (.token .lifetime, runLength isWord rest)
  else characterAt 0 rest

def lineComment (rest : List Char) : Lexeme × Nat :=
  (.comment, runLength (· != '\n') rest)

def blockComment (rest : List Char) : Lexeme × Nat :=
  let reach := commentReach 0 (rest.drop 1)
  (if reach.closed then .comment else .fault .openComment, 1 + reach.length)

/-- A name. One that starts with `r#` is taken as written, with the hash. -/
def name (c : Char) (rest : List Char) : Lexeme × Nat :=
  let mark := if c = 'r' ∧ rest.head? = some '#' then 1 else 0
  (.token .identifier, mark + runLength isWord (rest.drop mark))

def operatorOrStray (c : Char) (rest : List Char) : Lexeme × Nat :=
  match operators.find? (·.isPrefixOf (c :: rest)) with
  | some text => (.token (if text = fatArrow then .fatArrow else .operator), text.length - 1)
  | none => (.fault (.strayCharacter c), 0)

/-- The lexeme that starts with the character `c` before `rest`, and how many characters of `rest`
belong to it. Only after a backslash that ends the text does it claim one more than there is. -/
def scan (c : Char) (rest : List Char) : Lexeme × Nat :=
  if c = ' ' ∨ c = '\n' ∨ c = '\r' then (.blank, 0)
  else if c = '\t' then (.fault .tab, 0)
  else if c = '/' ∧ rest.head? = some '/' then lineComment rest
  else if c = '/' ∧ rest.head? = some '*' then blockComment rest
  else match letteredLiteral? c rest with
    | some found => found
    | none =>
      if c = '"' then stringAt 0 rest
      else if c = '\x27' then afterApostrophe rest
      else if isDigit c then
        let (kind, more) := number c rest
        (.token kind, more)
      else if isWordStart c then name c rest
      else if isOpening c then (.token .openDelimiter, 0)
      else if isClosing c then (.token .closeDelimiter, 0)
      else operatorOrStray c rest

end Lexeme

/-! ## Pieces -/

/-- A piece of a text: what it is, its characters, and how many places it claims. -/
structure Piece where
  lexeme : Lexeme
  text : List Char
  width : Nat
  deriving DecidableEq, Repr

/-- The piece that starts with `c` before `rest`, and how many characters of `rest` it takes. -/
def Piece.start (c : Char) (rest : List Char) : Piece × Nat :=
  let (lexeme, more) := Lexeme.scan c rest
  (⟨lexeme, c :: rest.take more, more + 1⟩, more)

def pieces (cs : List Char) : List Piece := chunks Piece.start 0 cs

/-- Nothing of a text is lost between its pieces. -/
theorem flatMap_text_pieces (cs : List Char) : (pieces cs).flatMap Piece.text = cs := by
  suffices h : ∀ skip, (chunks Piece.start skip cs).flatMap Piece.text = cs.drop skip from h 0
  induction cs with
  | nil => simp
  | cons c rest ih =>
    intro skip
    cases skip with
    | zero => simp [chunks, Piece.start, ih]
    | succ skip => simpa [chunks] using ih skip

end Offside
