import Offside.Source

/-!
# Tokens

The words of a program text.

- `TokenKind`, `Token`: a token with its exact text and its span.
- `Delimiter`: the three pairs of brackets.
- `operators`: the operators, each before every shorter one that it starts with.
-/
namespace Offside

set_option autoImplicit false

inductive TokenKind where
  | identifier
  | lifetime
  | integer
  | float
  | string
  | rawString
  | character
  | fatArrow
  | operator
  | openDelimiter
  | closeDelimiter
  /-- The empty token that follows all others. -/
  | endOfText
  deriving DecidableEq, Repr

def TokenKind.all : List TokenKind :=
  [.identifier, .lifetime, .integer, .float, .string, .rawString, .character, .fatArrow,
   .operator, .openDelimiter, .closeDelimiter, .endOfText]

theorem TokenKind.mem_all (kind : TokenKind) : kind ∈ all := by
  cases kind <;> decide

structure Token where
  kind : TokenKind
  text : List Char
  span : Span
  deriving DecidableEq, Repr

/-! ## Brackets -/

inductive Delimiter where
  | paren
  | bracket
  | brace
  deriving DecidableEq, Repr

namespace Delimiter

def opening : Delimiter → Char
  | .paren => '('
  | .bracket => '['
  | .brace => '\x7b'

def closing : Delimiter → Char
  | .paren => ')'
  | .bracket => ']'
  | .brace => '\x7d'

def all : List Delimiter := [.paren, .bracket, .brace]

def ofText? (text : List Char) : Option Delimiter :=
  all.find? fun d => text = [d.opening] || text = [d.closing]

theorem ofText?_opening (d : Delimiter) : ofText? [d.opening] = some d := by
  cases d <;> decide

theorem ofText?_closing (d : Delimiter) : ofText? [d.closing] = some d := by
  cases d <;> decide

end Delimiter

def isOpening (c : Char) : Bool := c == '(' || c == '[' || c == '\x7b'

def isClosing (c : Char) : Bool := c == ')' || c == ']' || c == '\x7d'

/-! ## Operators -/

def fatArrow : List Char := ['=', '>']

/-- The operators. An operator stands before every shorter one that it starts with, so the first
that fits is the longest. -/
def operators : List (List Char) :=
  [['<', '<', '='], ['>', '>', '='], ['.', '.', '.'], ['.', '.', '='],
   fatArrow, ['-', '>'], [':', ':'], ['=', '='], ['!', '='], ['<', '='], ['>', '='],
   ['&', '&'], ['|', '|'], ['+', '='], ['-', '='], ['*', '='], ['/', '='], ['%', '='],
   ['^', '='], ['&', '='], ['|', '='], ['<', '<'], ['>', '>'], ['.', '.'],
   ['+'], ['-'], ['*'], ['/'], ['%'], ['^'], ['!'], ['&'], ['|'], ['='], ['<'], ['>'],
   ['@'], ['.'], [','], [';'], [':'], ['#'], ['$'], ['?'], ['~']]

def isOperator (text : List Char) : Bool := operators.contains text

theorem operators_longest_first :
    operators.Pairwise fun earlier later => earlier.isPrefixOf later = false := by
  decide

end Offside
