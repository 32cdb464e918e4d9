import Offside.Text.CharClass

/-!
# Quoted text

How a message shows a piece of text unambiguously: between quotes, with everything invisible
escaped.

- `quoted`: the quoted form of a text.
-/
namespace Offside.Text

set_option autoImplicit false

def hexPadded (width n : Nat) : List Char :=
  let digits := Nat.toDigits 16 n
  List.replicate (width - digits.length) '0' ++ digits

/-- An escape of two, four or eight hexadecimal digits, the shortest that holds the code point. -/
def escapedCode (n : Nat) : List Char :=
  if n ≤ 0xff then '\\' :: 'x' :: hexPadded 2 n
  else if n ≤ 0xffff then '\\' :: 'u' :: hexPadded 4 n
  else '\\' :: 'U' :: hexPadded 8 n

def quotedChar (quote c : Char) : List Char :=
  if c = quote ∨ c = '\\' then ['\\', c]
  else if c = '\n' then ['\\', 'n']
  else if c = '\r' then ['\\', 'r']
  else if c = '\t' then ['\\', 't']
  else if isPrintable c then [c]
  else escapedCode c.toNat

/-- The quote that encloses a text: single, unless the text holds single quotes and no double. -/
def enclosingQuote (cs : List Char) : Char :=
  if '\x27' ∈ cs ∧ '"' ∉ cs then '"' else '\x27'

/-- A text between quotes, with the quote itself, backslashes and invisible characters escaped. -/
def quoted (s : String) : String :=
  let cs := s.toList
  let quote := enclosingQuote cs
  String.ofList (quote :: cs.flatMap (quotedChar quote) ++ [quote])

end Offside.Text
