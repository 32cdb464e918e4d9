/-!
# Lines

- `lines`: a text cut at every line boundary, without the boundaries.
- `unifyLineEnds`, `withoutReturns`: a text whose line ends are a single line feed.
-/
namespace Offside.Text

set_option autoImplicit false

/-- A character that ends a line on its own: line feed, vertical tab, form feed, carriage return,
the three information separators, next line, and the two Unicode separators. -/
def isLineBoundary (c : Char) : Bool :=
  c == '\n' || c == '\x0b' || c == '\x0c' || c == '\r' || c == '\x1c' || c == '\x1d' ||
  c == '\x1e' || c == '\x85' || c == '\u2028' || c == '\u2029'

/-- The lines of a text. A carriage return and the line feed after it are one boundary, and a
boundary at the very end starts no further line. -/
def lines : List Char → List (List Char)
  | [] => []
  | c :: rest =>
    if c = '\r' ∧ rest.head? = some '\n' then lines rest
    else if isLineBoundary c then [] :: lines rest
    else match lines rest with
      | [] => [[c]]
      | line :: more => (c :: line) :: more

/-- A text in which a carriage return, alone or before a line feed, has become a line feed. -/
def unifyLineEnds : List Char → List Char
  | [] => []
  | c :: rest =>
    if c = '\r' then
      if rest.head? = some '\n' then unifyLineEnds rest else '\n' :: unifyLineEnds rest
    else c :: unifyLineEnds rest

/-- A text without the carriage returns that stand before a line feed. -/
def withoutReturns : List Char → List Char
  | [] => []
  | c :: rest =>
    if c = '\r' ∧ rest.head? = some '\n' then withoutReturns rest else c :: withoutReturns rest

end Offside.Text
