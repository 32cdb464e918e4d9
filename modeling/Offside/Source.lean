import Offside.Text.Lines

/-!
# Source texts and positions

A source text, and where its characters stand. Lines and columns count characters from zero, and
a line ends at a line feed only.

- `Span`, `Position`, `Region`: a range of offsets, a line and column, and a resolved span.
- `Source.position`, `Source.resolve`: from offsets to lines and columns.
- `Source.slice`, `Source.lineAt`: the characters of a span, and a line for display.
-/
namespace Offside

set_option autoImplicit false

structure Span where
  lo : Int
  hi : Int
  deriving DecidableEq, Repr

structure Position where
  line : Int
  column : Int
  deriving DecidableEq, Repr

/-- Where a span starts, and the position just past its last character. -/
structure Region where
  start : Position
  stop : Position
  deriving DecidableEq, Repr

/-! ## The table of lines -/

/-- The offsets just after each line feed, where the text starts at the given offset. -/
def startsAfter (offset : Nat) : List Char → List Nat
  | [] => []
  | c :: rest =>
    if c = '\n' then (offset + 1) :: startsAfter (offset + 1) rest
    else startsAfter (offset + 1) rest

def lineStarts (cs : List Char) : List Nat := 0 :: startsAfter 0 cs

/-- The position of an offset among ascending line starts, the lines before them ending at the
given one: the offset lies on the last line that starts at or before it. -/
def locate (offset line : Int) (start : Nat) : List Nat → Position
  | [] => ⟨line, offset - start⟩
  | next :: rest =>
    if next ≤ offset then locate offset (line + 1) next rest else ⟨line, offset - start⟩

/-! ## Sources -/

structure Source where
  name : String
  chars : List Char
  starts : List Nat := lineStarts chars
  starts_eq : starts = lineStarts chars := by rfl

namespace Source

def ofText (name : String) (chars : List Char) : Source := { name, chars }

/-- The position of an offset. An offset before the text counts as standing on the line before
the first, its column measured from the start of the last line. -/
def position (source : Source) (offset : Int) : Position :=
  locate offset (-1) (source.starts.getLastD 0) source.starts

/-- The region of a span. It ends one column after the last character covered, so a span that
ends with its line stays on that line, and an empty span is the point where it starts. -/
def resolve (source : Source) (span : Span) : Region :=
  let start := source.position span.lo
  if span.hi ≤ span.lo then ⟨start, start⟩
  else
    let last := source.position (span.hi - 1)
    ⟨start, ⟨last.line, last.column + 1⟩⟩

/-- The place that an index names in a text of the given length: a negative index counts from the
end, and every index stops at the ends of the text. -/
def clampIndex (length : Nat) (index : Int) : Nat :=
  min (if index < 0 then index + length else index).toNat length

def slice (source : Source) (span : Span) : List Char :=
  let length := source.chars.length
  (source.chars.take (clampIndex length span.hi)).drop (clampIndex length span.lo)

def lines (source : Source) : List (List Char) := Text.lines source.chars

end Source

def lineNumbered? (lines : List (List Char)) (number : Int) : Option (List Char) :=
  if 1 ≤ number then lines[(number - 1).toNat]? else none

def Source.lineAt (source : Source) (number : Int) : List Char :=
  (lineNumbered? source.lines number).getD []

/-! ## Laws -/

theorem Source.resolve_of_le (source : Source) {span : Span} (h : span.hi ≤ span.lo) :
    source.resolve span = ⟨source.position span.lo, source.position span.lo⟩ := by
  simp [resolve, h]

theorem Source.resolve_start (source : Source) (span : Span) :
    (source.resolve span).start = source.position span.lo := by
  unfold resolve
  split <;> rfl

end Offside
