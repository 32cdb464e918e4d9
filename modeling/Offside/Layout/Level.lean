import Offside.Source

/-!
# Blocks and rules of the layout

- `BlockKind`: what a block separates its entries with.
- `Level`: a block that is open, at a column.
- `MarkerPolicy`, `Rules`: what a configuration decides.
-/
namespace Offside.Layout

set_option autoImplicit false

inductive BlockKind where
  /-- The items of a whole text or of a bracketed group, outside every block. -/
  | topLevel
  /-- Statements. -/
  | plain
  /-- The arms or fields that a keyword announces. -/
  | listLike
  deriving DecidableEq, Repr

def BlockKind.separator : BlockKind → List Char
  | .topLevel => []
  | .plain => [';']
  | .listLike => [',']

def BlockKind.name : BlockKind → String
  | .topLevel => "top_level"
  | .plain => "plain"
  | .listLike => "list_like"

def blockOpening : List Char := [' ', '\x7b']

def blockClosing : List Char := [' ', '\x7d']

/-- An open block: the column at which its lines start, and the keyword that announced it. -/
structure Level where
  column : Int
  keyword : Option (List Char)
  deriving DecidableEq, Repr

/-- A block that a keyword announced is a list; any other holds statements. -/
def Level.kind (level : Level) : BlockKind :=
  match level.keyword with
  | none => .plain
  | some _ => .listLike

inductive MarkerPolicy where
  /-- Every arrow is kept. -/
  | always
  /-- An arrow is kept on the arms of a block that a selector keyword announced. -/
  | selector
  deriving DecidableEq, Repr

namespace MarkerPolicy

def word : MarkerPolicy → String
  | always => "always"
  | selector => "selector"

def all : List MarkerPolicy := [always, selector]

def ofWord? (word : String) : Option MarkerPolicy := all.find? (·.word = word)

end MarkerPolicy

structure Rules where
  selectors : List (List Char)
  aggregates : List (List Char)
  marker : MarkerPolicy
  preserveBlankLines : Bool
  deriving DecidableEq, Repr

def Rules.announces (rules : Rules) (word : List Char) : Bool :=
  rules.selectors.contains word || rules.aggregates.contains word

end Offside.Layout
