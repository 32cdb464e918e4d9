import Offside.Layout.Event

/-!
# The scope of one list of items

A text, and each bracketed group in it, is laid out in a scope of its own.

- `Scope`: the open blocks, the keyword of the statement, and the last line met.
- `Scope.arrive`: what an item does to the blocks before it is written.
- `Scope.openBlock`, `Scope.noteWord`: what an arrow and a name do.
-/
namespace Offside.Layout

set_option autoImplicit false

/-- The state of one list of items: its open blocks from the innermost out, the keyword met in the
statement, and the line on which the last item that counted ended. -/
structure Scope where
  blocks : List Level
  pending : Option (List Char)
  lastLine : Option Int
  deriving DecidableEq, Repr

namespace Scope

def fresh : Scope := ⟨[], none, none⟩

def column (scope : Scope) : Int := (scope.blocks.head?.map Level.column).getD 0

/-- The columns of all blocks from the outermost in, zero first. -/
def columns (scope : Scope) : List Int := 0 :: (scope.blocks.map Level.column).reverse

def keyword (scope : Scope) : Option (List Char) := scope.blocks.head?.bind Level.keyword

def separation (scope : Scope) : List Event :=
  match scope.blocks with
  | [] => []
  | level :: _ => [.separate level.kind]

/-- An item starts a new line. Right of the innermost block it continues the statement. Else the
statement has ended, and the blocks right of the item close; one must be left at its column. -/
def startLine (scope : Scope) (region : Region) : Except Fault (List Event × Scope) :=
  let column := region.start.column
  if scope.column < column then .ok ([], scope)
  else if column < scope.column ∧ column ∉ scope.columns then
    .error (.unknownColumn region scope.columns)
  else
    let closed := scope.blocks.takeWhile (·.column ≠ column)
    let left : Scope := ⟨scope.blocks.dropWhile (·.column ≠ column), none, scope.lastLine⟩
    .ok (closed.map (fun level => .leave (some (level, region.start.line))) ++ left.separation,
      left)

/-- An item is reached. It can start a new line only if it ends below the last line met, and the
first item of a list starts none. -/
def arrive (scope : Scope) (region : Region) : Except Fault (List Event × Scope) :=
  let reached : Scope := { scope with lastLine := some region.stop.line }
  match scope.lastLine with
  | none => .ok ([], reached)
  | some line => if line < region.stop.line then reached.startLine region else .ok ([], scope)

def keepsMarker (scope : Scope) (rules : Rules) : Bool :=
  match rules.marker, scope.keyword with
  | .always, _ => true
  | .selector, some keyword => rules.selectors.contains keyword
  | .selector, none => false

/-- An arrow opens a block at the column of the item that follows it, a list if a keyword was met
in the statement. If nothing follows it, the block closes at once. -/
def openBlock (scope : Scope) (rules : Rules) (marker : Token) (region : Region)
    (following : Option Region) : List Event × Scope :=
  let written := if scope.keepsMarker rules then [.write marker region] else []
  match following with
  | none => (written ++ [.enter none region.start.line, .leave none], scope)
  | some next =>
    let level : Level := ⟨next.start.column, scope.pending⟩
    (written ++ [.enter (some level) region.start.line],
      ⟨level :: scope.blocks, none, some next.stop.line⟩)

/-- A name that announces a list is remembered for the statement. -/
def noteWord (scope : Scope) (rules : Rules) (token : Token) : Scope :=
  if token.kind = .identifier ∧ rules.announces token.text then
    { scope with pending := some token.text }
  else scope

def close (scope : Scope) : List Event := scope.blocks.map fun _ => .leave none

end Scope

end Offside.Layout
