import Offside.Layout.Scope
import Offside.Tree

/-!
# Layout by indentation

Blocks and separators are put into a list of trees by the columns at which its lines start. A
block opens at an arrow and closes before a line that starts left of it. Only columns, lines, the
arrow and a few keywords are looked at.

- `layoutTree`, `layoutItems`: the trace of a tree and of a list of trees.
- `Source.layout`: the trace of the trees of a source.
-/
namespace Offside

set_option autoImplicit false

/-- The arrow that a tree is, if it is one. -/
def Tree.marker? : Tree → Option Token
  | .leaf token => if token.kind = .fatArrow then some token else none
  | _ => none

def Tree.note (tree : Tree) (rules : Layout.Rules) (scope : Layout.Scope) : Layout.Scope :=
  match tree with
  | .leaf token => scope.noteWord rules token
  | _ => scope

namespace Layout

def openingToken (delimiter : Delimiter) (span : Span) : Token :=
  ⟨.openDelimiter, [delimiter.opening], span⟩

def closingToken (delimiter : Delimiter) (span : Span) : Token :=
  ⟨.closeDelimiter, [delimiter.closing], span⟩

variable (source : Source) (rules : Rules)

mutual

/-- The trace of a tree. The content of a group is laid out in a scope of its own. -/
def layoutTree : Tree → Trace
  | .leaf token => ⟨[.write token (source.resolve token.span)], none⟩
  | .group delimiter opening closing inner =>
    ((layoutItems Scope.fresh inner).andThen
      ⟨[.write (closingToken delimiter closing) (source.resolve closing)], none⟩).after
      [.write (openingToken delimiter opening) (source.resolve opening)]
  | .repetition dollar closing inner separator operator =>
    ⟨[], some (.repetition
      (source.resolve (Tree.repetition dollar closing inner separator operator).span))⟩
termination_by structural tree => tree

def layoutItems (scope : Scope) : List Tree → Trace
  | [] => ⟨scope.close, none⟩
  | tree :: rest =>
    match scope.arrive (source.resolve tree.span) with
    | .error fault => ⟨[], some fault⟩
    | .ok (events, scope) =>
      match tree.marker? with
      | some marker =>
        let (opened, scope) := scope.openBlock rules marker (source.resolve tree.span)
          (rest.head?.map fun next => source.resolve next.span)
        ((layoutItems scope rest).after opened).after events
      | none =>
        ((layoutTree tree).andThen (layoutItems (tree.note rules scope) rest)).after events
termination_by structural trees => trees

end

end Layout

def Source.layout (source : Source) (rules : Layout.Rules) (trees : List Tree) : Layout.Trace :=
  Layout.layoutItems source rules Layout.Scope.fresh trees

end Offside
