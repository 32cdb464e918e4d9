import Offside.Text.Fields
import Offside.Text.Quoted

/-!
# Paths

Names of files, brought into a normal form that keeps every step up.

- `Path`, `Path.ofText`, `Path.text`: a path and its written form.
- `Path.name?`, `Path.parent`, `Path.withName`: its last part, what holds it, and another name.
- `Path.resolve`: the place that a path leads to from a directory.
-/
namespace Offside

set_option autoImplicit false

/-- Where a path starts: where one stands, or at the root. Exactly two leading slashes are a root
of their own. -/
inductive Path.Anchor where
  | here
  | root
  | doubleRoot
  deriving DecidableEq, Repr

def Path.Anchor.text : Path.Anchor → String
  | .here => ""
  | .root => "/"
  | .doubleRoot => "//"

structure Path where
  anchor : Path.Anchor
  parts : List String
  deriving DecidableEq, Repr

namespace Path

def steps (text : List Char) : List String :=
  ((Text.fields '/' text).filter fun step => step ≠ []).map String.ofList

/-- The path that a text writes. Steps that stay in place are left out. -/
def ofText (text : String) : Path :=
  let anchor := match (text.toList.takeWhile (· = '/')).length with
    | 0 => Anchor.here
    | 2 => Anchor.doubleRoot
    | _ => Anchor.root
  ⟨anchor, (steps text.toList).filter (· ≠ ".")⟩

def text (path : Path) : String :=
  if path.anchor = .here ∧ path.parts = [] then "."
  else path.anchor.text ++ "/".intercalate path.parts

def name? (path : Path) : Option String := path.parts.getLast?

def parent (path : Path) : Path := { path with parts := path.parts.dropLast }

def child (path : Path) (name : String) : Path := { path with parts := path.parts ++ [name] }

inductive NameFault where
  | noName (path : Path)
  | badName (name : String)
  deriving DecidableEq, Repr

def NameFault.message : NameFault → String
  | noName path => "PosixPath(" ++ Text.quoted path.text ++ ") has an empty name"
  | badName name => "Invalid name " ++ Text.quoted name

/-- Whether a text is a name: one step, with no slash at its ends. -/
def isName (name : String) : Bool :=
  let path := ofText name
  name.toList.getLast? ≠ some '/' && path.anchor = .here && path.parts.length = 1

def withName (path : Path) (name : String) : Except NameFault Path :=
  match path.name? with
  | none => .error (.noName path)
  | some _ =>
    if isName name then .ok (path.parent.child name) else .error (.badName name)

/-- The place that a path leads to from a directory, by its writing alone: a step up leaves the
last step taken, and the root has nothing above it. -/
def resolve (path : Path) (directory : List String) : List String :=
  let start := if path.anchor = .here then directory else []
  path.parts.foldl (fun place step => if step = ".." then place.dropLast else place ++ [step]) start

def ofPlace (place : List String) : Path := ⟨.root, place⟩

end Path

end Offside
