import Offside.Toml.Shown

/-!
# Faults of a configuration document

- `Toml.Problem`: what can be wrong at a place of a document.
- `Toml.Stop`: a problem and how much of the document remains there.
- `Toml.Fault`: a problem and its place, as it is reported.
-/
namespace Offside.Toml

set_option autoImplicit false

abbrev Key := List String

def shownKey : Key → String
  | [part] => "(" ++ Text.quoted part ++ ",)"
  | parts => "(" ++ ", ".intercalate (parts.map Text.quoted) ++ ")"

inductive Problem where
  | statement
  | afterStatement
  | keyStart
  | missingEquals
  | value
  | date
  | openArray
  | openInlineTable
  | openString
  | expected (text : String)
  | escape
  | hexadecimal
  | scalar
  | illegalInString (c : Char)
  | illegalHere (c : Char)
  | declaredTwice (key : Key)
  | duplicateInlineKey (part : String)
  | overwritten
  | immutable (key : Key)
  | redefined (key : Key)
  | openTableHeader
  | openArrayHeader
  | longInteger (digits : Nat)
  deriving DecidableEq, Repr

def Problem.message : Problem → String
  | statement => "Invalid statement"
  | afterStatement => "Expected newline or end of document after a statement"
  | keyStart => "Invalid initial character for a key part"
  | missingEquals => "Expected \x27=\x27 after a key in a key/value pair"
  | value => "Invalid value"
  | date => "Invalid date or datetime"
  | openArray => "Unclosed array"
  | openInlineTable => "Unclosed inline table"
  | openString => "Unterminated string"
  | expected text => "Expected " ++ Text.quoted text
  | escape => "Unescaped \x27\\\x27 in a string"
  | hexadecimal => "Invalid hex value"
  | scalar => "Escaped character is not a Unicode scalar value"
  | illegalInString c => "Illegal character " ++ Text.quoted (String.singleton c)
  | illegalHere c => "Found invalid character " ++ Text.quoted (String.singleton c)
  | declaredTwice key => "Cannot declare " ++ shownKey key ++ " twice"
  | duplicateInlineKey part => "Duplicate inline table key " ++ Text.quoted part
  | overwritten => "Cannot overwrite a value"
  | immutable key => "Cannot mutate immutable namespace " ++ shownKey key
  | redefined key => "Cannot redefine namespace " ++ shownKey key
  | openTableHeader => "Expected \x27]\x27 at the end of a table declaration"
  | openArrayHeader => "Expected \x27]]\x27 at the end of an array declaration"
  | longInteger digits => digitLimitMessage (": value has " ++ toString digits ++ " digits")

/-- Whether a problem is one of form. Only the form of an integer that is too long is in order. -/
def Problem.isOfForm : Problem → Bool
  | longInteger _ => false
  | _ => true

/-- A problem, and how many characters of the document remain where it is met. -/
structure Stop where
  problem : Problem
  remaining : Nat
  deriving DecidableEq, Repr

abbrev Parsed (α : Type) := Except Stop (α × List Char)

def stop {α : Type} (problem : Problem) (rest : List Char) : Except Stop α :=
  .error ⟨problem, rest.length⟩

/-- A problem, and the line and column at which it is met, counted from one. There is no place at
the end of the document. -/
structure Fault where
  problem : Problem
  place : Option (Nat × Nat)
  deriving DecidableEq, Repr

def Stop.fault (document : List Char) (s : Stop) : Fault :=
  let before := document.take (document.length - s.remaining)
  let line := before.count '\n' + 1
  let column := (before.reverse.takeWhile (· ≠ '\n')).length + 1
  ⟨s.problem, if s.remaining = 0 then none else some (line, column)⟩

def shownPlace : Option (Nat × Nat) → String
  | none => "end of document"
  | some (line, column) => "line " ++ toString line ++ ", column " ++ toString column

/-- What is said about a fault: the problem, and its place if it is one of form. -/
def Fault.message (fault : Fault) : String :=
  if fault.problem.isOfForm then
    fault.problem.message ++ " (at " ++ shownPlace fault.place ++ ")"
  else fault.problem.message

end Offside.Toml
