import Offside.Source
import Offside.Text.Quoted

/-!
# Diagnostics

What is reported about a source text.

- `Diagnostic`: a coded message with labels that point into sources, and notes.
- `Diagnostic.errorAt`: an error with one label.
- `Diagnostic.summary`: a list of diagnostics in one line.
-/
namespace Offside

set_option autoImplicit false

inductive Severity where
  | error
  | warning
  | note
  deriving DecidableEq, Repr

namespace Severity

def word : Severity → String
  | .error => "error"
  | .warning => "warning"
  | .note => "note"

def ofWord? (word : String) : Option Severity :=
  [error, warning, note].find? (·.word = word)

def unknownMessage (word : String) : String :=
  Text.quoted word ++ " is not a valid Severity"

end Severity

structure Label where
  file : String
  region : Region
  message : String
  deriving DecidableEq, Repr

/-- A coded message with the places it is about and further notes. -/
structure Diagnostic where
  severity : Severity
  code : String
  message : String
  labels : List Label
  notes : List String
  deriving DecidableEq, Repr

namespace Diagnostic

def errorAt (file : String) (region : Region) (code message label : String)
    (notes : List String) : Diagnostic :=
  ⟨.error, code, message, [⟨file, region, label⟩], notes⟩

def summary (diagnostics : List Diagnostic) : String :=
  toString diagnostics.length ++ " error(s): " ++
    "; ".intercalate (diagnostics.map Diagnostic.message)

end Diagnostic

end Offside
