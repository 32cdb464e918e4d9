import Offside.Binary64
import Offside.Toml.Calendar

/-!
# Values of a configuration document

- `Toml.Value`, `Toml.Table`: the values, and tables in the order of their entries.
- `Value.isTrue`: whether a value counts as true.
- `Value.same`: whether a collection of distinct values holds only one of two values.
-/
namespace Offside.Toml

set_option autoImplicit false

/-- A value. A date and time may carry the offset of its zone in minutes. -/
inductive Value where
  | string (text : String)
  | integer (n : Int)
  | float (x : Binary64)
  | boolean (b : Bool)
  | date (date : Date)
  | time (time : Time)
  | dateTime (date : Date) (time : Time) (offset : Option Int)
  | array (items : List Value)
  | table (entries : List (String × Value))
  deriving Repr, BEq

abbrev Table := List (String × Value)

def Table.get? (table : Table) (key : String) : Option Value := table.lookup key

/-- Sets the value of a key, behind all other entries if the key is new. -/
def Table.put (table : Table) (key : String) (value : Value) : Table :=
  if (table.lookup key).isSome then
    table.map fun entry => if entry.1 = key then (key, value) else entry
  else table ++ [(key, value)]

/-! ## Reading values loosely -/

namespace Value

/-- Whether a value counts as true: zeros, empty texts and empty collections do not. -/
def isTrue : Value → Bool
  | .string text => text ≠ ""
  | .integer n => n ≠ 0
  | .float x => !x.isZero
  | .boolean b => b
  | .array items => !items.isEmpty
  | .table entries => !entries.isEmpty
  | _ => true

/-- A value that may be an element of a set: no collection. -/
def isElement : Value → Bool
  | .array _ => false
  | .table _ => false
  | _ => true

def integer? : Value → Option Int
  | .integer n => some n
  | .boolean b => some (if b then 1 else 0)
  | .float x => x.integer?
  | _ => none

def instant? : Value → Option (Int × Nat)
  | .dateTime d t (some offset) => some (Toml.instant d t offset)
  | _ => none

/-- Whether two elements are the same in a set. Truth values, integers and floating-point numbers
are compared as numbers, and dates and times with a zone as moments. The value that is no number is
not the same as any other, not even as another such value. -/
def same (v w : Value) : Bool :=
  match v.integer?, w.integer? with
  | some m, some n => m = n
  | none, none =>
    match v.instant?, w.instant? with
    | some i, some j => i = j
    | none, none => v == w && v != .float .notANumber
    | _, _ => false
  | _, _ => false

def text? : Value → Option String
  | .string text => some text
  | _ => none

end Value

end Offside.Toml
