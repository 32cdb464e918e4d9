import Offside.Diagnostic
import Offside.Layout.Level
import Offside.Log
import Offside.Token

/-!
# What a layout does

A layout is a sequence of events: tokens written where they stood, and punctuation put in.

- `Event`: one step, the punctuation it puts in, and what is told of it.
- `Fault`: why a layout stops.
- `Trace`: the events up to the end or up to a fault.
-/
namespace Offside.Layout

set_option autoImplicit false

inductive Event where
  | write (token : Token) (region : Region)
  /-- A block opens after an arrow on a line. Without a level nothing follows the arrow. -/
  | enter (level : Option Level) (line : Int)
  /-- A block closes, either before a line that starts left of it or at the end of its list. -/
  | leave (dedent : Option (Level × Int))
  | separate (kind : BlockKind)
  deriving DecidableEq, Repr

def Event.punctuation : Event → List Char
  | .write _ _ => []
  | .enter _ _ => blockOpening
  | .leave _ => blockClosing
  | .separate kind => kind.separator

def Event.record? : Event → Option Log.Record
  | .enter (some level) line =>
    some ⟨.debug, Log.layoutLogger, "opening " ++ level.kind.name ++ " block at column " ++
      toString level.column ++ " (line " ++ toString (line + 1) ++ ")"⟩
  | .leave (some (level, line)) =>
    some ⟨.debug, Log.layoutLogger, "closing block at column " ++
      toString level.column ++ " (line " ++ toString (line + 1) ++ ")"⟩
  | _ => none

inductive Fault where
  /-- A line starts left of the innermost block and at the column of none. -/
  | unknownColumn (region : Region) (columns : List Int)
  | repetition (region : Region)
  deriving DecidableEq, Repr

def Fault.diagnostic (file : String) : Fault → Diagnostic
  | .unknownColumn region columns =>
    Diagnostic.errorAt file region "E200" "unindent does not match any outer indentation level"
      "dedent to an unknown column"
      ["open blocks start at columns " ++
        ", ".intercalate (columns.map fun column => toString (column + 1))]
  | .repetition region =>
    Diagnostic.errorAt file region "E201" "unexpected macro repetition"
      "layout cannot be resolved inside `$( ... )`" []

/-- The events of a layout, and the fault that ended it early. -/
structure Trace where
  events : List Event
  fault : Option Fault
  deriving DecidableEq, Repr

namespace Trace

def after (events : List Event) (trace : Trace) : Trace :=
  ⟨events ++ trace.events, trace.fault⟩

/-- One trace and then another, unless the first ends in a fault. -/
def andThen (first second : Trace) : Trace :=
  match first.fault with
  | some _ => first
  | none => second.after first.events

end Trace

end Offside.Layout
