import Offside.Emitter
import Offside.Layout
import Offside.Tree.Assembly

/-!
# Conversion

A text without block braces becomes the punctuated text.

- `CompileFailure`: why a text cannot be converted.
- `Emitter.layOut`: what a source appends to an output that has begun.
- `Source.convert`: the converted text, or why there is none, and what was told on the way.
-/
namespace Offside

set_option autoImplicit false

def version : String := "0.1.0"

/-- Why a text cannot be converted: all that is wrong with its tokens or brackets, or the first
thing that its layout meets. -/
inductive CompileFailure where
  | rejected (diagnostics : List Diagnostic)
  | layout (diagnostic : Diagnostic)
  deriving DecidableEq, Repr

namespace CompileFailure

def diagnostics : CompileFailure → List Diagnostic
  | rejected diagnostics => diagnostics
  | layout diagnostic => [diagnostic]

def message (failure : CompileFailure) : String := Diagnostic.summary failure.diagnostics

end CompileFailure

/-- What one source appends to an output: the text, up to a failure if there is one, what was told
on the way, and the emitter after it. -/
structure Passage where
  written : List Char
  log : List Log.Record
  failure : Option CompileFailure
  emitter : Emitter

/-- Lays a source out behind what an emitter has written. A source whose tokens or brackets are at
fault writes nothing. -/
def Emitter.layOut (emitter : Emitter) (rules : Layout.Rules) (source : Source) : Passage :=
  match source.trees with
  | .error diagnostics => ⟨[], [], some (.rejected diagnostics), emitter⟩
  | .ok trees =>
    let trace := source.layout rules trees
    let (written, emitter) := emitter.run trace.events
    ⟨written, trace.events.filterMap Layout.Event.record?,
      trace.fault.map fun fault => .layout (fault.diagnostic source.name), emitter⟩

structure Conversion where
  log : List Log.Record
  result : Except CompileFailure (List Char)

/-- Converts a source. The text ends with a line end if anything is in it; on a failure there is
no text. -/
def Source.convert (source : Source) (rules : Layout.Rules) : Conversion :=
  let passage := (Emitter.fresh rules.preserveBlankLines).layOut rules source
  ⟨passage.log, match passage.failure with
    | some failure => .error failure
    | none => .ok (passage.written ++ passage.emitter.finish)⟩

end Offside
