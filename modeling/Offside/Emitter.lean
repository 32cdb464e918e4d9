import Offside.Layout.Event

/-!
# Placing text at its columns

Tokens are written at the columns at which they stood, and punctuation right behind what stands
before it.

- `Emitter`: where the last token ended, and whether anything was written.
- `Emitter.write`, `Emitter.punct`, `Emitter.finish`: the text that a step appends.
- `Emitter.run`: the text of a list of events.
-/
namespace Offside

set_option autoImplicit false

/-- The position just past the last token written, in the source that it came from, and whether
anything was written. -/
structure Emitter where
  preserveBlankLines : Bool
  cursor : Option Position
  dirty : Bool
  deriving DecidableEq, Repr

namespace Emitter

def fresh (preserveBlankLines : Bool) : Emitter := ⟨preserveBlankLines, none, false⟩

def spaces (n : Int) : List Char := List.replicate n.toNat ' '

/-- What stands between the last token and one that starts at a position: a line end, or all that
were passed if blank lines are kept, and the column of the start; on the same line the distance. -/
def gap (emitter : Emitter) (start : Position) : List Char :=
  match emitter.cursor with
  | none => spaces start.column
  | some cursor =>
    if cursor.line < start.line then
      let passed := if emitter.preserveBlankLines then start.line - cursor.line else 1
      List.replicate passed.toNat '\n' ++ spaces start.column
    else spaces (start.column - cursor.column)

def write (emitter : Emitter) (text : List Char) (region : Region) : List Char × Emitter :=
  (emitter.gap region.start ++ text,
    { emitter with cursor := some region.stop, dirty := true })

def punct (emitter : Emitter) (text : List Char) : List Char × Emitter :=
  (text, { emitter with dirty := true })

def finish (emitter : Emitter) : List Char := if emitter.dirty then ['\n'] else []

def step (emitter : Emitter) : Layout.Event → List Char × Emitter
  | .write token region => emitter.write token.text region
  | event => emitter.punct event.punctuation

def run (emitter : Emitter) : List Layout.Event → List Char × Emitter
  | [] => ([], emitter)
  | event :: rest =>
    let (text, stepped) := emitter.step event
    let (more, last) := stepped.run rest
    (text ++ more, last)

/-! ## Running in parts -/

theorem run_append (emitter : Emitter) (l r : List Layout.Event) :
    emitter.run (l ++ r) =
      ((emitter.run l).1 ++ ((emitter.run l).2.run r).1, ((emitter.run l).2.run r).2) := by
  induction l generalizing emitter with
  | nil => rfl
  | cons event rest ih => simp [run, ih]

end Emitter

end Offside
