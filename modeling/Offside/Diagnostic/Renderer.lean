import Offside.Diagnostic
import Offside.Disk
import Offside.Text.Ansi
import Offside.Text.Lines
import Offside.Text.Utf8

/-!
# Showing diagnostics

A diagnostic is shown with the lines it points at and carets under what it marks. The lines of a
file are looked up once and remembered, also where there were none.

- `Renderer`: whether colours are used, and the lines remembered for each file.
- `Renderer.render`: a diagnostic as text.
-/
namespace Offside

set_option autoImplicit false

open Text (Style)

abbrev TextLines := List (List Char)

/-- Whether colours are used, and the lines that are remembered for each file name. -/
structure Renderer where
  color : Bool
  known : List (String × TextLines)

def Severity.style : Severity → Style
  | .error => .red
  | .warning => .yellow
  | .note => .cyan

namespace Renderer

def fresh (color : Bool) : Renderer := ⟨color, []⟩

def remember (renderer : Renderer) (file : String) (lines : TextLines) : Renderer :=
  { renderer with known := (file, lines) :: renderer.known.filter (·.1 ≠ file) }

def addSource (renderer : Renderer) (source : Source) : Renderer :=
  renderer.remember source.name source.lines

def linesOnDisk (disk : Disk) (file : String) : Except Text.Utf8.Fault TextLines :=
  match disk.read (Path.ofText file).text with
  | .error _ => .ok []
  | .ok octets =>
    match Text.Utf8.decode octets with
    | .error fault => .error fault
    | .ok cs => .ok (Text.lines (Text.unifyLineEnds cs))

/-- The lines to show of a file, and the renderer that remembers them. A file that is no text is
not remembered. -/
def lookUp (renderer : Renderer) (disk : Disk) (file : String) :
    Except Text.Utf8.Fault (TextLines × Renderer) :=
  match renderer.known.lookup file with
  | some lines => .ok (lines, renderer)
  | none =>
    match linesOnDisk disk file with
    | .error fault => .error fault
    | .ok lines => .ok (lines, renderer.remember file lines)

/-! ## Rows -/

def paint (color : Bool) (style : Style) (cs : List Char) : List Char :=
  if color then Text.styled style cs else cs

def headline (color : Bool) (d : Diagnostic) : List Char :=
  paint color d.severity.style (d.severity.word ++ "[" ++ d.code ++ "]").toList ++
    paint color .bold (": " ++ d.message).toList

def marginRow (color : Bool) (mark rest : List Char) : List Char :=
  ' ' :: ' ' :: paint color .blue mark ++ rest

def bar : List Char := [' ', ' ', ' ', '|']

def numberedBar (number : Int) : List Char :=
  let digits := (toString number).toList
  List.replicate (4 - digits.length) ' ' ++ digits ++ [' ', '|']

def repeated (n : Int) (c : Char) : List Char := List.replicate n.toNat c

def placeRow (color : Bool) (label : Label) : List Char :=
  let start := label.region.start
  marginRow color ['-', '-', '>'] (" " ++ label.file ++ ":" ++ toString (start.line + 1) ++ ":" ++
    toString (start.column + 1)).toList

/-- The row of carets under a region of one line, at least one. -/
def caretRow (color : Bool) (style : Style) (region : Region) : List Char :=
  let width := max 1 (region.stop.column - region.start.column)
  marginRow color bar
    (' ' :: repeated region.start.column ' ' ++ paint color style (repeated width '^'))

def labelRows (color : Bool) (style : Style) (label : Label) (line : Option (List Char)) :
    List (List Char) :=
  let number := label.region.start.line + 1
  [placeRow color label, marginRow color bar []] ++
    (line.map fun text => marginRow color (numberedBar number) (' ' :: text)).toList ++
    (if label.region.start.line = label.region.stop.line then
      [caretRow color style label.region] else []) ++
    (if label.message = "" then []
      else [marginRow color bar
        (' ' :: ' ' :: ' ' :: paint color style label.message.toList)])

def noteRow (color : Bool) (note : String) : List Char :=
  marginRow color ['='] (" note: " ++ note).toList

/-! ## Diagnostics -/

/-- The rows of labels, looked up one after the other. What was looked up before a failure stays
remembered. -/
def renderLabels (disk : Disk) (style : Style) :
    Renderer → List Label → Renderer × Except Text.Utf8.Fault (List (List Char))
  | renderer, [] => (renderer, .ok [])
  | renderer, label :: rest =>
    match renderer.lookUp disk label.file with
    | .error fault => (renderer, .error fault)
    | .ok (lines, looked) =>
      let line := lineNumbered? lines (label.region.start.line + 1)
      let (last, more) := renderLabels disk style looked rest
      (last, more.map (labelRows renderer.color style label line ++ ·))

def render (renderer : Renderer) (disk : Disk) (d : Diagnostic) :
    Renderer × Except Text.Utf8.Fault (List Char) :=
  let (last, rows) := renderLabels disk d.severity.style renderer d.labels
  (last, rows.map fun rows =>
    ['\n'].intercalate
      ([headline renderer.color d] ++ rows ++ d.notes.map (noteRow renderer.color)))

end Renderer

end Offside
