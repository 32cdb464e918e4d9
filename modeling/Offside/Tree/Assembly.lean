import Offside.Tile
import Offside.Tree.Repetition

/-!
# Matching brackets

A list of tokens is assembled into trees. The brackets that are open at a token are kept as
frames, the innermost first.

- `BracketFault`: what can be wrong with the brackets.
- `assemble`: the trees of a list of tokens, and its faults in the order they are met.
- `Source.treesOf`, `Source.trees`: the trees of a source, or what is wrong with it.
-/
namespace Offside

set_option autoImplicit false

inductive BracketFault where
  | unclosed (opener : Token)
  | unopened (closer : Token)
  | mismatched (expected : Delimiter) (closer : Token)
  deriving DecidableEq, Repr

namespace BracketFault

def token : BracketFault → Token
  | unclosed opener => opener
  | unopened closer => closer
  | mismatched _ closer => closer

def code : BracketFault → String
  | unclosed _ => "E110"
  | unopened _ => "E111"
  | mismatched _ _ => "E112"

def message : BracketFault → String
  | unclosed opener => "unclosed delimiter `" ++ String.ofList opener.text ++ "`"
  | unopened closer => "unexpected closing delimiter `" ++ String.ofList closer.text ++ "`"
  | mismatched expected closer =>
    "mismatched closing delimiter: expected `" ++ String.singleton expected.closing ++
      "`, found `" ++ String.ofList closer.text ++ "`"

def label : BracketFault → String
  | unclosed _ => "unclosed delimiter"
  | unopened _ => ""
  | mismatched _ _ => ""

def diagnostic (source : Source) (fault : BracketFault) : Diagnostic :=
  Diagnostic.errorAt source.name (source.resolve fault.token.span) fault.code fault.message
    fault.label []

end BracketFault

/-- A bracket that is open, and the trees before it in the list that holds it. -/
structure Frame where
  opener : Token
  delimiter : Delimiter
  before : List Tree
  deriving Repr

structure Assembly where
  faults : List BracketFault
  trees : List Tree
  deriving Repr

namespace Assembly

def withFault (fault : BracketFault) (assembly : Assembly) : Assembly :=
  { assembly with faults := fault :: assembly.faults }

/-- What remains where the tokens end: every open bracket is a fault, the innermost first. -/
def finish (frames : List Frame) (current : List Tree) : Assembly :=
  ⟨frames.map (.unclosed ·.opener), Tree.gather current⟩

end Assembly

/-- Assembles tokens up to the end of the text, inside the frames, after the trees that the
innermost list holds so far. A closing bracket closes the innermost frame whether or not it fits;
one without a frame is left out. -/
def assemble (frames : List Frame) (current : List Tree) : List Token → Assembly
  | [] => Assembly.finish frames current
  | token :: rest =>
    match token.kind, Delimiter.ofText? token.text with
    | .endOfText, _ => Assembly.finish frames current
    | .openDelimiter, some delimiter => assemble (⟨token, delimiter, current⟩ :: frames) [] rest
    | .closeDelimiter, _ =>
      match frames with
      | [] => (assemble [] current rest).withFault (.unopened token)
      | frame :: outer =>
        let group :=
          Tree.group frame.delimiter frame.opener.span token.span (Tree.gather current)
        let assembly := assemble outer (frame.before ++ [group]) rest
        if token.text = [frame.delimiter.closing] then assembly
        else assembly.withFault (.mismatched frame.delimiter token)
    | _, _ => assemble frames (current ++ [.leaf token]) rest

def Source.treesOf (source : Source) (tokens : List Token) :
    Except (List Diagnostic) (List Tree) :=
  match (assemble [] [] tokens).faults with
  | [] => .ok (assemble [] [] tokens).trees
  | faults => .error (faults.map (BracketFault.diagnostic source))

def Source.trees (source : Source) : Except (List Diagnostic) (List Tree) :=
  match source.tokens with
  | .ok tokens => source.treesOf tokens
  | .error diagnostics => .error diagnostics

end Offside
