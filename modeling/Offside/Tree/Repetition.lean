import Offside.Chunks
import Offside.Tree

/-!
# Repetitions

A list of trees in which every repetition has been gathered into one tree.

- `Tree.repetition?`: the repetition that starts at a tree.
- `Tree.gather`: a list with its repetitions gathered.
-/
namespace Offside

set_option autoImplicit false

/-- Whether a repetition can start at a token. An operator without a text would do as well, but
none is read. -/
def Token.isDollar (token : Token) : Bool :=
  token.kind = .operator && (token.text = [] || token.text = ['$'])

def Token.isRepeat (token : Token) : Bool :=
  token.kind = .operator && (token.text = ['*'] || token.text = ['+'] || token.text = ['?'])

namespace Tree

/-- The repetition that starts at a tree, and how many of the trees after it it takes. The form
without a separator is preferred. -/
def repetition? : Tree → List Tree → Option (Tree × Nat)
  | leaf dollar, group .paren _ closing inner :: leaf next :: more =>
    if dollar.isDollar then
      if next.isRepeat then some (repetition dollar.span closing inner none next, 2)
      else match more with
        | leaf operator :: _ =>
          if operator.isRepeat then
            some (repetition dollar.span closing inner (some next) operator, 3)
          else none
        | _ => none
    else none
  | _, _ => none

def gatherStep (first : Tree) (rest : List Tree) : Tree × Nat :=
  (repetition? first rest).getD (first, 0)

/-- A list of trees with its repetitions gathered, from the left. -/
def gather (trees : List Tree) : List Tree := chunks gatherStep 0 trees

@[simp] theorem gather_nil : gather [] = [] := rfl

theorem gather_cons (first : Tree) (rest : List Tree) :
    gather (first :: rest) =
      (gatherStep first rest).1 :: gather (rest.drop (gatherStep first rest).2) :=
  chunks_cons gatherStep first rest

/-- What holds of no trees, and of trees when it holds behind what is gathered first, holds of
every list of trees. -/
theorem gather_induction {motive : List Tree → Prop} (nil : motive [])
    (step : ∀ first rest, motive (rest.drop (gatherStep first rest).2) → motive (first :: rest))
    (trees : List Tree) : motive trees :=
  chunks_induction gatherStep nil step trees

end Tree

end Offside
