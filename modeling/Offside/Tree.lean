import Offside.Token

/-!
# Token trees

A program text with its brackets matched.

- `Tree`: a token, a bracketed group, or a macro repetition.
- `Tree.span`: the stretch of text that a tree covers.
-/
namespace Offside

set_option autoImplicit false

/-- A token, or what stands between two brackets, or a repetition: a dollar sign, a parenthesised
content, perhaps a separator, and an operator that says how often. -/
inductive Tree where
  | leaf (token : Token)
  | group (delimiter : Delimiter) (opening closing : Span) (inner : List Tree)
  | repetition (dollar closing : Span) (inner : List Tree) (separator : Option Token)
      (operator : Token)
  deriving Repr

namespace Tree

def span : Tree → Span
  | leaf token => token.span
  | group _ opening closing _ => ⟨opening.lo, closing.hi⟩
  | repetition dollar _ _ _ operator => ⟨dollar.lo, operator.span.hi⟩

end Tree

end Offside
