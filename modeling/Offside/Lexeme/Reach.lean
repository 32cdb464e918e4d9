import Offside.Text.CharClass

/-!
# How far a literal or comment reaches

Each function reads the characters after an opening mark and answers how many of them belong to
what was opened and whether its closing mark is among them.

- `Reach`: the answer.
- `stringReach`, `rawReach`, `characterReach`, `commentReach`: for the four bracketed forms.
-/
namespace Offside.Lexeme

set_option autoImplicit false

/-- Whether a closing mark was found, and how many characters are covered. A backslash covers the
character after it even where the text ends with the backslash. -/
structure Reach where
  closed : Bool
  length : Nat
  deriving DecidableEq, Repr

def Reach.after (n : Nat) (r : Reach) : Reach := ⟨r.closed, n + r.length⟩

/-- After an opening quotation mark: up to the next one, where a backslash hides the character
after it. -/
def stringReach : List Char → Reach
  | [] => ⟨false, 0⟩
  | [c] => if c = '"' then ⟨true, 1⟩ else if c = '\\' then ⟨false, 2⟩ else ⟨false, 1⟩
  | c :: d :: rest =>
    if c = '"' then ⟨true, 1⟩
    else if c = '\\' then (stringReach rest).after 2
    else (stringReach (d :: rest)).after 1

/-- After the opening quotation mark of a raw string: up to the next quotation mark that is
followed by as many hashes as precede the opening one. -/
def rawReach (hashes : Nat) : List Char → Reach
  | [] => ⟨false, 0⟩
  | c :: rest =>
    if c = '"' ∧ (List.replicate hashes '#').isPrefixOf rest then ⟨true, 1 + hashes⟩
    else (rawReach hashes rest).after 1

/-- After the opening apostrophe of a character: one character, or a backslash, any character and
all up to the next apostrophe on the line; then the closing apostrophe. -/
def characterReach : List Char → Reach
  | [] => ⟨false, 0⟩
  | c :: rest =>
    if c = '\\' then
      let escape := ((rest.drop 1).takeWhile fun d => d != '\x27' && d != '\n').length
      ⟨rest[1 + escape]? = some '\x27', 2 + escape⟩
    else ⟨rest.head? = some '\x27', 1⟩

/-- After the mark that opens a block comment inside `depth` others: up to the mark that closes
it, comments inside it closed first. -/
def commentReach (depth : Nat) : List Char → Reach
  | [] => ⟨false, 0⟩
  | [_] => ⟨false, 1⟩
  | c :: d :: rest =>
    if c = '/' ∧ d = '*' then (commentReach (depth + 1) rest).after 2
    else if c = '*' ∧ d = '/' then
      match depth with
      | 0 => ⟨true, 2⟩
      | depth + 1 => (commentReach depth rest).after 2
    else (commentReach depth (d :: rest)).after 1

end Offside.Lexeme
