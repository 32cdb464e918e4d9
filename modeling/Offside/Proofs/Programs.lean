import Offside.Conversion
import Offside.Proofs.Pieces

/-!
# Block programs

Programs as they are meant: blocks of statements, each perhaps with a block of its own. A program
is written with or without the punctuation of its blocks.

- `Word`, `Leaf`, `Gap`, `Head`: the words of a statement and what stands between them.
- `Statement`, `Block`: the programs.
- `Punctuation`, `Block.text`: the text of a program.
- `Block.Fits`: the columns at which a program can be written.
- `Block.words`, `textOfWords_words`: the words of a program, which make up its text.
-/
namespace Offside

set_option autoImplicit false

open Layout

/-! ## Words and heads -/

/-- A text on one line that is read as one token. -/
structure Word where
  kind : TokenKind
  text : List Char
  read : pieces text = [.of (.token kind) text]
  line : '\n' ∉ text

/-- A word that is neither an arrow nor a bracket. -/
structure Leaf extends Word where
  notArrow : kind ≠ .fatArrow
  notBracket : kind ≠ .openDelimiter ∧ kind ≠ .closeDelimiter

def Word.arrow : Word := ⟨.fatArrow, fatArrow, by decide +kernel, by decide⟩

def Word.announces (rules : Rules) (word : Word) : Bool :=
  word.kind = .identifier && rules.announces word.text

def newLine (column : Nat) : List Char := '\n' :: List.replicate column ' '

/-- What stands between two words of a statement: a space, or a new line from a column on. -/
inductive Gap where
  | space
  | wrap (column : Nat)
  deriving DecidableEq, Repr

def Gap.text : Gap → List Char
  | .space => [' ']
  | .wrap column => newLine column

/-- A wrapped line starts right of its block. -/
def Gap.Fits (column : Nat) : Gap → Prop
  | .space => True
  | .wrap wrapped => column < wrapped

/-- The words of a statement, at least one, up to the arrow if there is one. -/
structure Head where
  first : Leaf
  rest : List (Gap × Leaf)

namespace Head

def text (head : Head) : List Char :=
  head.first.text ++ head.rest.flatMap fun next => next.1.text ++ next.2.text

def announces (rules : Rules) (head : Head) : Bool :=
  head.first.announces rules || head.rest.any fun next => next.2.announces rules

def Fits (column : Nat) (head : Head) : Prop := ∀ next ∈ head.rest, next.1.Fits column

end Head

/-! ## Programs -/

mutual

/-- A head alone, or a head that opens a block at a column after an arrow. -/
inductive Statement where
  | plain (head : Head)
  | opens (head : Head) (gap : Gap) (column : Nat) (body : Block)

/-- At least one statement. -/
inductive Block where
  | last (statement : Statement)
  | next (statement : Statement) (rest : Block)

end

/-- What is written at the start, at the end and between the statements of a block. -/
structure Punctuation where
  opening : List Char
  closing : List Char
  separator : Head → List Char

namespace Punctuation

def bare : Punctuation := ⟨[], [], fun _ => []⟩

/-- Braces around every block, commas in those that a keyword announces and semicolons in any
other. -/
def full (rules : Rules) : Punctuation :=
  ⟨blockOpening, blockClosing, fun head => if head.announces rules then [','] else [';']⟩

end Punctuation

mutual

/-- The text of a statement. The block that it opens is written on the lines behind the arrow. -/
def Statement.text (style : Punctuation) : Statement → List Char
  | .plain head => head.text
  | .opens head gap column body =>
    head.text ++ gap.text ++ fatArrow ++ style.opening ++ newLine column ++
      body.text style column (style.separator head) ++ style.closing
termination_by structural statement => statement

/-- The text of a block at a column, with a separator behind every statement but the last. -/
def Block.text (style : Punctuation) (column : Nat) (separator : List Char) : Block → List Char
  | .last statement => statement.text style
  | .next statement rest =>
    statement.text style ++ separator ++ newLine column ++ rest.text style column separator
termination_by structural block => block

end

mutual

/-- The lines of a statement start right of its block, and so does the block that it opens. -/
def Statement.Fits (column : Nat) : Statement → Prop
  | .plain head => head.Fits column
  | .opens head gap inner body =>
    head.Fits column ∧ gap.Fits column ∧ column < inner ∧ body.Fits inner
termination_by structural statement => statement

def Block.Fits (column : Nat) : Block → Prop
  | .last statement => statement.Fits column
  | .next statement rest => statement.Fits column ∧ rest.Fits column
termination_by structural block => block

end

/-! ## The words of a program -/

def textOfWords (words : List (List Char × Word)) : List Char :=
  words.flatMap fun next => next.1 ++ next.2.text

@[simp] theorem textOfWords_nil : textOfWords [] = [] := rfl

@[simp] theorem textOfWords_cons (lead : List Char) (word : Word)
    (words : List (List Char × Word)) :
    textOfWords ((lead, word) :: words) = lead ++ word.text ++ textOfWords words := rfl

@[simp] theorem textOfWords_append (l r : List (List Char × Word)) :
    textOfWords (l ++ r) = textOfWords l ++ textOfWords r := List.flatMap_append

def Head.tail (head : Head) : List (List Char × Word) :=
  head.rest.map fun next => (next.1.text, next.2.toWord)

mutual

def Statement.words (lead : List Char) : Statement → List (List Char × Word)
  | .plain head => (lead, head.first.toWord) :: head.tail
  | .opens head gap column body =>
    (lead, head.first.toWord) :: (head.tail ++
      (gap.text, Word.arrow) :: body.words column (newLine column))
termination_by structural statement => statement

def Block.words (column : Nat) (lead : List Char) : Block → List (List Char × Word)
  | .last statement => statement.words lead
  | .next statement rest => statement.words lead ++ rest.words column (newLine column)
termination_by structural block => block

end

theorem Head.text_eq (head : Head) : head.text = head.first.text ++ textOfWords head.tail := by
  rw [Head.text, Head.tail, textOfWords, List.flatMap_map]

mutual

theorem Statement.textOfWords_words (lead : List Char) (statement : Statement) :
    textOfWords (statement.words lead) = lead ++ statement.text .bare := by
  cases statement with
  | plain head => simp [Statement.words, Statement.text, head.text_eq]
  | opens head gap column body =>
    have hb := Block.textOfWords_words column (newLine column) body
    simp [Statement.words, Statement.text, head.text_eq, hb, Punctuation.bare, Word.arrow]
termination_by structural statement

theorem Block.textOfWords_words (column : Nat) (lead : List Char) (block : Block) :
    textOfWords (block.words column lead) = lead ++ block.text .bare column [] := by
  cases block with
  | last statement =>
    rw [Block.words, Block.text]
    exact Statement.textOfWords_words lead statement
  | next statement rest =>
    have hs := Statement.textOfWords_words lead statement
    have hr := Block.textOfWords_words column (newLine column) rest
    simp [Block.words, Block.text, hs, hr]
termination_by structural block

end

def Word.NotBracket (word : Word) : Prop :=
  word.kind ≠ .openDelimiter ∧ word.kind ≠ .closeDelimiter

/-- What stands before a word is a gap, and the word is no bracket. -/
def IsInside (next : List Char × Word) : Prop :=
  (∃ gap : Gap, next.1 = gap.text) ∧ next.2.NotBracket

theorem Head.isInside_of_mem_tail {head : Head} {next : List Char × Word} (h : next ∈ head.tail) :
    IsInside next := by
  obtain ⟨⟨gap, leaf⟩, -, rfl⟩ := List.mem_map.mp h
  exact ⟨⟨gap, rfl⟩, leaf.notBracket⟩

mutual

theorem Statement.exists_words_eq_cons (lead : List Char) (statement : Statement) :
    ∃ word rest, statement.words lead = (lead, word) :: rest ∧ word.NotBracket ∧
      ∀ next ∈ rest, IsInside next := by
  cases statement with
  | plain head =>
    exact ⟨_, _, by rw [Statement.words], head.first.notBracket,
      fun _ h => Head.isInside_of_mem_tail h⟩
  | opens head gap column body =>
    obtain ⟨word, rest, hw, hword, hrest⟩ := Block.exists_words_eq_cons column (newLine column) body
    refine ⟨_, _, by rw [Statement.words], head.first.notBracket, fun next h => ?_⟩
    rcases List.mem_append.mp h with h | h
    · exact Head.isInside_of_mem_tail h
    · rw [hw] at h
      rcases List.mem_cons.mp h with rfl | h
      · exact ⟨⟨gap, rfl⟩, by simp [Word.NotBracket, Word.arrow]⟩
      · rcases List.mem_cons.mp h with rfl | h
        · exact ⟨⟨.wrap column, rfl⟩, hword⟩
        · exact hrest next h
termination_by structural statement

theorem Block.exists_words_eq_cons (column : Nat) (lead : List Char) (block : Block) :
    ∃ word rest, block.words column lead = (lead, word) :: rest ∧ word.NotBracket ∧
      ∀ next ∈ rest, IsInside next := by
  cases block with
  | last statement =>
    rw [Block.words]
    exact Statement.exists_words_eq_cons lead statement
  | next statement more =>
    obtain ⟨word, rest, hw, hword, hrest⟩ := Statement.exists_words_eq_cons lead statement
    obtain ⟨word', rest', hw', hword', hrest'⟩ :=
      Block.exists_words_eq_cons column (newLine column) more
    refine ⟨word, rest ++ (newLine column, word') :: rest', by rw [Block.words, hw, hw']; rfl,
      hword, fun next h => ?_⟩
    rcases List.mem_append.mp h with h | h
    · exact hrest next h
    · rcases List.mem_cons.mp h with rfl | h
      · exact ⟨⟨.wrap column, rfl⟩, hword'⟩
      · exact hrest' next h
termination_by structural block

end

end Offside
