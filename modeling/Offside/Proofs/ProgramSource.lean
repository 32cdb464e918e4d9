import Offside.Proofs.Programs
import Offside.Proofs.Rereading

/-!
# The trees of a program

The words of a program are read off its text one by one, and without brackets each is a tree of
its own.

- `readsAs_words`: words behind blanks are read as they are.
- `Stands`: leaves that stand where words put them.
- `stands_tokensAt`: the tokens of words stand where the words put them.
- `Source.trees_of_isLeaf`: tokens without brackets are their own trees.
-/
namespace Offside

set_option autoImplicit false

open Layout

/-! ## Reading words -/

def IsBlank (c : Char) : Prop := c = ' ' ∨ c = '\n'

def Word.piece (word : Word) : Piece := .of (.token word.kind) word.text

def piecesOfWords (words : List (List Char × Word)) : List Piece :=
  words.flatMap fun next => blankPieces next.1 ++ [next.2.piece]

@[simp] theorem piecesOfWords_cons (lead : List Char) (word : Word)
    (words : List (List Char × Word)) :
    piecesOfWords ((lead, word) :: words) =
      blankPieces lead ++ word.piece :: piecesOfWords words := by
  simp [piecesOfWords]

theorem Word.text_ne_nil (word : Word) : word.text ≠ [] := by
  intro h
  have hread := word.read
  rw [h] at hread
  simp [pieces, chunks] at hread

theorem Word.readBefore (word : Word) {qs : List Piece} (hs : Severed (textOf qs)) :
    word.piece.ReadBefore (textOf qs) := by
  have hsound : ∀ piece ∈ pieces word.text, piece.IsSound := by
    rw [word.read]
    simp [Piece.IsSound, Piece.of]
  have hl := legible_pieces word.text hsound
  rw [word.read] at hl
  exact Piece.ReadBefore.of_tight rfl hl.1 (.severed hs)

/-- Each word but the first stands behind blanks, and all stand behind nothing else. -/
def Spaced (words : List (List Char × Word)) : Prop :=
  (∀ next ∈ words, ∀ c ∈ next.1, IsBlank c) ∧ ∀ next ∈ words.tail, next.1 ≠ []

theorem Spaced.tail {next : List Char × Word} {words : List (List Char × Word)}
    (h : Spaced (next :: words)) : Spaced words :=
  ⟨fun n hn => h.1 n (List.mem_cons_of_mem next hn), fun n hn => h.2 n (List.mem_of_mem_tail hn)⟩

theorem severed_of_blank {blanks : List Char} (hne : blanks ≠ []) (hb : ∀ c ∈ blanks, IsBlank c)
    (text : List Char) : Severed (blanks ++ text) := by
  cases blanks with
  | nil => exact absurd rfl hne
  | cons c blanks =>
    rcases hb c List.mem_cons_self with rfl | rfl <;> exact Severed.cons rfl _

/-- Words behind blanks are read as they are before a text that cuts the last one off. -/
theorem readsAs_words {words : List (List Char × Word)} (hw : Spaced words) {qs : List Piece}
    {ending : List Char} (hq : ReadsAs qs ending []) (hs : Severed ending) :
    ReadsAs (piecesOfWords words ++ qs) (textOfWords words ++ ending)
      (words.map fun next => (next.2.kind, next.2.text)) := by
  induction words with
  | nil => exact hq
  | cons next words ih =>
    obtain ⟨lead, word⟩ := next
    have hr := ih hw.tail
    have hsevered : Severed (textOfWords words ++ ending) := by
      cases words with
      | nil => exact hs
      | cons next' words =>
        obtain ⟨lead', word'⟩ := next'
        rw [textOfWords_cons, List.append_assoc, List.append_assoc]
        exact severed_of_blank (hw.2 (lead', word') List.mem_cons_self)
          (hw.1 (lead', word') (by simp)) _
    rw [← hr.text_eq] at hsevered
    have hread := word.readBefore hsevered
    rw [hr.text_eq] at hread
    have hall := (hr.token rfl hread).blanks (hw.1 (lead, word) List.mem_cons_self)
    rw [piecesOfWords_cons, textOfWords_cons, List.append_assoc, List.append_assoc,
      List.append_assoc]
    exact hall

/-! ## Where words stand -/

/-- Leaves that stand where words put them, read from a position. -/
inductive Stands (source : Source) : Position → List (List Char × Word) → List Tree → Prop
  | nil (p : Position) : Stands source p [] []
  | cons {p : Position} {lead : List Char} {word : Word} {words : List (List Char × Word)}
      {items : List Tree} {token : Token} (hk : token.kind = word.kind)
      (ht : token.text = word.text)
      (hr : source.resolve token.span = ⟨p.after lead, (p.after lead).after word.text⟩)
      (h : Stands source ((p.after lead).after word.text) words items) :
      Stands source p ((lead, word) :: words) (.leaf token :: items)

theorem stands_tokensAt (source : Source) {before : List Char}
    {words : List (List Char × Word)} {blanks : List Char}
    (h : source.chars = before ++ (textOfWords words ++ blanks)) :
    Stands source (Position.origin.after before) words
      ((tokensAt before.length (piecesOfWords words ++ blankPieces blanks)).map .leaf) := by
  induction words generalizing before with
  | nil =>
    have hnone := tokensAt_blankPieces before.length blanks []
    rw [List.append_nil, tokensAt_nil] at hnone
    rw [piecesOfWords, List.flatMap_nil, List.nil_append, hnone]
    exact .nil _
  | cons next words ih =>
    obtain ⟨lead, word⟩ := next
    rw [textOfWords_cons] at h
    have hstart :
        source.chars = (before ++ lead) ++ (word.text ++ (textOfWords words ++ blanks)) := by
      simpa using h
    have hbehind : source.chars =
        (before ++ lead ++ word.text) ++ (textOfWords words ++ blanks) := by
      simpa using h
    have hrest := ih hbehind
    rw [Position.after_append, Position.after_append] at hrest
    rw [piecesOfWords_cons, List.append_assoc, tokensAt_blankPieces, List.cons_append,
      tokensAt_cons_token _ rfl, List.map_cons]
    refine .cons rfl rfl ?_ ?_
    · have hregion := source.resolve_of_split hstart word.text_ne_nil
        fun hlast => word.line (List.mem_of_getLast? hlast)
      rwa [List.length_append, Position.after_append] at hregion
    · simpa [Word.piece, Piece.of, Nat.add_assoc] using hrest

/-! ## Tokens without brackets -/

theorem gather_leaves (tokens : List Token) :
    Tree.gather (tokens.map .leaf) = tokens.map .leaf := by
  induction tokens with
  | nil => rfl
  | cons token tokens ih =>
    have hnone : Tree.repetition? (.leaf token) (tokens.map .leaf) = none := by
      cases tokens <;> rfl
    rw [List.map_cons, Tree.gather_cons, Tree.gatherStep, hnone]
    simpa using ih

theorem assemble_leaves {tokens : List Token} (hl : ∀ token ∈ tokens, token.IsLeaf) {last : Token}
    (hk : last.kind = .endOfText) (current : List Tree) :
    assemble [] current (tokens ++ [last]) =
      Assembly.finish [] (current ++ tokens.map .leaf) := by
  induction tokens generalizing current with
  | nil => simpa using assemble_end [] current hk []
  | cons token tokens ih =>
    rw [List.cons_append, assemble_leaf _ _ (hl token List.mem_cons_self),
      ih (fun t ht => hl t (List.mem_cons_of_mem token ht))]
    simp

theorem Source.trees_of_isLeaf (source : Source) {tokens : List Token} {offset : Nat}
    (ht : source.tokens = .ok (tokens ++ [endToken offset]))
    (hl : ∀ token ∈ tokens, token.IsLeaf) : source.trees = .ok (tokens.map .leaf) := by
  have ha := assemble_leaves hl (show (endToken offset).kind = .endOfText from rfl) []
  rw [List.nil_append] at ha
  simp only [Source.trees, ht, Source.treesOf, ha, Assembly.finish, List.map_nil, gather_leaves]

/-! ## The source of a program -/

theorem blank_of_mem_gap (gap : Gap) : gap.text ≠ [] ∧ ∀ c ∈ gap.text, IsBlank c := by
  cases gap with
  | space => simp [Gap.text, IsBlank]
  | wrap column =>
    refine ⟨by simp [Gap.text, newLine], fun c hc => ?_⟩
    rcases List.mem_cons.mp hc with rfl | hc
    · exact .inr rfl
    · exact .inl (List.eq_of_mem_replicate hc)

theorem readsAs_newlines (k : Nat) :
    ReadsAs (blankPieces (List.replicate k '\n')) (List.replicate k '\n') [] := by
  have hb : ∀ c ∈ List.replicate k '\n', c = ' ' ∨ c = '\n' :=
    fun c hc => .inr (List.eq_of_mem_replicate hc)
  simpa [blankPieces] using ReadsAs.nil.blanks hb

theorem Block.exists_tokens (block : Block) (name : String) (k : Nat) :
    let source := Source.ofText name (block.text .bare 0 [] ++ List.replicate k '\n')
    ∃ tokens offset, source.tokens = .ok (tokens ++ [endToken offset]) ∧
      (∀ token ∈ tokens, token.IsLeaf) ∧
      Stands source Position.origin (block.words 0 []) (tokens.map .leaf) := by
  intro source
  obtain ⟨word, rest, hw, hword, hrest⟩ := block.exists_words_eq_cons 0 []
  have hspaced : Spaced (block.words 0 []) := by
    rw [hw]
    refine ⟨fun next h => ?_, fun next h => ?_⟩
    · rcases List.mem_cons.mp h with rfl | h
      · simp
      · obtain ⟨⟨gap, hgap⟩, -⟩ := hrest next h
        rw [hgap]
        exact (blank_of_mem_gap gap).2
    · obtain ⟨⟨gap, hgap⟩, -⟩ := hrest next h
      rw [hgap]
      exact (blank_of_mem_gap gap).1
  have hplain : ∀ next ∈ block.words 0 [], next.2.NotBracket := by
    rw [hw]
    intro next h
    rcases List.mem_cons.mp h with rfl | h
    · exact hword
    · exact (hrest next h).2
  have hsevered : Severed (List.replicate k '\n') := by
    cases k with
    | zero => exact Severed.nil
    | succ k => exact Severed.cons rfl _
  have hr := readsAs_words hspaced (readsAs_newlines k) hsevered
  have htext : textOfWords (block.words 0 []) = block.text .bare 0 [] :=
    block.textOfWords_words 0 []
  have htokens := Source.tokens_of_legible name hr.legible hr.sound
  rw [hr.text_eq, htext] at htokens
  refine ⟨_, _, htokens, fun token ht => ?_, ?_⟩
  · have hmem := List.mem_map_of_mem (f := Token.word) ht
    rw [map_word_tokensAt, hr.words_eq] at hmem
    obtain ⟨next, hnext, heq⟩ := List.mem_map.mp hmem
    have hkind : next.2.kind = token.kind := congrArg Prod.fst heq
    have hnot := hplain next hnext
    rw [Word.NotBracket, hkind] at hnot
    exact ⟨hnot.1, hnot.2, (isSpelled_tokensAt 0 hr.legible token ht).kind_ne⟩
  · have hchars : source.chars =
        [] ++ (textOfWords (block.words 0 []) ++ List.replicate k '\n') := by
      rw [htext]
      rfl
    exact stands_tokensAt source hchars

end Offside
