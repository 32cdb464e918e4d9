import Mathlib.Data.List.Forall2
import Offside.Proofs.TreeSpelling

/-!
# Well-matched brackets

Trees are built of exactly the tokens whose brackets match, and no token is lost in them.

- `WellMatched`: the well-matched words of brackets.
- `brackets`: the brackets among tokens, as they are written.
- `exists_nests_iff`: tokens nest where their brackets are well matched.
- `Tree.kept`: the tokens of a tree as far as the tree keeps them.
- `Source.forall₂_kept`: the trees of a source keep its tokens.
- `Source.treesOf_balanced`: when tokens have trees, and what these keep of them.
-/
namespace Offside

set_option autoImplicit false

open Layout (openingToken closingToken)

/-! ## Words of brackets -/

/-- The words in which every bracket is closed by its own counterpart, in turn. -/
inductive WellMatched : List Char → Prop
  | nil : WellMatched []
  | pair (d : Delimiter) {inside behind : List Char} (hi : WellMatched inside)
      (h : WellMatched behind) : WellMatched (d.opening :: (inside ++ d.closing :: behind))

/-- What a token adds to the word of brackets. -/
def Token.bracket (token : Token) : List Char :=
  if token.kind = .openDelimiter ∨ token.kind = .closeDelimiter then token.text else []

/-- The brackets among tokens, as they are written. -/
def brackets (tokens : List Token) : List Char := tokens.flatMap Token.bracket

@[simp] theorem brackets_nil : brackets [] = [] := rfl

@[simp] theorem brackets_cons (token : Token) (tokens : List Token) :
    brackets (token :: tokens) = token.bracket ++ brackets tokens := rfl

@[simp] theorem brackets_append (ts us : List Token) :
    brackets (ts ++ us) = brackets ts ++ brackets us := List.flatMap_append

theorem Token.IsLeaf.bracket_eq {token : Token} (h : token.IsLeaf) : token.bracket = [] := by
  simp [Token.bracket, h.1, h.2.1]

@[simp] theorem bracket_openingToken (d : Delimiter) (span : Span) :
    (openingToken d span).bracket = [d.opening] := rfl

@[simp] theorem bracket_closingToken (d : Delimiter) (span : Span) :
    (closingToken d span).bracket = [d.closing] := rfl

theorem Delimiter.mem_all (d : Delimiter) : d ∈ all := by
  cases d <;> decide

theorem opening_ne_closing (d d' : Delimiter) : d.opening ≠ d'.closing := by
  cases d <;> cases d' <;> decide

theorem opening_injective {d d' : Delimiter} (h : d.opening = d'.opening) : d = d' := by
  revert h
  cases d <;> cases d' <;> decide

theorem closing_injective {d d' : Delimiter} (h : d.closing = d'.closing) : d = d' := by
  revert h
  cases d <;> cases d' <;> decide

namespace Token.IsMarked

variable {token : Token}

/-- A token is no bracket, or one of the six. -/
theorem cases (h : token.IsMarked) :
    token.IsLeaf ∨ (∃ d, token = openingToken d token.span) ∨
      ∃ d, token = closingToken d token.span := by
  by_cases ho : token.kind = .openDelimiter
  · obtain ⟨d, hd⟩ := h.opening ho
    exact .inr (.inl ⟨d, eq_openingToken ho hd⟩)
  by_cases hc : token.kind = .closeDelimiter
  · obtain ⟨d, hd⟩ := h.closing hc
    exact .inr (.inr ⟨d, eq_closingToken hc hd⟩)
  · exact .inl ⟨ho, hc, h.kind_ne⟩

theorem eq_opening (h : token.IsMarked) {d : Delimiter} (hb : token.bracket = [d.opening]) :
    token = openingToken d token.span := by
  obtain hl | ⟨d', ho⟩ | ⟨d', hc⟩ := h.cases
  · simp [hl.bracket_eq] at hb
  · rw [ho, bracket_openingToken, List.singleton_inj] at hb
    rwa [← opening_injective hb]
  · rw [hc, bracket_closingToken, List.singleton_inj] at hb
    exact absurd hb.symm (opening_ne_closing d d')

theorem eq_closing (h : token.IsMarked) {d : Delimiter} (hb : token.bracket = [d.closing]) :
    token = closingToken d token.span := by
  obtain hl | ⟨d', ho⟩ | ⟨d', hc⟩ := h.cases
  · simp [hl.bracket_eq] at hb
  · rw [ho, bracket_openingToken, List.singleton_inj] at hb
    exact absurd hb (opening_ne_closing d' d)
  · rw [hc, bracket_closingToken, List.singleton_inj] at hb
    rwa [← closing_injective hb]

/-- A token adds one bracket to the word, or none. -/
theorem bracket_cases (h : token.IsMarked) : token.bracket = [] ∨ ∃ c, token.bracket = [c] := by
  obtain hl | ⟨d, ho⟩ | ⟨d, hc⟩ := h.cases
  · exact .inl hl.bracket_eq
  · exact .inr ⟨d.opening, by rw [ho]; rfl⟩
  · exact .inr ⟨d.closing, by rw [hc]; rfl⟩

instance (token : Token) : Decidable token.IsMarked :=
  decidable_of_iff (token.kind ≠ .endOfText ∧
      (token.kind = .openDelimiter → ∃ d ∈ Delimiter.all, token.text = [d.opening]) ∧
      (token.kind = .closeDelimiter → ∃ d ∈ Delimiter.all, token.text = [d.closing]))
    ⟨fun ⟨hk, ho, hc⟩ => ⟨hk, fun h => (ho h).imp fun _ => And.right,
        fun h => (hc h).imp fun _ => And.right⟩,
      fun ⟨hk, ho, hc⟩ => ⟨hk, fun h => (ho h).imp fun d hd => ⟨d.mem_all, hd⟩,
        fun h => (hc h).imp fun d hd => ⟨d.mem_all, hd⟩⟩⟩

end Token.IsMarked

/-! ## Nesting -/

theorem Nests.wellMatched {trees : List Tree} {tokens : List Token} (h : Nests trees tokens) :
    WellMatched (brackets tokens) := by
  induction h with
  | nil => exact .nil
  | leaf hl _ ih =>
    rw [brackets_cons, hl.bracket_eq]
    exact ih
  | group d o c _ _ ihi ih => simpa using WellMatched.pair d ihi ih

theorem exists_nests_of_leaves {tokens : List Token} (h : ∀ token ∈ tokens, token.IsLeaf) :
    Nests (tokens.map Tree.leaf) tokens := by
  induction tokens with
  | nil => exact .nil
  | cons token tokens ih =>
    exact .leaf (h token List.mem_cons_self) (ih fun t ht => h t (List.mem_cons_of_mem token ht))

/-- A bracket of the word is one of the tokens. -/
theorem exists_bracket {tokens : List Token} (hm : ∀ token ∈ tokens, token.IsMarked)
    {before behind : List Char} {c : Char} (h : brackets tokens = before ++ c :: behind) :
    ∃ ts token us, tokens = ts ++ token :: us ∧ brackets ts = before ∧ token.bracket = [c] ∧
      brackets us = behind := by
  induction tokens generalizing before with
  | nil => simp at h
  | cons token tokens ih =>
    have hrest {before : List Char} (h : brackets tokens = before ++ c :: behind) :=
      ih (fun t ht => hm t (List.mem_cons_of_mem token ht)) h
    rw [brackets_cons] at h
    obtain hb | ⟨b, hb⟩ := (hm token List.mem_cons_self).bracket_cases
    · rw [hb, List.nil_append] at h
      obtain ⟨ts, found, us, rfl, hts, hfound, hus⟩ := hrest h
      exact ⟨token :: ts, found, us, rfl, by rw [brackets_cons, hb, hts]; rfl, hfound, hus⟩
    · rw [hb, List.singleton_append] at h
      cases before with
      | nil =>
        obtain ⟨rfl, hus⟩ := List.cons.inj h
        exact ⟨[], token, tokens, rfl, rfl, hb, hus⟩
      | cons e before =>
        obtain ⟨rfl, hbehind⟩ := List.cons.inj h
        obtain ⟨ts, found, us, rfl, hts, hfound, hus⟩ := hrest hbehind
        exact ⟨token :: ts, found, us, rfl, by rw [brackets_cons, hb, hts]; rfl, hfound, hus⟩

theorem isLeaf_of_brackets {tokens : List Token} (hm : ∀ token ∈ tokens, token.IsMarked)
    (h : brackets tokens = []) : ∀ token ∈ tokens, token.IsLeaf := by
  intro token ht
  have hb : token.bracket = [] := List.flatMap_eq_nil_iff.mp h token ht
  obtain hl | ⟨d, ho⟩ | ⟨d, hc⟩ := (hm token ht).cases
  · exact hl
  · rw [ho] at hb
    simp at hb
  · rw [hc] at hb
    simp at hb

/-- Tokens with well-matched brackets nest. -/
theorem WellMatched.exists_nests {word : List Char} (h : WellMatched word) {tokens : List Token}
    (hm : ∀ token ∈ tokens, token.IsMarked) (hb : brackets tokens = word) :
    ∃ trees, Nests trees tokens := by
  induction h generalizing tokens with
  | nil => exact ⟨_, exists_nests_of_leaves (isLeaf_of_brackets hm hb)⟩
  | @pair d inside behind _ _ ihi ih =>
    obtain ⟨before, opener, rest, rfl, hbefore, hopener, hrest⟩ :=
      exists_bracket hm (hb.trans (List.nil_append _).symm)
    obtain ⟨ts, closer, us, rfl, hts, hcloser, hus⟩ :=
      exists_bracket (fun t ht => hm t (by simp [ht])) hrest
    have hopen := (hm opener (by simp)).eq_opening hopener
    have hclose := (hm closer (by simp)).eq_closing hcloser
    obtain ⟨inner, hinner⟩ := ihi (fun t ht => hm t (by simp [ht])) hts
    obtain ⟨trees, htrees⟩ := ih (fun t ht => hm t (by simp [ht])) hus
    have hleaves := exists_nests_of_leaves
      (isLeaf_of_brackets (fun t ht => hm t (by simp [ht])) hbefore)
    have hgroup := Nests.group d opener.span closer.span hinner htrees
    rw [← hopen, ← hclose] at hgroup
    exact ⟨_, hleaves.append hgroup⟩

theorem exists_nests_iff {tokens : List Token} (hm : ∀ token ∈ tokens, token.IsMarked) :
    (∃ trees, Nests trees tokens) ↔ WellMatched (brackets tokens) :=
  ⟨fun ⟨_, h⟩ => h.wellMatched, fun h => h.exists_nests hm rfl⟩

/-! ## What trees keep of their tokens -/

/-- A token as a tree keeps it: with its span, or without. -/
structure Kept where
  kind : TokenKind
  text : List Char
  span : Option Span
  deriving DecidableEq, Repr

def Token.kept (token : Token) : Kept := ⟨token.kind, token.text, some token.span⟩

/-- The kind and the text are those of the token, and so is the span where it is kept. -/
structure Kept.Of (kept : Kept) (token : Token) : Prop where
  kind_eq : kept.kind = token.kind
  text_eq : kept.text = token.text
  span_eq : ∀ span ∈ kept.span, span = token.span

theorem Token.kept_of (token : Token) : token.kept.Of token :=
  ⟨rfl, rfl, fun _ hs => (Option.some.inj hs).symm⟩

mutual

/-- The tokens of a tree, in order. Only where the parenthesis of a repetition stands is not
kept. -/
def Tree.kept : Tree → List Kept
  | .leaf token => [token.kept]
  | .group delimiter opening closing inner =>
    (openingToken delimiter opening).kept ::
      (keptOf inner ++ [(closingToken delimiter closing).kept])
  | .repetition dollar closing inner separator operator =>
    ⟨.operator, ['$'], some dollar⟩ :: ⟨.openDelimiter, ['('], none⟩ ::
      (keptOf inner ++ (closingToken .paren closing).kept ::
        (separator.toList.map Token.kept ++ [operator.kept]))

def keptOf : List Tree → List Kept
  | [] => []
  | tree :: trees => tree.kept ++ keptOf trees

end

theorem eq_of_isDollar {token : Token} (h : token.isDollar = true)
    (hw : token.kind = .operator → token.text ≠ []) :
    token.kind = .operator ∧ token.text = ['$'] := by
  obtain ⟨hkind, htext⟩ : token.kind = .operator ∧ (token.text = [] ∨ token.text = ['$']) := by
    simpa [Token.isDollar] using h
  exact ⟨hkind, htext.resolve_left (hw hkind)⟩

/-- Trees keep the tokens that spell them, if every operator is written. -/
theorem Spells.forall₂_kept {trees : List Tree} {tokens : List Token} (h : Spells trees tokens)
    (hw : ∀ token ∈ tokens, token.kind = .operator → token.text ≠ []) :
    List.Forall₂ Kept.Of (keptOf trees) tokens := by
  induction h with
  | nil => exact .nil
  | @leaf token trees tokens _ _ ih =>
    exact .cons token.kept_of (ih fun t ht => hw t (by simp [ht]))
  | @group d o c inner trees inside tokens _ _ ihi ih =>
    have hinside := ihi fun t ht => hw t (by simp [ht])
    have hbehind := ih fun t ht => hw t (by simp [ht])
    rw [keptOf, Tree.kept, List.cons_append, List.append_assoc, List.singleton_append]
    exact .cons (Token.kept_of _) (List.rel_append hinside (.cons (Token.kept_of _) hbehind))
  | @repetition dollar operator separator o c inner trees inside tokens hd _ _ _ _ ihi ih =>
    obtain ⟨hkind, htext⟩ := eq_of_isDollar hd (hw dollar (by simp))
    have hseparator : List.Forall₂ Kept.Of (separator.toList.map Token.kept) separator.toList :=
      List.forall₂_map_left_iff.mpr (List.forall₂_same.mpr fun token _ => token.kept_of)
    have hdollar : Kept.Of ⟨.operator, ['$'], some dollar.span⟩ dollar :=
      ⟨hkind.symm, htext.symm, fun _ hs => (Option.some.inj hs).symm⟩
    have hopener : Kept.Of ⟨.openDelimiter, ['('], none⟩ (openingToken .paren o) :=
      ⟨rfl, rfl, fun _ hs => by simp at hs⟩
    have hbehind := List.rel_append hseparator
      (.cons operator.kept_of (ih fun t ht => hw t (by simp [ht])))
    have hinside := List.rel_append (ihi fun t ht => hw t (by simp [ht]))
      (.cons (closingToken .paren c).kept_of hbehind)
    simpa [keptOf, Tree.kept] using List.Forall₂.cons hdollar (.cons hopener hinside)

/-- A token that is read has a text. -/
theorem text_ne_nil_of_mem_tokensAt (offset : Nat) {ps : List Piece} (h : Legible ps) :
    ∀ token ∈ tokensAt offset ps, token.text ≠ [] := by
  induction ps generalizing offset with
  | nil => simp
  | cons piece ps ih =>
    intro token ht
    obtain ⟨kind, -, hcons⟩ | ⟨-, hcons⟩ := tokensAt_cons_cases offset piece ps
    · rw [hcons] at ht
      rcases List.mem_cons.mp ht with rfl | ht
      · obtain ⟨c, rest, hp, -⟩ := h.1
        rw [hp]
        exact List.cons_ne_nil c rest
      · exact ih _ h.2 token ht
    · rw [hcons] at ht
      exact ih _ h.2 token ht

/-- The trees of a source keep its tokens. -/
theorem Source.forall₂_kept (source : Source) {trees : List Tree} (h : source.trees = .ok trees) :
    List.Forall₂ Kept.Of (keptOf trees) (tokensAt 0 (pieces source.chars)) := by
  obtain ⟨hs, hspells⟩ := source.spells_trees h
  have hread := text_ne_nil_of_mem_tokensAt 0 (legible_pieces source.chars hs)
  exact hspells.forall₂_kept fun token ht _ => hread token ht

/-! ## The trees of tokens -/

theorem Source.treesOf_of_nests (source : Source) {trees : List Tree} {tokens : List Token}
    (h : Nests trees tokens) {last : Token} (hl : last.kind = .endOfText) :
    source.treesOf (tokens ++ [last]) = .ok (Tree.gather trees) := by
  simp only [treesOf, h.assemble_eq_gather hl]

/-- Tokens have trees, or at least one thing is wrong with them. -/
theorem Source.treesOf_cases (source : Source) {tokens : List Token} {last : Token}
    (hm : ∀ token ∈ tokens, token.IsMarked) (hl : last.kind = .endOfText) :
    (∃ trees, Nests trees tokens) ∨
      ∃ d ds, source.treesOf (tokens ++ [last]) = .error (d :: ds) := by
  cases hf : (assemble [] [] (tokens ++ [last])).faults with
  | nil => exact .inl (exists_nests hm hl hf)
  | cons fault faults => exact .inr ⟨_, _, by simp only [treesOf, hf]; rfl⟩

/-- Tokens before the end of the text have trees where their brackets are well matched, and a
diagnostic where they are not. The trees keep every token, in order, and where each stands but the
parenthesis of a repetition. What starts a repetition is kept as a dollar sign, so no operator may
be without a text; none that is read is (`text_ne_nil_of_mem_tokensAt`). -/
theorem Source.treesOf_balanced (source : Source) {tokens : List Token} {last : Token}
    (hm : ∀ token ∈ tokens, token.IsMarked) (hl : last.kind = .endOfText) :
    ((∃ trees, source.treesOf (tokens ++ [last]) = .ok trees) ↔ WellMatched (brackets tokens)) ∧
      (¬ WellMatched (brackets tokens) →
        ∃ d ds, source.treesOf (tokens ++ [last]) = .error (d :: ds)) ∧
      ((∀ token ∈ tokens, token.kind = .operator → token.text ≠ []) →
        ∀ trees, source.treesOf (tokens ++ [last]) = .ok trees →
          List.Forall₂ Kept.Of (keptOf trees) tokens) := by
  rw [← exists_nests_iff hm]
  obtain ⟨raw, h⟩ | ⟨d, ds, h⟩ := source.treesOf_cases hm hl
  · have hok := source.treesOf_of_nests h hl
    refine ⟨⟨fun _ => ⟨raw, h⟩, fun _ => ⟨_, hok⟩⟩, fun hno => absurd ⟨raw, h⟩ hno, ?_⟩
    intro hw trees htrees
    obtain rfl := Except.ok.inj (hok.symm.trans htrees)
    exact h.spells.gather.forall₂_kept hw
  · have hno (trees : List Tree) : source.treesOf (tokens ++ [last]) ≠ .ok trees := by
      intro htrees
      rw [h] at htrees
      cases htrees
    refine ⟨⟨fun ⟨trees, htrees⟩ => absurd htrees (hno trees), fun ⟨raw, hraw⟩ => ?_⟩,
      fun _ => ⟨d, ds, h⟩, fun _ trees htrees => absurd htrees (hno trees)⟩
    exact absurd (source.treesOf_of_nests hraw hl) (hno _)

theorem repeatedWords_balanced :
    let source := Source.ofText "words" "$([a], b \x7b\x7d).*".toList
    let tokens := source.lex.tokens.dropLast
    WellMatched ['(', '[', ']', '\x7b', '\x7d', ')'] ∧
      ∃ trees, source.treesOf (tokens ++ [endToken 16]) = .ok trees ∧
        List.Forall₂ Kept.Of (keptOf trees) tokens := by
  intro source tokens
  have hm : ∀ token ∈ tokens, token.IsMarked := by decide +kernel
  have hw : ∀ token ∈ tokens, token.kind = .operator → token.text ≠ [] := by decide +kernel
  have hword : brackets tokens = ['(', '[', ']', '\x7b', '\x7d', ')'] := by decide +kernel
  have hmatched : WellMatched ['(', '[', ']', '\x7b', '\x7d', ')'] :=
    .pair .paren (.pair .bracket .nil (.pair .brace .nil .nil)) .nil
  have hlast : (endToken 16).kind = .endOfText := rfl
  obtain ⟨hiff, -, hkept⟩ := source.treesOf_balanced hm hlast
  obtain ⟨trees, htrees⟩ := hiff.mpr (hword ▸ hmatched)
  exact ⟨hmatched, trees, htrees, hkept hw trees htrees⟩

end Offside
