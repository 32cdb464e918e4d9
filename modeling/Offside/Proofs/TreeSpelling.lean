import Offside.Conversion
import Offside.Proofs.Reading

/-!
# The tokens that trees are made of

Trees are spelled by the tokens they were assembled from: a group by its brackets and content, a
repetition by its sign, parentheses, separator and operator.

- `Spells`: trees and the tokens that spell them, in order.
- `Repeating`: where a repetition starts, and what it takes.
- `Spells.gather`: gathering repetitions keeps the tokens.
- `Token.IsMarked`: a token whose bracket, if it is one, is one of the three.
- `Takes`: what a token that is no fault does to the open brackets.
- `Nests`: the trees between two brackets before they are gathered, and their tokens.
- `exists_nests`, `Nests.assemble_eq`: tokens without faults nest, and what nests is assembled.
- `spells_of_assemble`: the trees of brackets without faults are spelled by the tokens.
- `Source.spells_trees`: the trees of a source are spelled by its tokens.
- `ListedIn`: the lists of items that a layout passes over, the groups at every depth included.
-/
namespace Offside

set_option autoImplicit false

open Layout (openingToken closingToken)

/-- A token that neither is a bracket nor ends the text. -/
def Token.IsLeaf (token : Token) : Prop :=
  token.kind ≠ .openDelimiter ∧ token.kind ≠ .closeDelimiter ∧ token.kind ≠ .endOfText

theorem Token.IsLeaf.of_isPlain {token : Token} (h : token.kind.isPlain = true) : token.IsLeaf := by
  refine ⟨?_, ?_, ?_⟩ <;> (intro hk; simp [hk, TokenKind.isPlain] at h)

/-- Trees and the tokens that spell them. Where the parenthesis of a repetition stood is not known
from the tree. -/
inductive Spells : List Tree → List Token → Prop
  | nil : Spells [] []
  | leaf {token : Token} {trees : List Tree} {tokens : List Token} (hl : token.IsLeaf)
      (h : Spells trees tokens) : Spells (.leaf token :: trees) (token :: tokens)
  | group (delimiter : Delimiter) (opening closing : Span) {inner trees : List Tree}
      {inside tokens : List Token} (hi : Spells inner inside) (h : Spells trees tokens) :
      Spells (.group delimiter opening closing inner :: trees)
        (openingToken delimiter opening :: (inside ++ closingToken delimiter closing :: tokens))
  | repetition {dollar operator : Token} {separator : Option Token} (opening closing : Span)
      {inner trees : List Tree} {inside tokens : List Token} (hd : dollar.isDollar = true)
      (ho : operator.isRepeat = true) (hs : ∀ token ∈ separator, token.IsLeaf)
      (hi : Spells inner inside) (h : Spells trees tokens) :
      Spells (.repetition dollar.span closing inner separator operator :: trees)
        (dollar :: openingToken .paren opening :: (inside ++ closingToken .paren closing ::
          (separator.toList ++ operator :: tokens)))

theorem Spells.append {l r : List Tree} {ts us : List Token} (hl : Spells l ts)
    (hr : Spells r us) : Spells (l ++ r) (ts ++ us) := by
  induction hl with
  | nil => exact hr
  | leaf hleaf _ ih => exact .leaf hleaf ih
  | group d o c hi _ _ ih =>
    have h := Spells.group d o c hi ih
    simpa using h
  | repetition o c hd ho hs hi _ _ ih =>
    have h := Spells.repetition o c hd ho hs hi ih
    simpa using h

theorem Spells.leaf_eq {token : Token} {tokens : List Token} (h : Spells [.leaf token] tokens) :
    tokens = [token] := by
  cases h with
  | leaf _ h =>
    cases h
    rfl

theorem Spells.uncons {first : Tree} {rest : List Tree} {tokens : List Token}
    (h : Spells (first :: rest) tokens) :
    ∃ ts us, tokens = ts ++ us ∧ Spells [first] ts ∧ Spells rest us := by
  cases h with
  | leaf hl h => exact ⟨[_], _, rfl, .leaf hl .nil, h⟩
  | group d o c hi h => exact ⟨_, _, by simp, .group d o c hi .nil, h⟩
  | repetition o c hd ho hs hi h => exact ⟨_, _, by simp, .repetition o c hd ho hs hi .nil, h⟩

theorem Spells.of_append {l r : List Tree} {tokens : List Token} (h : Spells (l ++ r) tokens) :
    ∃ ts us, tokens = ts ++ us ∧ Spells l ts ∧ Spells r us := by
  induction l generalizing tokens with
  | nil => exact ⟨[], tokens, rfl, .nil, h⟩
  | cons first l ih =>
    obtain ⟨ts, us, rfl, hfirst, hrest⟩ := h.uncons
    obtain ⟨vs, ws, rfl, hl, hr⟩ := ih hrest
    exact ⟨ts ++ vs, ws, (List.append_assoc ts vs ws).symm, hfirst.append hl, hr⟩

theorem Spells.exists_of_mem {trees : List Tree} {tokens : List Token} (h : Spells trees tokens)
    {tree : Tree} (hm : tree ∈ trees) : ∃ ts, Spells [tree] ts ∧ ts.Sublist tokens := by
  obtain ⟨l, r, rfl⟩ := List.append_of_mem hm
  obtain ⟨ts, us, rfl, -, hr⟩ := h.of_append
  obtain ⟨vs, ws, rfl, htree, -⟩ := hr.uncons
  exact ⟨vs, htree, (List.sublist_append_left vs ws).trans (List.sublist_append_right ts _)⟩

/-! ## Repetitions -/

/-- A repetition starts at a tree and takes some of the trees behind it. -/
inductive Repeating : Tree → List Tree → Tree → Nat → Prop
  | plain {dollar operator : Token} (hd : dollar.isDollar = true) (ho : operator.isRepeat = true)
      (o c : Span) (inner behind : List Tree) :
      Repeating (.leaf dollar) (.group .paren o c inner :: .leaf operator :: behind)
        (.repetition dollar.span c inner none operator) 2
  | parted {dollar separator operator : Token} (hd : dollar.isDollar = true)
      (hs : separator.isRepeat = false) (ho : operator.isRepeat = true) (o c : Span)
      (inner behind : List Tree) :
      Repeating (.leaf dollar)
        (.group .paren o c inner :: .leaf separator :: .leaf operator :: behind)
        (.repetition dollar.span c inner (some separator) operator) 3

theorem repetition?_eq_some_iff {first found : Tree} {rest : List Tree} {taken : Nat} :
    Tree.repetition? first rest = some (found, taken) ↔ Repeating first rest found taken := by
  constructor
  · intro h
    unfold Tree.repetition? at h
    split at h
    · split_ifs at h with hdollar hrepeat
      · simp only [Option.some.injEq, Prod.mk.injEq] at h
        obtain ⟨rfl, rfl⟩ := h
        exact .plain hdollar hrepeat _ _ _ _
      · split at h
        · split_ifs at h with hop
          simp only [Option.some.injEq, Prod.mk.injEq] at h
          obtain ⟨rfl, rfl⟩ := h
          exact .parted hdollar (by simpa using hrepeat) hop _ _ _ _
        · simp at h
    · simp at h
  · intro h
    cases h with
    | plain hd ho => simp [Tree.repetition?, hd, ho]
    | parted hd hs ho => simp [Tree.repetition?, hd, hs, ho]

theorem Repeating.spells {first found : Tree} {rest : List Tree} {taken : Nat}
    (hr : Repeating first rest found taken) {tokens : List Token}
    (h : Spells (first :: rest) tokens) :
    ∃ ts us, tokens = ts ++ us ∧ Spells [found] ts ∧ Spells (rest.drop taken) us := by
  cases hr with
  | plain hd ho o c inner behind =>
    cases h with
    | leaf _ h => cases h with
      | group _ _ _ hi h => cases h with
        | leaf hl h =>
          refine ⟨_, _, ?_, .repetition o c hd ho (by simp) hi .nil, h⟩
          simp
  | @parted _ separator _ hd _ ho o c inner behind =>
    cases h with
    | leaf _ h => cases h with
      | group _ _ _ hi h => cases h with
        | leaf hs h => cases h with
          | leaf _ h =>
            have hs : ∀ token ∈ some separator, token.IsLeaf := by simpa using hs
            refine ⟨_, _, ?_, .repetition o c hd ho hs hi .nil, h⟩
            simp

theorem Spells.gather {trees : List Tree} {tokens : List Token} (h : Spells trees tokens) :
    Spells (Tree.gather trees) tokens := by
  induction trees using Tree.gather_induction generalizing tokens with
  | nil => exact h
  | step first rest ih =>
    rw [Tree.gather_cons]
    rw [Tree.gatherStep] at ih ⊢
    cases hr : Tree.repetition? first rest with
    | none =>
      obtain ⟨ts, us, rfl, hfirst, hrest⟩ := h.uncons
      rw [hr] at ih
      exact hfirst.append (ih hrest)
    | some pair =>
      obtain ⟨found, taken⟩ := pair
      obtain ⟨ts, us, rfl, hfound, hrest⟩ := (repetition?_eq_some_iff.mp hr).spells h
      rw [hr] at ih
      exact hfound.append (ih hrest)

/-! ## Assembling -/

theorem assemble_end (frames : List Frame) (current : List Tree) {token : Token}
    (hk : token.kind = .endOfText) (rest : List Token) :
    assemble frames current (token :: rest) = Assembly.finish frames current := by
  simp [assemble, hk]

theorem assemble_leaf (frames : List Frame) (current : List Tree) {token : Token}
    (h : token.IsLeaf) (rest : List Token) :
    assemble frames current (token :: rest) = assemble frames (current ++ [.leaf token]) rest := by
  obtain ⟨ho, hc, he⟩ := h
  rw [assemble.eq_def]
  simp only
  split
  · exact absurd (by assumption) he
  · exact absurd (by assumption) ho
  · exact absurd (by assumption) hc
  · rfl

theorem assemble_open (frames : List Frame) (current : List Tree) {token : Token} {d : Delimiter}
    (hk : token.kind = .openDelimiter) (hd : Delimiter.ofText? token.text = some d)
    (rest : List Token) :
    assemble frames current (token :: rest) = assemble (⟨token, d, current⟩ :: frames) [] rest := by
  simp [assemble, hk, hd]

theorem assemble_close_cons (frame : Frame) (outer : List Frame) (current : List Tree)
    {token : Token} (hk : token.kind = .closeDelimiter) (rest : List Token) :
    assemble (frame :: outer) current (token :: rest) =
      let group := Tree.group frame.delimiter frame.opener.span token.span (Tree.gather current)
      let assembly := assemble outer (frame.before ++ [group]) rest
      if token.text = [frame.delimiter.closing] then assembly
      else assembly.withFault (.mismatched frame.delimiter token) := by
  simp [assemble, hk]

theorem assemble_close_nil (current : List Tree) {token : Token}
    (hk : token.kind = .closeDelimiter) (rest : List Token) :
    assemble [] current (token :: rest) =
      (assemble [] current rest).withFault (.unopened token) := by
  simp [assemble, hk]

theorem ofText?_of_isOpening {c : Char} (h : isOpening c = true) :
    ∃ d : Delimiter, Delimiter.ofText? [c] = some d ∧ [c] = [d.opening] := by
  simp only [isOpening, Bool.or_eq_true, beq_iff_eq] at h
  rcases h with (rfl | rfl) | rfl
  · exact ⟨.paren, by decide, rfl⟩
  · exact ⟨.bracket, by decide, rfl⟩
  · exact ⟨.brace, by decide, rfl⟩

theorem exists_closing_of_isClosing {c : Char} (h : isClosing c = true) :
    ∃ d : Delimiter, [c] = [d.closing] := by
  simp only [isClosing, Bool.or_eq_true, beq_iff_eq] at h
  rcases h with (rfl | rfl) | rfl
  · exact ⟨.paren, rfl⟩
  · exact ⟨.bracket, rfl⟩
  · exact ⟨.brace, rfl⟩

/-- A token that does not end the text. An opening or closing bracket is written as one of the
three. -/
structure Token.IsMarked (token : Token) : Prop where
  kind_ne : token.kind ≠ .endOfText
  opening : token.kind = .openDelimiter → ∃ d : Delimiter, token.text = [d.opening]
  closing : token.kind = .closeDelimiter → ∃ d : Delimiter, token.text = [d.closing]

theorem Token.IsSpelled.isMarked {token : Token} (h : token.IsSpelled) : token.IsMarked := by
  refine ⟨h.kind_ne, fun hk => ?_, fun hk => ?_⟩
  · obtain ⟨c, hc, ho⟩ : ∃ c, token.text = [c] ∧ isOpening c = true := by
      simpa [IsSpelled, hk, TokenKind.isPlain] using h
    obtain ⟨d, -, hd⟩ := ofText?_of_isOpening ho
    exact ⟨d, hc.trans hd⟩
  · obtain ⟨c, hc, ho⟩ : ∃ c, token.text = [c] ∧ isClosing c = true := by
      simpa [IsSpelled, hk, TokenKind.isPlain] using h
    obtain ⟨d, hd⟩ := exists_closing_of_isClosing ho
    exact ⟨d, hc.trans hd⟩

theorem eq_openingToken {token : Token} {d : Delimiter} (hk : token.kind = .openDelimiter)
    (ht : token.text = [d.opening]) : token = openingToken d token.span := by
  cases token
  simp only [openingToken, Token.mk.injEq, and_true] at hk ht ⊢
  exact ⟨hk, ht⟩

theorem eq_closingToken {token : Token} {d : Delimiter} (hk : token.kind = .closeDelimiter)
    (ht : token.text = [d.closing]) : token = closingToken d token.span := by
  cases token
  simp only [closingToken, Token.mk.injEq, and_true] at hk ht ⊢
  exact ⟨hk, ht⟩

/-- What a token that is no fault does to the open brackets and to the trees behind the innermost
of them. -/
inductive Takes (token : Token) : List Frame → List Tree → List Frame → List Tree → Prop
  | leaf (frames : List Frame) (current : List Tree) (hl : token.IsLeaf) :
      Takes token frames current frames (current ++ [.leaf token])
  | opens (frames : List Frame) (current : List Tree) (d : Delimiter)
      (ho : token = openingToken d token.span) :
      Takes token frames current (⟨token, d, current⟩ :: frames) []
  | closes (frame : Frame) (outer : List Frame) (current : List Tree)
      (hc : token = closingToken frame.delimiter token.span) :
      Takes token (frame :: outer) current outer (frame.before ++
        [.group frame.delimiter frame.opener.span token.span (Tree.gather current)])

section Takes

variable {token : Token} {frames frames' : List Frame} {current current' : List Tree}

theorem Takes.assemble_eq (h : Takes token frames current frames' current') (rest : List Token) :
    assemble frames current (token :: rest) = assemble frames' current' rest := by
  cases h with
  | leaf _ _ hl => exact assemble_leaf _ _ hl rest
  | opens _ _ d ho =>
    have hk : token.kind = .openDelimiter := by rw [ho]; rfl
    have hd : Delimiter.ofText? token.text = some d := by
      rw [ho]
      exact Delimiter.ofText?_opening d
    exact assemble_open _ _ hk hd rest
  | closes frame outer _ hc =>
    have hk : token.kind = .closeDelimiter := by rw [hc]; rfl
    have hfit : token.text = [frame.delimiter.closing] := by rw [hc]; rfl
    rw [assemble_close_cons _ _ _ hk]
    exact if_pos hfit

/-- Where the brackets have no fault, every token does one of three things. -/
theorem exists_takes (hs : token.IsMarked) {rest : List Token}
    (hno : (assemble frames current (token :: rest)).faults = []) :
    ∃ frames' current', Takes token frames current frames' current' := by
  by_cases ho : token.kind = .openDelimiter
  · obtain ⟨d, hd⟩ := hs.opening ho
    exact ⟨_, _, .opens frames current d (eq_openingToken ho hd)⟩
  by_cases hc : token.kind = .closeDelimiter
  · cases frames with
    | nil =>
      rw [assemble_close_nil _ hc] at hno
      simp [Assembly.withFault] at hno
    | cons frame outer =>
      rw [assemble_close_cons _ _ _ hc] at hno
      simp only at hno
      split_ifs at hno with hfit
      · exact ⟨_, _, .closes frame outer current (eq_closingToken hc hfit)⟩
      · simp [Assembly.withFault] at hno
  · exact ⟨_, _, .leaf frames current ⟨ho, hc, hs.kind_ne⟩⟩

end Takes

/-! ## Trees before they are gathered -/

/-- The trees of a list before its repetitions are gathered, and the tokens they are made of. What
stands between brackets has been gathered. -/
inductive Nests : List Tree → List Token → Prop
  | nil : Nests [] []
  | leaf {token : Token} {trees : List Tree} {tokens : List Token} (hl : token.IsLeaf)
      (h : Nests trees tokens) : Nests (.leaf token :: trees) (token :: tokens)
  | group (delimiter : Delimiter) (opening closing : Span) {inner trees : List Tree}
      {inside tokens : List Token} (hi : Nests inner inside) (h : Nests trees tokens) :
      Nests (.group delimiter opening closing (Tree.gather inner) :: trees)
        (openingToken delimiter opening :: (inside ++ closingToken delimiter closing :: tokens))

namespace Nests

variable {l r trees : List Tree} {ts us tokens : List Token}

theorem append (hl : Nests l ts) (hr : Nests r us) : Nests (l ++ r) (ts ++ us) := by
  induction hl with
  | nil => exact hr
  | leaf hleaf _ ih => exact .leaf hleaf ih
  | group d o c hi _ _ ih =>
    have h := Nests.group d o c hi ih
    simpa using h

theorem spells (h : Nests trees tokens) : Spells trees tokens := by
  induction h with
  | nil => exact .nil
  | leaf hl _ ih => exact .leaf hl ih
  | group d o c _ _ ihi ih => exact .group d o c ihi.gather ih

/-- What nests is assembled into its trees, behind what stands before it. -/
theorem assemble_eq (h : Nests trees tokens) (frames : List Frame) (current : List Tree)
    (rest : List Token) :
    assemble frames current (tokens ++ rest) = assemble frames (current ++ trees) rest := by
  induction h generalizing frames current rest with
  | nil => rw [List.nil_append, List.append_nil]
  | @leaf token trees tokens hl _ ih =>
    rw [List.cons_append, assemble_leaf _ _ hl, ih, List.append_assoc, List.singleton_append]
  | @group d o c inner trees inside tokens _ _ ihi ih =>
    rw [List.cons_append, List.append_assoc, List.cons_append,
      (Takes.opens frames current d rfl).assemble_eq, ihi, List.nil_append,
      (Takes.closes ⟨openingToken d o, d, current⟩ frames inner rfl).assemble_eq, ih,
      List.append_assoc, List.singleton_append]
    rfl

theorem assemble_eq_gather (h : Nests trees tokens) {last : Token} (hl : last.kind = .endOfText) :
    assemble [] [] (tokens ++ [last]) = ⟨[], Tree.gather trees⟩ := by
  rw [h.assemble_eq, assemble_end _ _ hl, List.nil_append]
  rfl

end Nests

/-- The frames of open brackets and the tokens before and at them. -/
inductive FramesNest : List Frame → List Token → Prop
  | nil : FramesNest [] []
  | cons {frame : Frame} {outer : List Frame} {ts us : List Token} (hf : FramesNest outer ts)
      (hb : Nests frame.before us)
      (ho : frame.opener = openingToken frame.delimiter frame.opener.span) :
      FramesNest (frame :: outer) (ts ++ us ++ [frame.opener])

theorem Takes.nests {token : Token} {frames frames' : List Frame} {current current' : List Tree}
    (h : Takes token frames current frames' current') {ts us : List Token}
    (hf : FramesNest frames ts) (hc : Nests current us) :
    ∃ ts' us', FramesNest frames' ts' ∧ Nests current' us' ∧ ts' ++ us' = ts ++ us ++ [token] := by
  cases h with
  | leaf _ _ hl => exact ⟨ts, _, hf, hc.append (.leaf hl .nil), (List.append_assoc _ _ _).symm⟩
  | opens _ _ d ho => exact ⟨_, [], .cons hf hc ho, .nil, List.append_nil _⟩
  | closes frame outer _ hclose =>
    cases hf with
    | @cons _ _ ts vs hf hb ho =>
      have hg := Nests.group frame.delimiter frame.opener.span token.span hc .nil
      rw [← ho, ← hclose] at hg
      exact ⟨ts, _, hf, hb.append hg, by simp⟩

/-- Tokens whose brackets have no fault nest, also behind open brackets. -/
theorem exists_nests_of_frames {tokens : List Token} (hs : ∀ token ∈ tokens, token.IsMarked)
    {last : Token} (hl : last.kind = .endOfText) {frames : List Frame} {current : List Tree}
    {ts us : List Token} (hf : FramesNest frames ts) (hc : Nests current us)
    (hno : (assemble frames current (tokens ++ [last])).faults = []) :
    ∃ trees, Nests trees (ts ++ us ++ tokens) := by
  induction tokens generalizing frames current ts us with
  | nil =>
    rw [List.nil_append, assemble_end frames current hl] at hno
    obtain rfl : frames = [] := by simpa [Assembly.finish] using hno
    cases hf
    exact ⟨current, by simpa using hc⟩
  | cons token tokens ih =>
    rw [List.cons_append] at hno
    obtain ⟨frames', current', ht⟩ := exists_takes (hs token List.mem_cons_self) hno
    obtain ⟨ts', us', hf', hc', htokens⟩ := ht.nests hf hc
    rw [ht.assemble_eq] at hno
    have h := ih (fun t hm => hs t (List.mem_cons_of_mem token hm)) hf' hc' hno
    rwa [htokens, List.append_assoc, List.singleton_append] at h

/-- Tokens whose brackets have no fault nest. -/
theorem exists_nests {tokens : List Token} (hs : ∀ token ∈ tokens, token.IsMarked)
    {last : Token} (hl : last.kind = .endOfText)
    (hno : (assemble [] [] (tokens ++ [last])).faults = []) : ∃ trees, Nests trees tokens :=
  exists_nests_of_frames hs hl .nil .nil hno

/-- Tokens whose brackets have no fault spell the trees that are assembled from them. -/
theorem spells_of_assemble {tokens : List Token} (hs : ∀ token ∈ tokens, token.IsMarked)
    {last : Token} (hl : last.kind = .endOfText)
    (hno : (assemble [] [] (tokens ++ [last])).faults = []) :
    Spells (assemble [] [] (tokens ++ [last])).trees tokens := by
  obtain ⟨trees, h⟩ := exists_nests hs hl hno
  rw [h.assemble_eq_gather hl]
  exact h.spells.gather

theorem Source.isMarked_tokensAt {source : Source}
    (hs : ∀ piece ∈ pieces source.chars, piece.IsSound) :
    ∀ token ∈ tokensAt 0 (pieces source.chars), token.IsMarked :=
  fun token ht => (isSpelled_tokensAt 0 (legible_pieces source.chars hs) token ht).isMarked

/-- The trees of a source are spelled by its tokens, which stand in order. -/
theorem Source.spells_trees (source : Source) {trees : List Tree} (h : source.trees = .ok trees) :
    (∀ piece ∈ pieces source.chars, piece.IsSound) ∧
      Spells trees (tokensAt 0 (pieces source.chars)) := by
  unfold Source.trees at h
  cases ht : source.tokens with
  | error faults => simp [ht] at h
  | ok tokens =>
    obtain ⟨hs, rfl⟩ := (source.tokens_eq_ok_iff tokens).mp ht
    simp only [ht, Source.treesOf] at h
    split at h
    · rename_i hno
      rw [Except.ok.injEq] at h
      refine ⟨hs, ?_⟩
      rw [← h]
      exact spells_of_assemble (isMarked_tokensAt hs) rfl hno
    · simp at h

/-! ## Lists of items -/

/-- The lists that a layout of trees passes over: the trees themselves, and the content of every
group in such a list. -/
inductive ListedIn (trees : List Tree) : List Tree → Prop
  | whole : ListedIn trees trees
  | inside {items inner : List Tree} {delimiter : Delimiter} {opening closing : Span}
      (h : ListedIn trees items) (hm : Tree.group delimiter opening closing inner ∈ items) :
      ListedIn trees inner

theorem sublist_of_group (opening closing : Token) (inside tokens : List Token) :
    inside.Sublist (opening :: (inside ++ closing :: tokens)) ∧
      tokens.Sublist (opening :: (inside ++ closing :: tokens)) :=
  ⟨(List.sublist_append_left inside _).cons _,
    (((List.Sublist.refl tokens).cons _).trans (List.sublist_append_right inside _)).cons _⟩

theorem sublist_of_repetition (dollar opening closing operator : Token)
    (inside separator tokens : List Token) :
    tokens.Sublist (dollar :: opening :: (inside ++ closing :: (separator ++ operator :: tokens))) := by
  have hbehind : tokens.Sublist (separator ++ operator :: tokens) :=
    ((List.Sublist.refl tokens).cons _).trans (List.sublist_append_right separator _)
  exact (hbehind.trans (sublist_of_group opening closing inside _).2).cons _

theorem Spells.of_mem {delimiter : Delimiter} {opening closing : Span} {inner : List Tree}
    {trees : List Tree} {tokens : List Token} (h : Spells trees tokens)
    (hm : Tree.group delimiter opening closing inner ∈ trees) :
    ∃ inside, Spells inner inside ∧ inside.Sublist tokens := by
  induction h with
  | nil => simp at hm
  | leaf _ _ ih =>
    obtain ⟨inside, hi, hsub⟩ := ih (by simpa using hm)
    exact ⟨inside, hi, hsub.cons _⟩
  | @group d o c inner' trees inside' tokens hi' _ _ ih =>
    obtain ⟨hinside, hbehind⟩ :=
      sublist_of_group (openingToken d o) (closingToken d c) inside' tokens
    rcases List.mem_cons.mp hm with heq | hm
    · cases heq
      exact ⟨inside', hi', hinside⟩
    · obtain ⟨inside, hi, hsub⟩ := ih hm
      exact ⟨inside, hi, hsub.trans hbehind⟩
  | @repetition dollar op sep o c inner' trees inside' tokens _ _ _ _ _ _ ih =>
    obtain ⟨inside, hi, hsub⟩ := ih (by simpa using hm)
    exact ⟨inside, hi, hsub.trans (sublist_of_repetition _ _ _ _ _ _ _)⟩

theorem Spells.of_listedIn {trees : List Tree} {tokens : List Token} (h : Spells trees tokens)
    {items : List Tree} (hi : ListedIn trees items) :
    ∃ inside, Spells items inside ∧ inside.Sublist tokens := by
  induction hi with
  | whole => exact ⟨tokens, h, List.Sublist.refl tokens⟩
  | inside _ hm ih =>
    obtain ⟨outside, ho, hsub⟩ := ih
    obtain ⟨inside, hs, hin⟩ := ho.of_mem hm
    exact ⟨inside, hs, hin.trans hsub⟩

theorem Spells.exists_ends {tree : Tree} {tokens : List Token} (h : Spells [tree] tokens) :
    ∃ first ∈ tokens.head?, ∃ last ∈ tokens.getLast?,
      tree.span = ⟨first.span.lo, last.span.hi⟩ := by
  cases h with
  | @leaf token _ _ _ h =>
    cases h
    exact ⟨token, rfl, token, rfl, rfl⟩
  | @group d o c inner _ inside _ _ h =>
    cases h
    exact ⟨openingToken d o, rfl, closingToken d c, by simp [List.getLast?_cons], rfl⟩
  | @repetition dollar op sep o c inner _ inside _ _ _ _ _ h =>
    cases h
    exact ⟨dollar, rfl, op, by simp [List.getLast?_cons], rfl⟩

/-- Trees whose tokens stand in order stand in order, and none is empty. -/
theorem Spells.inOrder {trees : List Tree} {tokens : List Token} (h : Spells trees tokens)
    (ho : InOrder tokens) : trees.Pairwise (fun a b => a.span.hi ≤ b.span.lo) ∧
      ∀ tree ∈ trees, 0 ≤ tree.span.lo ∧ tree.span.lo < tree.span.hi ∧
        ∃ first ∈ tokens, tree.span.lo = first.span.lo := by
  induction trees generalizing tokens with
  | nil => simp
  | cons tree trees ih =>
    obtain ⟨ts, us, rfl, ht, hr⟩ := h.uncons
    obtain ⟨hpair, hspan⟩ := ho
    obtain ⟨-, -, hcross⟩ := List.pairwise_append.mp hpair
    obtain ⟨hrest, hin⟩ := ih hr (.sublist ⟨hpair, hspan⟩ (List.sublist_append_right ts us))
    obtain ⟨first, hhead, last, hend, heq⟩ := ht.exists_ends
    have hfirst := List.mem_of_mem_head? hhead
    have hlast := List.mem_of_mem_getLast? hend
    have hf := hspan first (List.mem_append_left us hfirst)
    have hl := hspan last (List.mem_append_left us hlast)
    have hle := InOrder.lo_le (.sublist ⟨hpair, hspan⟩ (List.sublist_append_left ts us)) hhead hlast
    refine ⟨List.pairwise_cons.mpr ⟨fun b hb => ?_, hrest⟩, fun b hb => ?_⟩
    · obtain ⟨-, -, after, hafter, hlo⟩ := hin b hb
      rw [heq, hlo]
      exact hcross last hlast after hafter
    · rcases List.mem_cons.mp hb with rfl | hb
      · rw [heq]
        exact ⟨hf.1, by simp only; omega, first, List.mem_append_left us hfirst, rfl⟩
      · obtain ⟨h0, hlt, after, hafter, hlo⟩ := hin b hb
        exact ⟨h0, hlt, after, List.mem_append_right ts hafter, hlo⟩

end Offside
