import Offside.Proofs.Pieces

/-!
# The tokens of a source

The tokens of a source are read off its pieces one after another.

- `tokensAt`: the tokens of pieces that are laid side by side.
- `Source.tokens_eq_ok_iff`, `Source.tokens_of_legible`: when a source has tokens, and which.
- `InOrder`: tokens that stand one behind another.
- `Token.IsSpelled`: brackets and arrows are written as such.
- `Tight`, `Piece.ReadBefore.of_tight`: a token is read again before pieces that follow as
  closely.
-/
namespace Offside

set_option autoImplicit false

/-! ## Tokens of pieces -/

def tokensAt (offset : Nat) (ps : List Piece) : List Token :=
  (place offset ps).filterMap Tile.token?

@[simp] theorem tokensAt_nil (offset : Nat) : tokensAt offset [] = [] := rfl

theorem tokensAt_cons_token (offset : Nat) {piece : Piece} {kind : TokenKind}
    (h : piece.lexeme = .token kind) (ps : List Piece) :
    tokensAt offset (piece :: ps) =
      ⟨kind, piece.text, ⟨offset, (offset + piece.width : Nat)⟩⟩ ::
        tokensAt (offset + piece.width) ps := by
  simp [tokensAt, place, Tile.token?, h, Tile.span, Tile.stop]

theorem tokensAt_cons_other (offset : Nat) {piece : Piece}
    (h : ∀ kind, piece.lexeme ≠ .token kind) (ps : List Piece) :
    tokensAt offset (piece :: ps) = tokensAt (offset + piece.width) ps := by
  have hn : (Tile.mk offset piece).token? = none := by
    unfold Tile.token?
    split
    · rename_i kind hk
      exact absurd hk (h kind)
    · rfl
  simp [tokensAt, place, hn]

theorem tokensAt_cons_cases (offset : Nat) (piece : Piece) (ps : List Piece) :
    (∃ kind, piece.lexeme = .token kind ∧ tokensAt offset (piece :: ps) =
        ⟨kind, piece.text, ⟨offset, (offset + piece.width : Nat)⟩⟩ ::
          tokensAt (offset + piece.width) ps) ∨
      (∀ kind, piece.lexeme ≠ .token kind) ∧
        tokensAt offset (piece :: ps) = tokensAt (offset + piece.width) ps := by
  by_cases hk : ∃ kind, piece.lexeme = .token kind
  · obtain ⟨kind, hk⟩ := hk
    exact .inl ⟨kind, hk, tokensAt_cons_token offset hk ps⟩
  · have hnot : ∀ kind, piece.lexeme ≠ .token kind := fun kind he => hk ⟨kind, he⟩
    exact .inr ⟨hnot, tokensAt_cons_other offset hnot ps⟩

theorem exists_of_tokensAt_eq_cons {offset : Nat} {ps : List Piece} {token : Token}
    {tokens : List Token} (h : tokensAt offset ps = token :: tokens) :
    ∃ blank piece behind, ps = blank ++ piece :: behind ∧ piece.lexeme = .token token.kind ∧
      token = ⟨token.kind, piece.text, ⟨(offset + totalWidth blank : Nat),
        (offset + totalWidth blank + piece.width : Nat)⟩⟩ ∧
      tokens = tokensAt (offset + totalWidth blank + piece.width) behind := by
  induction ps generalizing offset with
  | nil => simp at h
  | cons piece ps ih =>
    obtain ⟨kind, hk, hcons⟩ | ⟨-, hcons⟩ := tokensAt_cons_cases offset piece ps
    · rw [hcons, List.cons.injEq] at h
      obtain ⟨rfl, rfl⟩ := h
      exact ⟨[], piece, ps, rfl, hk, rfl, rfl⟩
    · rw [hcons] at h
      obtain ⟨blank, found, behind, rfl, hl, ht, hts⟩ := ih h
      refine ⟨piece :: blank, found, behind, rfl, hl, ?_, ?_⟩
      · rw [totalWidth, ← Nat.add_assoc]
        exact ht
      · rw [totalWidth, ← Nat.add_assoc]
        exact hts

/-! ## Tokens of a source -/

theorem map_piece_place (offset : Nat) (ps : List Piece) :
    (place offset ps).map Tile.piece = ps := by
  induction ps generalizing offset with
  | nil => rfl
  | cons piece ps ih => simp [place, ih]

theorem diagnostic?_eq_none_iff (source : Source) (tile : Tile) :
    tile.diagnostic? source = none ↔ tile.piece.IsSound := by
  unfold Tile.diagnostic? Piece.IsSound
  split
  · rename_i fault hf
    simp [hf]
  · rename_i hf
    simpa using hf

theorem mem_pieces_iff {piece : Piece} {cs : List Char} :
    piece ∈ pieces cs ↔ ∃ tile ∈ tiles cs, tile.piece = piece := by
  rw [tiles, ← List.mem_map, map_piece_place]

theorem diagnostics_eq_nil_iff (source : Source) :
    source.lex.diagnostics = [] ↔ ∀ piece ∈ pieces source.chars, piece.IsSound := by
  simp only [Source.lex, List.filterMap_eq_nil_iff, diagnostic?_eq_none_iff, mem_pieces_iff]
  constructor
  · rintro h piece ⟨tile, ht, rfl⟩
    exact h tile ht
  · exact fun h tile ht => h tile.piece ⟨tile, ht, rfl⟩

/-- Legible pieces claim the places of their characters, also before others. -/
theorem totalWidth_of_append {ps behind : List Piece} (h : Legible (ps ++ behind)) :
    totalWidth ps = (textOf ps).length := by
  induction ps with
  | nil => rfl
  | cons piece ps ih =>
    rw [totalWidth, ih h.2, h.1.width_eq, textOf_cons, List.length_append]

theorem totalWidth_of_legible {ps : List Piece} (h : Legible ps) :
    totalWidth ps = (textOf ps).length := by
  rw [← List.append_nil ps] at h
  exact totalWidth_of_append h

theorem totalWidth_of_sound {cs : List Char} (h : ∀ piece ∈ pieces cs, piece.IsSound) :
    totalWidth (pieces cs) = cs.length := by
  rw [totalWidth_of_legible (legible_pieces cs h), textOf, flatMap_text_pieces]

theorem Source.lex_tokens_of_sound {source : Source}
    (h : ∀ piece ∈ pieces source.chars, piece.IsSound) :
    source.lex.tokens =
      tokensAt 0 (pieces source.chars) ++ [endToken source.chars.length] := by
  rw [Source.lex, totalWidth_of_sound h]
  rfl

/-- A source has tokens when none of its pieces is a fault: those of its pieces, and the end. -/
theorem Source.tokens_eq_ok_iff (source : Source) (tokens : List Token) :
    source.tokens = .ok tokens ↔ (∀ piece ∈ pieces source.chars, piece.IsSound) ∧
      tokens = tokensAt 0 (pieces source.chars) ++ [endToken source.chars.length] := by
  unfold Source.tokens
  cases hd : source.lex.diagnostics with
  | nil =>
    have hs := (diagnostics_eq_nil_iff source).mp hd
    simp only [Except.ok.injEq, lex_tokens_of_sound hs]
    exact ⟨fun h => ⟨hs, h.symm⟩, fun h => h.2.symm⟩
  | cons d ds =>
    simp only [reduceCtorEq, false_iff, not_and]
    intro hs
    have := (diagnostics_eq_nil_iff source).mpr hs
    simp [hd] at this

theorem Source.of_tokens_eq_ok {source : Source} {tokens : List Token} {last : Token}
    (h : source.tokens = .ok (tokens ++ [last])) :
    (∀ piece ∈ pieces source.chars, piece.IsSound) ∧ tokens = tokensAt 0 (pieces source.chars) ∧
      last = endToken source.chars.length := by
  obtain ⟨hs, htokens⟩ := (source.tokens_eq_ok_iff _).mp h
  obtain ⟨rfl, hlast⟩ := List.append_inj' htokens rfl
  exact ⟨hs, rfl, List.singleton_inj.mp hlast⟩

theorem Source.tokens_of_legible (name : String) {ps : List Piece} (h : Legible ps)
    (hs : ∀ piece ∈ ps, piece.IsSound) :
    (Source.ofText name (textOf ps)).tokens =
      .ok (tokensAt 0 ps ++ [endToken (textOf ps).length]) := by
  have hp : pieces (Source.ofText name (textOf ps)).chars = ps := pieces_eq_of_legible h
  rw [Source.tokens_eq_ok_iff, hp]
  exact ⟨hs, rfl⟩

/-! ## Tokens in order -/

def InOrder (tokens : List Token) : Prop :=
  tokens.Pairwise (fun a b => a.span.hi ≤ b.span.lo) ∧
    ∀ token ∈ tokens, 0 ≤ token.span.lo ∧ token.span.lo < token.span.hi

theorem InOrder.sublist {l r : List Token} (h : InOrder r) (hs : l.Sublist r) : InOrder l :=
  ⟨h.1.sublist hs, fun token ht => h.2 token (hs.subset ht)⟩

theorem InOrder.nodup {tokens : List Token} (h : InOrder tokens) : tokens.Nodup := by
  refine h.1.imp_of_mem fun {a b} ha _ hab heq => ?_
  have hspan := h.2 a ha
  rw [← heq] at hab
  omega

section InOrder

variable {tokens : List Token} {first last token : Token}

theorem InOrder.lo_le (h : InOrder tokens) (hfirst : first ∈ tokens.head?)
    (ht : token ∈ tokens) : first.span.lo ≤ token.span.lo := by
  obtain ⟨rest, rfl⟩ := List.head?_eq_some_iff.mp hfirst
  rcases List.mem_cons.mp ht with rfl | ht
  · exact Int.le_refl _
  · have hlt := (h.2 first List.mem_cons_self).2
    have hle := (List.pairwise_cons.mp h.1).1 token ht
    omega

theorem InOrder.hi_le (h : InOrder tokens) (hlast : last ∈ tokens.getLast?)
    (ht : token ∈ tokens) : token.span.hi ≤ last.span.hi := by
  obtain ⟨front, rfl⟩ := List.getLast?_eq_some_iff.mp hlast
  rcases List.mem_append.mp ht with ht | ht
  · have hlt := (h.2 last (List.mem_append_right front List.mem_cons_self)).2
    have hle := (List.pairwise_append.mp h.1).2.2 token ht last List.mem_cons_self
    omega
  · obtain rfl := List.mem_singleton.mp ht
    exact Int.le_refl _

end InOrder

theorem inOrder_tokensAt (offset : Nat) {ps : List Piece} (h : Legible ps) :
    InOrder (tokensAt offset ps) ∧
      ∀ token ∈ tokensAt offset ps, (offset : Int) ≤ token.span.lo := by
  induction ps generalizing offset with
  | nil => simp [InOrder]
  | cons piece ps ih =>
    obtain ⟨⟨hpair, hspan⟩, hlo⟩ := ih (offset + piece.width) h.2
    obtain ⟨kind, -, hcons⟩ | ⟨-, hcons⟩ := tokensAt_cons_cases offset piece ps
    · obtain ⟨c, rest, hp, -⟩ := h.1
      have hw : 0 < piece.width := by rw [hp]; simp [Piece.of]
      rw [hcons]
      refine ⟨⟨List.pairwise_cons.mpr ⟨fun b hb => hlo b hb, hpair⟩, fun token ht => ?_⟩,
        fun token ht => ?_⟩
      · rcases List.mem_cons.mp ht with rfl | ht
        · simp only
          omega
        · exact hspan token ht
      · rcases List.mem_cons.mp ht with rfl | ht
        · simp
        · have := hlo token ht
          omega
    · rw [hcons]
      refine ⟨⟨hpair, hspan⟩, fun token ht => ?_⟩
      have := hlo token ht
      omega

/-! ## How tokens are spelled -/

/-- Names, literals and operators: every kind that neither opens, closes nor ends anything. -/
def TokenKind.isPlain : TokenKind → Bool
  | .fatArrow | .openDelimiter | .closeDelimiter | .endOfText => false
  | _ => true

/-- A bracket is one character, an arrow is written as such, and nothing ends the text. -/
def Token.IsSpelled (token : Token) : Prop :=
  token.kind.isPlain = true ∨
    (token.kind = .openDelimiter ∧ ∃ c, token.text = [c] ∧ isOpening c = true) ∨
    (token.kind = .closeDelimiter ∧ ∃ c, token.text = [c] ∧ isClosing c = true) ∨
    (token.kind = .fatArrow ∧ token.text = fatArrow)

theorem Token.IsSpelled.kind_ne {token : Token} (h : token.IsSpelled) :
    token.kind ≠ .endOfText := by
  intro he
  simp [IsSpelled, he, TokenKind.isPlain] at h

namespace Lexeme

theorem isPlain_of_letteredLiteral? {c : Char} {n : Nat} {k : TokenKind} {rest : List Char}
    (h : letteredLiteral? c rest = some (.token k, n)) : k.isPlain = true := by
  have hraw (before : Nat) (hr : rawStringAt? before rest = some (.token k, n)) :
      k.isPlain = true := by
    obtain ⟨hashes, -, hl⟩ := Option.map_eq_some_iff.mp hr
    obtain ⟨rfl, -⟩ := literal_eq_token hl
    rfl
  unfold letteredLiteral? at h
  split_ifs at h
  · exact hraw 1 h
  · obtain ⟨rfl, -⟩ := literal_eq_token (Option.some.inj h)
    rfl
  · obtain ⟨rfl, -⟩ := literal_eq_token (Option.some.inj h)
    rfl
  · exact hraw 0 h

theorem isPlain_of_afterApostrophe {n : Nat} {k : TokenKind} {rest : List Char}
    (h : afterApostrophe rest = (.token k, n)) : k.isPlain = true := by
  unfold afterApostrophe at h
  split_ifs at h
  · obtain ⟨rfl, -⟩ := literal_eq_token h
    rfl
  · simp only [Prod.mk.injEq, Lexeme.token.injEq] at h
    rw [← h.1]
    rfl
  · obtain ⟨rfl, -⟩ := literal_eq_token h
    rfl

theorem isPlain_number (c : Char) (rest : List Char) : (number c rest).1.isPlain = true := by
  unfold number
  split_ifs
  · rfl
  · simp only
    split_ifs <;> rfl

theorem isSpelled_of_scan {c : Char} {rest : List Char} {n : Nat} {k : TokenKind}
    (h : scan c rest = (.token k, n)) (span : Span) :
    Token.IsSpelled ⟨k, c :: rest.take n, span⟩ := by
  obtain ⟨hblank, htab, hline, hblock⟩ := head_of_scan_token h
  rw [scan, if_neg hblank, if_neg htab, if_neg hline, if_neg hblock] at h
  cases hl : letteredLiteral? c rest with
  | some found =>
    simp only [hl] at h
    subst h
    exact .inl (isPlain_of_letteredLiteral? hl)
  | none =>
    simp only [hl] at h
    split_ifs at h with hq ha hd hw ho hc
    · obtain ⟨rfl, -⟩ := literal_eq_token h
      exact .inl rfl
    · exact .inl (isPlain_of_afterApostrophe h)
    · simp only [Prod.mk.injEq, Lexeme.token.injEq] at h
      exact .inl (h.1 ▸ isPlain_number c rest)
    · simp only [name, Prod.mk.injEq, Lexeme.token.injEq] at h
      exact .inl (by simp only [← h.1]; rfl)
    · simp only [Prod.mk.injEq, Lexeme.token.injEq] at h
      obtain ⟨rfl, rfl⟩ := h
      exact .inr (.inl ⟨rfl, c, rfl, ho⟩)
    · simp only [Prod.mk.injEq, Lexeme.token.injEq] at h
      obtain ⟨rfl, rfl⟩ := h
      exact .inr (.inr (.inl ⟨rfl, c, rfl, hc⟩))
    · unfold operatorOrStray at h
      cases hf : operators.find? (·.isPrefixOf (c :: rest)) with
      | none => simp [hf] at h
      | some text =>
        simp only [hf, Prod.mk.injEq, Lexeme.token.injEq] at h
        obtain ⟨hk, rfl⟩ := h
        by_cases harrow : text = fatArrow
        · rw [if_pos harrow] at hk
          have hpre := List.find?_some hf
          obtain ⟨tail, ht⟩ := List.isPrefixOf_iff_prefix.mp hpre
          refine .inr (.inr (.inr ⟨hk.symm, ?_⟩))
          rw [harrow] at ht ⊢
          simp only [fatArrow, List.cons_append, List.nil_append, List.cons.injEq] at ht
          obtain ⟨rfl, rfl⟩ := ht
          rfl
        · rw [if_neg harrow] at hk
          exact .inl (hk ▸ rfl)

end Lexeme

theorem isSpelled_tokensAt (offset : Nat) {ps : List Piece} (h : Legible ps) :
    ∀ token ∈ tokensAt offset ps, token.IsSpelled := by
  induction ps generalizing offset with
  | nil => simp
  | cons piece ps ih =>
    intro token ht
    obtain ⟨kind, hk, hcons⟩ | ⟨-, hcons⟩ := tokensAt_cons_cases offset piece ps
    · rw [hcons] at ht
      rcases List.mem_cons.mp ht with rfl | ht
      · obtain ⟨c, rest, hp, hs⟩ := h.1
        rw [hk] at hs
        have := Lexeme.isSpelled_of_scan hs ⟨offset, (offset + piece.width : Nat)⟩
        rw [List.take_left] at this
        rw [hp]
        rw [hp] at this
        exact this
      · exact ih _ h.2 token ht
    · rw [hcons] at ht
      exact ih _ h.2 token ht

/-! ## Following as closely -/

/-- The second list is cut off at once, or it starts with the same piece and what follows that one
does so as closely. -/
inductive Tight : List Piece → List Piece → Prop
  | severed {ps qs : List Piece} (h : Severed (textOf qs)) : Tight ps qs
  | same (piece : Piece) {ps qs : List Piece} (h : Tight ps qs) :
      Tight (piece :: ps) (piece :: qs)

theorem Tight.exists_text {ps qs : List Piece} (h : Tight ps qs) :
    ∃ p s s', textOf ps = p ++ s ∧ textOf qs = p ++ s' ∧ Severed s' := by
  induction h with
  | severed h => exact ⟨[], _, _, rfl, rfl, h⟩
  | same piece _ ih =>
    obtain ⟨p, s, s', hp, hq, hs⟩ := ih
    exact ⟨piece.text ++ p, s, s', by simp [hp], by simp [hq], hs⟩

/-- A token is read again before pieces that follow as closely. -/
theorem Piece.ReadBefore.of_tight {piece : Piece} {kind : TokenKind}
    (hk : piece.lexeme = .token kind) {ps qs : List Piece} (h : piece.ReadBefore (textOf ps))
    (ht : Tight ps qs) : piece.ReadBefore (textOf qs) := by
  obtain ⟨c, rest, hp, hs⟩ := h
  obtain ⟨p, s, s', hps, hqs, hsev⟩ := ht.exists_text
  refine ⟨c, rest, hp, ?_⟩
  rw [hk] at hs ⊢
  rw [hps, ← List.append_assoc] at hs
  rw [hqs, ← List.append_assoc]
  exact Lexeme.scan_of_severed hsev (by simp) hs

end Offside
