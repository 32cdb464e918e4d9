import Offside.Proofs.Seams
import Offside.Tile

/-!
# Pieces that are read where they stand

A list of pieces is legible when each is what is read at the head of its own text and all text
behind it. Legible lists are exactly the pieces of texts without faults.

- `Lexeme.head_cases`: a text starts with a blank or a comment, or with what is neither.
- `Lexeme.scan_le`: a lexeme that is no fault lies inside the text.
- `Piece.ReadBefore`, `Legible`: pieces that are read before what stands behind them.
- `pieces_induction`: a text is read piece by piece.
- `pieces_eq_of_legible`: the pieces of the text of a legible list are the list.
- `legible_pieces`: the pieces of a text are legible when none is a fault.
-/
namespace Offside

set_option autoImplicit false

open Text

namespace Lexeme

/-! ## Lexemes inside the text -/

theorem fractionLength_le (cs : List Char) : fractionLength cs ≤ cs.length := by
  match cs with
  | [] => exact Nat.le_refl 0
  | [_] => exact Nat.zero_le _
  | point :: digit :: rest =>
    have := runLength_le isDigitOrGap rest
    simp only [fractionLength, List.length_cons]
    split_ifs <;> omega

theorem exponentLength_le (cs : List Char) : exponentLength cs ≤ cs.length := by
  match cs with
  | [] => exact Nat.le_refl 0
  | [_] => exact Nat.zero_le _
  | letter :: first :: rest =>
    have := runLength_le isDigitOrGap rest
    simp only [exponentLength, List.length_cons]
    split_ifs <;> omega

theorem runLength_drop_le (p : Char → Bool) {k : Nat} {cs : List Char} (hk : k ≤ cs.length) :
    k + runLength p (cs.drop k) ≤ cs.length := by
  have := runLength_le p (cs.drop k)
  rw [List.length_drop] at this
  omega

theorem number_le (c : Char) (rest : List Char) : (number c rest).2 ≤ rest.length := by
  unfold number
  split_ifs with hc
  · have hpos : 1 ≤ rest.length := by
      cases rest with
      | nil => simp at hc
      | cons d rest => simp
    exact runLength_drop_le isWord (runLength_drop_le isHexOrGap hpos)
  · have hw := runLength_le isDigitOrGap rest
    have hf := fractionLength_le (rest.drop (runLength isDigitOrGap rest))
    have he := exponentLength_le (rest.drop (runLength isDigitOrGap rest +
      fractionLength (rest.drop (runLength isDigitOrGap rest))))
    rw [List.length_drop] at hf he
    exact runLength_drop_le isWord (by omega)

theorem literal_le {kind k : TokenKind} {fault : Fault} {before n : Nat} {reach : Reach}
    {rest : List Char} (h : literal kind fault before reach = (.token k, n))
    (hr : 1 ≤ n - before ∧ n - before ≤ (rest.drop before).length) : n ≤ rest.length := by
  have := (literal_eq_token h).2.2
  rw [List.length_drop] at hr
  omega

theorem stringAt_le {before n : Nat} {k : TokenKind} {rest : List Char}
    (h : stringAt before rest = (.token k, n)) : n ≤ rest.length := by
  obtain ⟨-, hr, -⟩ := literal_eq_token h
  have hc := stringReach_closed hr
  exact literal_le h ⟨hc.1, hc.2.1⟩

theorem characterAt_le {before n : Nat} {k : TokenKind} {rest : List Char}
    (h : characterAt before rest = (.token k, n)) : n ≤ rest.length := by
  obtain ⟨-, m, -, hr, rfl⟩ := characterAt_eq_token h
  have hc := (characterReach_closed hr).2.1
  rw [List.length_drop] at hc
  omega

theorem rawStringAt?_le {before n : Nat} {k : TokenKind} {rest : List Char}
    (h : rawStringAt? before rest = some (.token k, n)) : n ≤ rest.length := by
  obtain ⟨hashes, -, hl⟩ := Option.map_eq_some_iff.mp h
  obtain ⟨-, hr, -⟩ := literal_eq_token hl
  have hc := rawReach_closed hashes hr
  exact literal_le hl ⟨by omega, hc.2.1⟩

theorem letteredLiteral?_le {c : Char} {n : Nat} {k : TokenKind} {rest : List Char}
    (h : letteredLiteral? c rest = some (.token k, n)) : n ≤ rest.length := by
  unfold letteredLiteral? at h
  split_ifs at h
  · exact rawStringAt?_le h
  · exact stringAt_le (Option.some.inj h)
  · exact characterAt_le (Option.some.inj h)
  · exact rawStringAt?_le h

theorem afterApostrophe_le {n : Nat} {k : TokenKind} {rest : List Char}
    (h : afterApostrophe rest = (.token k, n)) : n ≤ rest.length := by
  unfold afterApostrophe at h
  split_ifs at h
  · exact characterAt_le h
  · simp only [Prod.mk.injEq] at h
    exact h.2 ▸ runLength_le isWord rest
  · exact characterAt_le h

theorem name_le (c : Char) (rest : List Char) : (name c rest).2 ≤ rest.length := by
  unfold name
  refine runLength_drop_le isWord ?_
  split_ifs with hc
  · cases rest with
    | nil => simp at hc
    | cons d rest => simp
  · exact Nat.zero_le _

theorem operatorOrStray_le (c : Char) (rest : List Char) :
    (operatorOrStray c rest).2 ≤ rest.length := by
  unfold operatorOrStray
  cases hf : operators.find? (·.isPrefixOf (c :: rest)) with
  | none => exact Nat.zero_le _
  | some text =>
    have hp := List.find?_some hf
    have := (List.isPrefixOf_iff_prefix.mp hp).length_le
    simp only [List.length_cons] at this ⊢
    omega

theorem scan_token_le {c : Char} {rest : List Char} {n : Nat} {k : TokenKind}
    (h : scan c rest = (.token k, n)) : n ≤ rest.length := by
  obtain ⟨hblank, htab, hline, hblock⟩ := head_of_scan_token h
  rw [scan, if_neg hblank, if_neg htab, if_neg hline, if_neg hblock] at h
  cases hl : letteredLiteral? c rest with
  | some found =>
    simp only [hl] at h
    subst h
    exact letteredLiteral?_le hl
  | none =>
    simp only [hl] at h
    split_ifs at h
    · exact stringAt_le h
    · exact afterApostrophe_le h
    · simp only [Prod.mk.injEq] at h
      exact h.2 ▸ number_le c rest
    · have hle := name_le c rest
      rwa [h] at hle
    · simp only [Prod.mk.injEq] at h
      omega
    · simp only [Prod.mk.injEq] at h
      omega
    · have hle := operatorOrStray_le c rest
      rwa [h] at hle

/-- What is read is a token or a fault, no blank and no comment. -/
def Definite (found : Lexeme × Nat) : Prop :=
  (∃ fault n, found = (.fault fault, n)) ∨ ∃ kind n, found = (.token kind, n)

theorem definite_literal (kind : TokenKind) (fault : Fault) (before : Nat) (reach : Reach) :
    Definite (literal kind fault before reach) := by
  unfold literal
  split_ifs
  · exact .inr ⟨_, _, rfl⟩
  · exact .inl ⟨_, _, rfl⟩

theorem definite_rawStringAt? {before : Nat} {rest : List Char} {found : Lexeme × Nat}
    (h : rawStringAt? before rest = some found) : Definite found := by
  obtain ⟨hashes, -, rfl⟩ := Option.map_eq_some_iff.mp h
  exact definite_literal _ _ _ _

theorem definite_letteredLiteral? {c : Char} {rest : List Char} {found : Lexeme × Nat}
    (h : letteredLiteral? c rest = some found) : Definite found := by
  unfold letteredLiteral? at h
  split_ifs at h
  · exact definite_rawStringAt? h
  · exact Option.some.inj h ▸ definite_literal _ _ _ _
  · exact Option.some.inj h ▸ definite_literal _ _ _ _
  · exact definite_rawStringAt? h

theorem definite_scan {c : Char} {rest : List Char}
    (hblank : ¬ (c = ' ' ∨ c = '\n' ∨ c = '\r')) (hline : ¬ (c = '/' ∧ rest.head? = some '/'))
    (hblock : ¬ (c = '/' ∧ rest.head? = some '*')) : Definite (scan c rest) := by
  rw [scan, if_neg hblank]
  by_cases htab : c = '\t'
  · rw [if_pos htab]
    exact .inl ⟨_, _, rfl⟩
  rw [if_neg htab, if_neg hline, if_neg hblock]
  cases hl : letteredLiteral? c rest with
  | some found => exact definite_letteredLiteral? hl
  | none =>
    simp only
    split_ifs
    · exact definite_literal _ _ _ _
    · unfold afterApostrophe
      split_ifs
      · exact definite_literal _ _ _ _
      · exact .inr ⟨_, _, rfl⟩
      · exact definite_literal _ _ _ _
    · exact .inr ⟨_, _, rfl⟩
    · exact .inr ⟨_, _, rfl⟩
    · exact .inr ⟨_, _, rfl⟩
    · exact .inr ⟨_, _, rfl⟩
    · unfold operatorOrStray
      split
      · exact .inr ⟨_, _, rfl⟩
      · exact .inl ⟨_, _, rfl⟩

theorem scan_blank {c : Char} (h : c = ' ' ∨ c = '\n' ∨ c = '\r') (rest : List Char) :
    scan c rest = (.blank, 0) := by
  rw [scan, if_pos h]

theorem scan_line (body : List Char) : scan '/' ('/' :: body) = lineComment ('/' :: body) := by
  simp [scan]

theorem scan_block (body : List Char) : scan '/' ('*' :: body) = blockComment ('*' :: body) := by
  simp [scan]

/-- A text starts with a blank or a comment, or with what is neither. -/
theorem head_cases (c : Char) (rest : List Char) :
    (c = ' ' ∨ c = '\n' ∨ c = '\r') ∨
      (∃ body, c = '/' ∧ rest = '/' :: body) ∨ (∃ body, c = '/' ∧ rest = '*' :: body) ∨
      (¬ (c = ' ' ∨ c = '\n' ∨ c = '\r') ∧ ¬ (c = '/' ∧ rest.head? = some '/') ∧
        ¬ (c = '/' ∧ rest.head? = some '*')) := by
  by_cases hblank : c = ' ' ∨ c = '\n' ∨ c = '\r'
  · exact .inl hblank
  by_cases hline : c = '/' ∧ rest.head? = some '/'
  · obtain ⟨body, rfl⟩ := List.head?_eq_some_iff.mp hline.2
    exact .inr (.inl ⟨body, hline.1, rfl⟩)
  by_cases hblock : c = '/' ∧ rest.head? = some '*'
  · obtain ⟨body, rfl⟩ := List.head?_eq_some_iff.mp hblock.2
    exact .inr (.inr (.inl ⟨body, hblock.1, rfl⟩))
  · exact .inr (.inr (.inr ⟨hblank, hline, hblock⟩))

theorem blockComment_le (body : List Char) :
    (blockComment ('*' :: body)).2 ≤ ('*' :: body).length := by
  have hle := commentReach_length_le 0 body
  simp only [blockComment, List.drop_succ_cons, List.drop_zero, List.length_cons]
  omega

theorem scan_le {c : Char} {rest : List Char} {lexeme : Lexeme} {n : Nat}
    (h : scan c rest = (lexeme, n)) (hf : ∀ fault, lexeme ≠ .fault fault) : n ≤ rest.length := by
  obtain hblank | ⟨body, rfl, rfl⟩ | ⟨body, rfl, rfl⟩ | ⟨hblank, hline, hblock⟩ :=
    head_cases c rest
  · rw [scan_blank hblank, Prod.mk.injEq] at h
    omega
  · rw [scan_line, lineComment, Prod.mk.injEq] at h
    exact h.2 ▸ runLength_le _ _
  · have hle := blockComment_le body
    rwa [← scan_block, h] at hle
  · rcases definite_scan hblank hline hblock with ⟨fault, m, hm⟩ | ⟨k, m, hm⟩
    · rw [hm, Prod.mk.injEq] at h
      exact absurd h.1.symm (hf fault)
    · rw [hm, Prod.mk.injEq] at h
      exact h.2 ▸ scan_token_le hm

end Lexeme

/-! ## A text is read piece by piece -/

theorem pieces_cons (c : Char) (rest : List Char) :
    pieces (c :: rest) = (Piece.start c rest).1 :: pieces (rest.drop (Piece.start c rest).2) :=
  chunks_cons Piece.start c rest

/-- What holds of the empty text, and of a text when it holds behind its first piece, holds of
every text. -/
theorem pieces_induction {motive : List Char → Prop} (nil : motive [])
    (piece : ∀ c rest, motive (rest.drop (Piece.start c rest).2) → motive (c :: rest))
    (cs : List Char) : motive cs :=
  chunks_induction Piece.start nil piece cs

theorem Piece.start_eq (c : Char) (rest : List Char) :
    Piece.start c rest = (⟨(Lexeme.scan c rest).1, c :: rest.take (Lexeme.scan c rest).2,
      (Lexeme.scan c rest).2 + 1⟩, (Lexeme.scan c rest).2) := rfl

/-! ## Legible lists of pieces -/

def textOf (ps : List Piece) : List Char := ps.flatMap Piece.text

@[simp] theorem textOf_nil : textOf [] = [] := rfl

@[simp] theorem textOf_cons (piece : Piece) (ps : List Piece) :
    textOf (piece :: ps) = piece.text ++ textOf ps := rfl

@[simp] theorem textOf_append (l r : List Piece) : textOf (l ++ r) = textOf l ++ textOf r :=
  List.flatMap_append

namespace Piece

def of (lexeme : Lexeme) (text : List Char) : Piece := ⟨lexeme, text, text.length⟩

/-- A piece is what is read at the head of its own text before a further text. -/
def ReadBefore (piece : Piece) (behind : List Char) : Prop :=
  ∃ c rest, piece = of piece.lexeme (c :: rest) ∧
    Lexeme.scan c (rest ++ behind) = (piece.lexeme, rest.length)

def IsSound (piece : Piece) : Prop := ∀ fault, piece.lexeme ≠ .fault fault

theorem ReadBefore.width_eq {piece : Piece} {behind : List Char} (h : piece.ReadBefore behind) :
    piece.width = piece.text.length := by
  obtain ⟨c, rest, hp, -⟩ := h
  rw [hp]
  rfl

theorem ReadBefore.start {piece : Piece} {behind : List Char} (h : piece.ReadBefore behind) :
    ∃ c rest, piece.text = c :: rest ∧ Piece.start c (rest ++ behind) = (piece, rest.length) := by
  obtain ⟨c, rest, hp, hs⟩ := h
  refine ⟨c, rest, by rw [hp]; rfl, ?_⟩
  simp only [Piece.start, hs, List.take_left]
  exact Prod.ext hp.symm rfl

end Piece

/-- Each piece is what is read at the head of its own text and all text behind it. -/
def Legible : List Piece → Prop
  | [] => True
  | piece :: ps => piece.ReadBefore (textOf ps) ∧ Legible ps

theorem Legible.right {l r : List Piece} (h : Legible (l ++ r)) : Legible r := by
  induction l with
  | nil => exact h
  | cons piece l ih => exact ih h.2

theorem Legible.width_pos {piece : Piece} {ps : List Piece} (h : Legible (piece :: ps)) :
    0 < piece.width := by
  obtain ⟨c, rest, hp, -⟩ := h.1
  rw [hp]
  simp [Piece.of]

theorem pieces_eq_of_legible {ps : List Piece} (h : Legible ps) : pieces (textOf ps) = ps := by
  induction ps with
  | nil => rfl
  | cons piece ps ih =>
    obtain ⟨c, rest, ht, hs⟩ := h.1.start
    rw [textOf_cons, ht, List.cons_append, pieces, chunks_cons, hs, List.drop_left]
    exact congrArg (piece :: ·) (ih h.2)

/-- The pieces of a text are legible when none is a fault. -/
theorem legible_pieces (cs : List Char) (h : ∀ piece ∈ pieces cs, piece.IsSound) :
    Legible (pieces cs) := by
  induction cs using pieces_induction with
  | nil => exact True.intro
  | piece c rest ih =>
    rw [pieces_cons] at h ⊢
    have hle : (Lexeme.scan c rest).2 ≤ rest.length :=
      Lexeme.scan_le rfl (h _ List.mem_cons_self)
    have hbehind : textOf (pieces (rest.drop (Piece.start c rest).2)) =
        rest.drop (Lexeme.scan c rest).2 := flatMap_text_pieces _
    refine ⟨⟨c, rest.take (Lexeme.scan c rest).2, ?_, ?_⟩,
      ih fun piece hp => h piece (List.mem_cons_of_mem _ hp)⟩
    · simp only [Piece.start_eq, Piece.of, List.length_cons, List.length_take, Piece.mk.injEq,
        true_and]
      omega
    · rw [hbehind, List.take_append_drop, List.length_take, Nat.min_eq_left hle]
      rfl

end Offside
