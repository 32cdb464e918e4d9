import Offside.Proofs.LineJoin
import Offside.Proofs.Tiling

/-!
# A part of a text read alone

What stands in a text from the start of one token to the end of another is read as the same tokens
when it is taken out and read alone. What stood behind it was looked at, but decided nothing.

- `Lexeme.scan_excerpt`: a lexeme is read again where text behind it is cut off.
- `Legible.excerpt`: pieces up to a token are read again without those behind.
- `exists_excerpt`: the pieces of some tokens, one behind the other.
- `Source.tokens_slice`: the tokens of such a part of a source.
-/
namespace Offside

set_option autoImplicit false

namespace Lexeme

/-! ## Lexemes before less text -/

theorem runLength_excerpt {q : Char → Bool} {cs front behind : List Char} (hne : front ≠ [])
    (h : runLength q (cs ++ (front ++ behind)) = cs.length) :
    runLength q (cs ++ front) = cs.length := by
  induction cs with
  | nil =>
    cases front with
    | nil => exact absurd rfl hne
    | cons c front =>
      cases hc : q c with
      | true => simp [runLength_cons, hc] at h
      | false => simp [runLength_cons, hc]
  | cons c cs ih =>
    cases hc : q c with
    | false => simp [runLength_cons, hc] at h
    | true =>
      rw [List.cons_append, runLength_cons, if_pos hc, List.length_cons,
        Nat.add_right_cancel_iff] at h ⊢
      exact ih h

/-- A lexeme that is no fault is read again where text behind it is cut off. All of the text behind
it may be cut off from a token only. -/
theorem scan_excerpt {c : Char} {rest front behind : List Char} {lexeme : Lexeme}
    (h : scan c (rest ++ (front ++ behind)) = (lexeme, rest.length))
    (hf : ∀ fault, lexeme ≠ .fault fault) (hne : front ≠ [] ∨ ∃ kind, lexeme = .token kind) :
    scan c (rest ++ front) = (lexeme, rest.length) := by
  obtain hblank | ⟨body, rfl, hbody⟩ | ⟨body, rfl, hbody⟩ | ⟨hblank, hline, hblock⟩ :=
    head_cases c (rest ++ (front ++ behind))
  · rw [scan_blank hblank] at h ⊢
    exact h
  · rw [hbody, scan_line, lineComment, Prod.mk.injEq] at h
    obtain ⟨rfl, hlen⟩ := h
    rw [← hbody] at hlen
    have hfront : front ≠ [] := by simpa using hne
    cases rest with
    | nil =>
      rw [hbody] at hlen
      simp [runLength_cons] at hlen
    | cons d rest =>
      obtain ⟨rfl, -⟩ := List.cons.inj hbody
      rw [List.cons_append, scan_line, lineComment, ← List.cons_append,
        runLength_excerpt hfront hlen]
  · rw [hbody, scan_block, blockComment, List.drop_succ_cons, List.drop_zero, Prod.mk.injEq] at h
    obtain ⟨hlexeme, hlen⟩ := h
    cases rest with
    | nil => simp at hlen
    | cons d rest =>
      obtain ⟨rfl, hbehind⟩ := List.cons.inj hbody
      have hbehind : rest ++ (front ++ behind) = body := hbehind
      rw [← hbehind] at hlexeme hlen
      cases hr : commentReach 0 (rest ++ (front ++ behind)) with
      | mk closed n =>
        rw [hr] at hlexeme hlen
        cases closed with
        | false => exact absurd hlexeme.symm (hf .openComment)
        | true =>
          obtain ⟨inside, others, hinside, hsplit, hn⟩ := commentReach_closed_iff.mp hr
          have hlength : rest.length = inside.length := by
            simp only [List.length_cons] at hlen
            omega
          obtain ⟨rfl, -⟩ := List.append_inj hsplit hlength
          have hcut : commentReach 0 (rest ++ front) = ⟨true, n⟩ :=
            commentReach_closed_iff.mpr ⟨rest, front, hinside, rfl, hn⟩
          rw [List.cons_append, scan_block, blockComment, List.drop_succ_cons, List.drop_zero,
            hcut, ← hlexeme, ← hlen]
  · obtain ⟨fault, m, hm⟩ | ⟨k, m, hm⟩ := definite_scan hblank hline hblock
    · rw [hm, Prod.mk.injEq] at h
      exact absurd h.1.symm (hf fault)
    · rw [hm] at h
      rw [← List.append_assoc] at hm
      have hle : m ≤ (rest ++ front).length := by
        rw [(Prod.mk.inj h).2, List.length_append]
        omega
      have hcut := scan_of_severed Severed.nil hle hm
      rwa [List.append_nil, h] at hcut

end Lexeme

/-! ## Pieces up to a token -/

theorem Piece.ReadBefore.excerpt {piece : Piece} {front behind : List Char}
    (h : piece.ReadBefore (front ++ behind)) (hs : piece.IsSound)
    (hne : front ≠ [] ∨ ∃ kind, piece.lexeme = .token kind) : piece.ReadBefore front := by
  obtain ⟨c, rest, hp, hscan⟩ := h
  exact ⟨c, rest, hp, Lexeme.scan_excerpt hscan hs hne⟩

/-- The last of some pieces is a token. -/
def EndInToken (ps : List Piece) : Prop :=
  ∃ front piece kind, ps = front ++ [piece] ∧ piece.lexeme = .token kind

/-- Pieces up to a token are read again without those behind. -/
theorem Legible.excerpt {ps behind : List Piece} (h : Legible (ps ++ behind))
    (hs : ∀ piece ∈ ps, piece.IsSound) (he : EndInToken ps) : Legible ps := by
  obtain ⟨front, last, kind, rfl, hk⟩ := he
  induction front with
  | nil =>
    have hlast : last.ReadBefore [] := h.1.excerpt (hs last List.mem_cons_self) (.inr ⟨kind, hk⟩)
    exact ⟨hlast, True.intro⟩
  | cons piece front ih =>
    obtain ⟨hread, hrest⟩ := h
    have hfront := ih hrest fun p hp => hs p (List.mem_cons_of_mem piece hp)
    have hne : textOf (front ++ [last]) ≠ [] := by
      obtain ⟨c, rest, hp, -⟩ := (hfront.right (l := front)).1
      rw [textOf_append, hp]
      simp [Piece.of]
    have hread : piece.ReadBefore (textOf ((front ++ [last]) ++ behind)) := hread
    rw [textOf_append] at hread
    exact ⟨hread.excerpt (hs piece List.mem_cons_self) (.inl hne), hfront⟩

/-! ## The pieces of some tokens -/

theorem EndInToken.cons {ps : List Piece} (h : EndInToken ps) (piece : Piece) :
    EndInToken (piece :: ps) := by
  obtain ⟨front, last, kind, rfl, hk⟩ := h
  exact ⟨piece :: front, last, kind, rfl, hk⟩

theorem EndInToken.of_append {l r : List Piece} (h : EndInToken (l ++ r)) (hr : r ≠ []) :
    EndInToken r := by
  obtain ⟨front, last, kind, heq, hk⟩ := h
  rw [← List.dropLast_concat_getLast hr, ← List.append_assoc] at heq
  obtain ⟨-, hlast⟩ := List.append_inj' heq rfl
  exact ⟨_, last, kind, by rw [← hlast, List.dropLast_concat_getLast], hk⟩

/-- The pieces up to the last of some tokens, and those behind. -/
theorem exists_pieces_of_append {offset : Nat} {ps : List Piece} {ts us : List Token}
    (h : tokensAt offset ps = ts ++ us) (hne : ts ≠ []) :
    ∃ l r, ps = l ++ r ∧ tokensAt offset l = ts ∧ EndInToken l := by
  induction ps generalizing offset ts with
  | nil => simp [hne] at h
  | cons piece ps ih =>
    obtain ⟨kind, hk, hcons⟩ | ⟨hk, hcons⟩ := tokensAt_cons_cases offset piece ps
    · cases ts with
      | nil => exact absurd rfl hne
      | cons token ts =>
        rw [hcons, List.cons_append] at h
        obtain ⟨rfl, hrest⟩ := List.cons.inj h
        cases ts with
        | nil =>
          refine ⟨[piece], ps, rfl, ?_, [], piece, kind, rfl, hk⟩
          rw [tokensAt_cons_token offset hk, tokensAt_nil]
        | cons next ts =>
          obtain ⟨l, r, rfl, hl, he⟩ := ih hrest (List.cons_ne_nil next ts)
          exact ⟨piece :: l, r, rfl, by rw [tokensAt_cons_token offset hk, hl], he.cons piece⟩
    · rw [hcons] at h
      obtain ⟨l, r, rfl, hl, he⟩ := ih h hne
      exact ⟨piece :: l, r, rfl, by rw [tokensAt_cons_other offset hk, hl], he.cons piece⟩

theorem EndInToken.hi_of_getLast? {ps : List Piece} (h : EndInToken ps) {offset : Nat}
    {last : Token} (hlast : last ∈ (tokensAt offset ps).getLast?) :
    last.span.hi = (offset + totalWidth ps : Nat) := by
  obtain ⟨front, piece, kind, rfl, hk⟩ := h
  rw [tokensAt_append, tokensAt_cons_token _ hk, tokensAt_nil, List.getLast?_concat] at hlast
  rw [← Option.some.inj hlast, totalWidth_append, totalWidth, totalWidth, Nat.add_zero,
    Nat.add_assoc]

/-- The pieces from the first of some tokens on. -/
theorem exists_pieces_of_cons {offset : Nat} {ps : List Piece} {first : Token} {ts : List Token}
    (h : tokensAt offset ps = first :: ts) :
    ∃ blank part, ps = blank ++ part ∧ part ≠ [] ∧
      tokensAt (offset + totalWidth blank) part = first :: ts ∧
      first.span.lo = (offset + totalWidth blank : Nat) := by
  obtain ⟨blank, piece, others, rfl, hk, hfirst, rfl⟩ := exists_of_tokensAt_eq_cons h
  refine ⟨blank, piece :: others, rfl, List.cons_ne_nil piece others, ?_, by rw [hfirst]⟩
  rw [tokensAt_cons_token _ hk, ← hfirst]

/-- Some tokens of pieces, one behind the other, are those of some of the pieces: the first of
them starts where these start, and the last ends where they end. -/
theorem exists_excerpt {offset : Nat} {ps : List Piece} {before ts behind : List Token}
    (h : tokensAt offset ps = before ++ ts ++ behind) {first last : Token}
    (hfirst : first ∈ ts.head?) (hlast : last ∈ ts.getLast?) :
    ∃ l part r, ps = l ++ part ++ r ∧ EndInToken part ∧
      tokensAt (offset + totalWidth l) part = ts ∧
      first.span.lo = (offset + totalWidth l : Nat) ∧
      last.span.hi = (offset + totalWidth l + totalWidth part : Nat) := by
  obtain ⟨ts, rfl⟩ := List.head?_eq_some_iff.mp hfirst
  obtain ⟨upto, r, rfl, hupto, hend⟩ := exists_pieces_of_append h (by simp)
  obtain ⟨l, rest, rfl, hl⟩ : ∃ l rest, upto = l ++ rest ∧ tokensAt offset l = before := by
    cases before with
    | nil => exact ⟨[], upto, rfl, rfl⟩
    | cons token before =>
      obtain ⟨l, rest, heq, hl, -⟩ := exists_pieces_of_append hupto (List.cons_ne_nil token before)
      exact ⟨l, rest, heq, hl⟩
  rw [tokensAt_append, hl, List.append_cancel_left_eq] at hupto
  obtain ⟨blank, part, rfl, hne, hpart, hlo⟩ := exists_pieces_of_cons hupto
  rw [Nat.add_assoc, ← totalWidth_append] at hpart hlo
  have hend : EndInToken part := EndInToken.of_append (l := l ++ blank) (by simpa using hend) hne
  refine ⟨l ++ blank, part, r, by simp, hend, hpart, hlo, hend.hi_of_getLast? ?_⟩
  rw [hpart]
  exact hlast

/-! ## A part of a source -/

/-- A span that many places nearer to the start. -/
def Span.back (n : Int) (span : Span) : Span := ⟨span.lo - n, span.hi - n⟩

/-- A token that many places nearer to the start of a text. -/
def Token.back (n : Int) (token : Token) : Token := { token with span := token.span.back n }

theorem Token.back_shift (n : Nat) (token : Token) : (token.shift n).back n = token := by
  simp [shift, back, Span.back]

/-- Some tokens of a source, one behind the other, are the tokens of the text from the start of the
first to the end of the last. -/
theorem Source.tokens_slice {source : Source} (hs : ∀ piece ∈ pieces source.chars, piece.IsSound)
    {ts : List Token} (hin : ts <:+: tokensAt 0 (pieces source.chars)) {first last : Token}
    (hfirst : first ∈ ts.head?) (hlast : last ∈ ts.getLast?) (name : String) :
    ∃ n, (ofText name (source.slice ⟨first.span.lo, last.span.hi⟩)).tokens =
      .ok (ts.map (Token.back first.span.lo) ++ [endToken n]) := by
  obtain ⟨before, behind, h⟩ := hin
  obtain ⟨l, part, r, hps, hend, hpart, hlo, hhi⟩ := exists_excerpt h.symm hfirst hlast
  have hlegible := legible_pieces source.chars hs
  have hchars : source.chars = textOf l ++ (textOf part ++ textOf r) := by
    rw [← List.append_assoc, ← textOf_append, ← textOf_append, ← hps]
    exact (flatMap_text_pieces source.chars).symm
  rw [hps] at hlegible hs
  have hsound : ∀ piece ∈ part, piece.IsSound := fun piece hp => hs piece (by simp [hp])
  rw [List.append_assoc] at hlegible
  have hwidth := totalWidth_of_append hlegible
  have hpartl := hlegible.right.excerpt hsound hend
  have hslice : source.slice ⟨first.span.lo, last.span.hi⟩ = textOf part := by
    rw [hlo, hhi, hwidth, totalWidth_of_legible hpartl, Nat.zero_add,
      source.slice_length_append hchars, List.take_left]
  have hback : ts.map (Token.back first.span.lo) = tokensAt 0 part := by
    rw [← hpart, tokensAt_add, List.map_map, hlo, Nat.zero_add]
    exact List.map_id'' (Token.back_shift (totalWidth l)) _
  refine ⟨(textOf part).length, ?_⟩
  rw [hslice, hback]
  exact tokens_of_legible name hpartl hsound

end Offside
