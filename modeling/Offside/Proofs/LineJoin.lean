import Offside.Proofs.Edges

/-!
# Texts joined by a line end

A text with a line end and another text behind it. What was read in the first is read again, and
what was read in the second is read further below.

- `Lexeme.scan_before_line`: a lexeme that is no fault is read again before a line end.
- `pieces_join`: the pieces of two texts joined by a line end.
- `Token.shift`, `Position.below`: a token further on in a text, and a position further down.
- `Joined`: a source that is two others joined by a line end.
- `Joined.resolve_before`, `Joined.resolve_behind`: where the spans of both stand in it.
-/
namespace Offside

set_option autoImplicit false

open Text

/-! ## Lexemes before a line end -/

namespace Lexeme

theorem runLength_before_line {q : Char → Bool} (hq : q '\n' = false) (cs behind : List Char) :
    runLength q (cs ++ '\n' :: behind) = runLength q cs := by
  induction cs with
  | nil => simp [runLength_cons, hq]
  | cons c cs ih => rw [List.cons_append, runLength_cons, runLength_cons, ih]

/-- A block comment that is closed is closed in the same place before any text. -/
theorem commentReach_append {cs : List Char} {n : Nat} (h : commentReach 0 cs = ⟨true, n⟩)
    (behind : List Char) : commentReach 0 (cs ++ behind) = ⟨true, n⟩ := by
  obtain ⟨body, rest, hbody, rfl, rfl⟩ := commentReach_closed_iff.mp h
  exact commentReach_closed_iff.mpr ⟨body, rest ++ behind, hbody, List.append_assoc _ _ _, rfl⟩

/-- A lexeme that is no fault is read again before a line end. -/
theorem scan_before_line {c : Char} {rest : List Char} {lexeme : Lexeme} {n : Nat}
    (h : scan c rest = (lexeme, n)) (hf : ∀ fault, lexeme ≠ .fault fault) (behind : List Char) :
    scan c (rest ++ '\n' :: behind) = (lexeme, n) := by
  obtain hblank | ⟨body, rfl, rfl⟩ | ⟨body, rfl, rfl⟩ | ⟨hblank, hline, hblock⟩ :=
    head_cases c rest
  · rw [scan_blank hblank] at h ⊢
    exact h
  · rw [scan_line] at h
    rw [List.cons_append, scan_line, ← h, lineComment, lineComment, ← List.cons_append,
      runLength_before_line (by decide)]
  · rw [scan_block, blockComment, List.drop_succ_cons, List.drop_zero] at h
    rw [List.cons_append, scan_block, blockComment, List.drop_succ_cons, List.drop_zero]
    cases hr : commentReach 0 body with
    | mk closed m =>
      rw [hr] at h
      cases closed with
      | false => exact absurd (Prod.mk.inj h).1.symm (hf .openComment)
      | true => rw [commentReach_append hr, h]
  · obtain ⟨fault, m, hm⟩ | ⟨k, m, hm⟩ := definite_scan hblank hline hblock
    · rw [hm, Prod.mk.injEq] at h
      exact absurd h.1.symm (hf fault)
    · have hsevered : Severed ('\n' :: behind) := Severed.cons rfl behind
      rw [← h, hm]
      have hnil := hm
      rw [← List.append_nil rest] at hnil
      exact scan_of_severed hsevered (scan_token_le hm) hnil

end Lexeme

/-! ## Pieces before a line end -/

theorem Piece.ReadBefore.before_line {piece : Piece} {behind : List Char}
    (h : piece.ReadBefore behind) (hs : piece.IsSound) (more : List Char) :
    piece.ReadBefore (behind ++ '\n' :: more) := by
  obtain ⟨c, rest, hp, hscan⟩ := h
  refine ⟨c, rest, hp, ?_⟩
  rw [← List.append_assoc]
  exact Lexeme.scan_before_line hscan hs more

theorem pieces_newline (behind : List Char) :
    pieces ('\n' :: behind) = Piece.of .blank ['\n'] :: pieces behind :=
  chunks_cons Piece.start '\n' behind

/-- The pieces of a text without faults stay the same before a line end and any text. -/
theorem pieces_join {first : List Char} (h : ∀ piece ∈ pieces first, piece.IsSound)
    (second : List Char) :
    pieces (first ++ '\n' :: second) =
      pieces first ++ Piece.of .blank ['\n'] :: pieces second := by
  have hl := legible_pieces first h
  have htext : textOf (pieces first) = first := flatMap_text_pieces first
  generalize pieces first = ps at h hl htext
  subst htext
  induction ps with
  | nil => exact pieces_newline second
  | cons piece ps ih =>
    have hread := hl.1.before_line (h piece List.mem_cons_self) second
    obtain ⟨c, rest, ht, hstart⟩ := hread.start
    rw [textOf_cons, ht, List.cons_append, List.cons_append, List.append_assoc, pieces,
      chunks_cons, hstart, List.drop_left]
    exact congrArg (piece :: ·) (ih (fun p hp => h p (List.mem_cons_of_mem piece hp)) hl.2)

/-! ## Tokens further on -/

/-- A token that many places further on. -/
def Token.shift (n : Nat) (token : Token) : Token :=
  { token with span := ⟨token.span.lo + n, token.span.hi + n⟩ }

theorem tokensAt_append (offset : Nat) (l r : List Piece) :
    tokensAt offset (l ++ r) = tokensAt offset l ++ tokensAt (offset + totalWidth l) r := by
  rw [tokensAt, place_append, List.filterMap_append]
  rfl

/-- A tile that many places further on. -/
def Tile.shift (n : Nat) (tile : Tile) : Tile := { tile with start := tile.start + n }

theorem Tile.token?_shift (n : Nat) (tile : Tile) :
    (tile.shift n).token? = tile.token?.map (Token.shift n) := by
  obtain ⟨start, lexeme, text, width⟩ := tile
  cases lexeme with
  | token kind =>
    simp only [token?, shift, span, stop, Option.map_some, Option.some.injEq, Token.shift,
      Token.mk.injEq, Span.mk.injEq, true_and]
    omega
  | _ => rfl

theorem place_add (offset n : Nat) (ps : List Piece) :
    place (offset + n) ps = (place offset ps).map (Tile.shift n) := by
  induction ps generalizing offset with
  | nil => rfl
  | cons piece ps ih =>
    have hnext : offset + n + piece.width = offset + piece.width + n := by omega
    rw [place, place, List.map_cons, hnext, ih]
    rfl

theorem filterMap_token?_shift (n : Nat) (ts : List Tile) :
    (ts.map (Tile.shift n)).filterMap Tile.token? =
      (ts.filterMap Tile.token?).map (Token.shift n) := by
  rw [List.filterMap_map, List.map_filterMap]
  exact congrArg (List.filterMap · ts) (funext fun tile => tile.token?_shift n)

theorem tokensAt_add (offset n : Nat) (ps : List Piece) :
    tokensAt (offset + n) ps = (tokensAt offset ps).map (Token.shift n) := by
  rw [tokensAt, place_add, filterMap_token?_shift, tokensAt]

/-! ## Positions further down -/

namespace Position

/-- A position that many lines further down. -/
def below (n : Nat) (p : Position) : Position := ⟨p.line + n, p.column⟩

theorem past_below (n : Nat) (p : Position) (c : Char) :
    (p.below n).past c = (p.past c).below n := by
  unfold past
  split
  · simp only [below, Position.mk.injEq, and_true]
    omega
  · rfl

theorem after_below (n : Nat) (p : Position) (cs : List Char) :
    (p.below n).after cs = (p.after cs).below n := by
  induction cs generalizing p with
  | nil => rfl
  | cons c cs ih => rw [after_cons, past_below, ih, after_cons]

/-- Behind a line end reading starts at the first column. -/
theorem after_join (l r : List Char) :
    origin.after (l ++ '\n' :: r) = (origin.after r).below (l.count '\n' + 1) := by
  have hstart : (origin.after l).past '\n' = origin.below (l.count '\n' + 1) := by
    rw [past, if_pos rfl, after_line]
    simp only [below, origin, Position.mk.injEq, and_true]
    omega
  rw [after_append, after_cons, hstart, after_below]

end Position

/-- A region that many lines further down. -/
def Region.below (n : Nat) (region : Region) : Region :=
  ⟨region.start.below n, region.stop.below n⟩

theorem Region.below_zero (region : Region) : region.below 0 = region := by
  simp [below, Position.below]

/-! ## A source that is joined of two -/

/-- A source that consists of two others with a line end between them. -/
def Joined (first second whole : Source) : Prop :=
  whole.chars = first.chars ++ '\n' :: second.chars

namespace Joined

variable {first second whole : Source}

/-- The number of lines before the second source. -/
def height (first : Source) : Nat := first.chars.count '\n' + 1

/-- Where a token of the second source stands in the whole. -/
def behind (first : Source) (token : Token) : Token := token.shift (first.chars.length + 1)

theorem position_first (h : Joined first second whole) {o : Int} (h0 : 0 ≤ o)
    (hle : o ≤ first.chars.length) : whole.position o = first.position o := by
  obtain ⟨n, rfl⟩ := Int.eq_ofNat_of_zero_le h0
  have hn : n ≤ first.chars.length := by omega
  rw [whole.position_eq_after (by rw [h]; simp; omega), first.position_eq_after hn, h,
    List.take_append_of_le_length hn]

theorem position_second (h : Joined first second whole) {o : Int} (h0 : 0 ≤ o) :
    whole.position (o + (first.chars.length + 1 : Nat)) =
      (second.position o).below (height first) := by
  obtain ⟨n, rfl⟩ := Int.eq_ofNat_of_zero_le h0
  -- the offset may lie behind the second text, so both texts are read with spaces behind them
  have htake : (whole.chars ++ List.replicate n ' ').take (n + (first.chars.length + 1)) =
      first.chars ++ '\n' :: (second.chars ++ List.replicate n ' ').take n := by
    rw [h, List.append_assoc, List.cons_append,
      show n + (first.chars.length + 1) = first.chars.length + (n + 1) by omega,
      List.take_length_add_append, List.take_succ_cons]
  have hlen : n + (first.chars.length + 1) ≤ whole.chars.length + n := by
    rw [h, List.length_append, List.length_cons]
    omega
  have ho : (n : Int) + (first.chars.length + 1 : Nat) =
      ((n + (first.chars.length + 1) : Nat) : Int) := by omega
  rw [ho, whole.position_eq_after_spaces hlen, htake, Position.after_join,
    second.position_eq_after_spaces (Nat.le_add_left n _), height]

/-- A span inside the first source stands where it stood. -/
theorem resolve_before (h : Joined first second whole) {span : Span} (h0 : 0 ≤ span.lo)
    (hlt : span.lo < span.hi) (hle : span.hi ≤ first.chars.length) :
    whole.resolve span = first.resolve span := by
  rw [whole.resolve_of_lt hlt, first.resolve_of_lt hlt, Source.endBefore, Source.endBefore,
    h.position_first h0 (by omega), h.position_first (by omega) (by omega)]

/-- A span of the second source, and also one behind its end, stands at its columns, below all
lines of the first. -/
theorem resolve_behind (h : Joined first second whole) {span : Span} (h0 : 0 ≤ span.lo) :
    whole.resolve ⟨span.lo + (first.chars.length + 1 : Nat),
        span.hi + (first.chars.length + 1 : Nat)⟩ =
      (second.resolve span).below (height first) := by
  by_cases hlt : span.lo < span.hi
  · have hlast : span.hi + (first.chars.length + 1 : Nat) - 1 =
        span.hi - 1 + (first.chars.length + 1 : Nat) := by omega
    rw [whole.resolve_of_lt (by simp only; omega), second.resolve_of_lt hlt, Source.endBefore,
      Source.endBefore, hlast, h.position_second h0, h.position_second (by omega)]
    rfl
  · rw [whole.resolve_of_le (by simp only; omega), second.resolve_of_le (by omega),
      h.position_second h0]
    rfl

/-! ## Tokens of the whole -/

variable (h : Joined first second whole) (hs : ∀ piece ∈ pieces first.chars, piece.IsSound)
  (hs' : ∀ piece ∈ pieces second.chars, piece.IsSound)

include h hs in
/-- The tiles of the second source lie behind those of the first and the line end. -/
theorem tiles_whole :
    tiles whole.chars = tiles first.chars ++
      ⟨first.chars.length, Piece.of .blank ['\n']⟩ ::
        (tiles second.chars).map (Tile.shift (first.chars.length + 1)) := by
  have hbehind := place_add 0 (first.chars.length + 1) (pieces second.chars)
  rw [Nat.zero_add] at hbehind
  rw [tiles, h, pieces_join hs, place_append, place, totalWidth_of_sound hs, Nat.zero_add]
  exact congrArg (tiles first.chars ++ _ :: ·) hbehind

include h hs in
theorem tokensAt_whole :
    tokensAt 0 (pieces whole.chars) = tokensAt 0 (pieces first.chars) ++
      (tokensAt 0 (pieces second.chars)).map (behind first) := by
  change (tiles whole.chars).filterMap Tile.token? = _
  rw [h.tiles_whole hs, List.filterMap_append]
  exact congrArg (_ ++ ·) (filterMap_token?_shift _ (tiles second.chars))

include h hs hs' in
theorem isSound_whole : ∀ piece ∈ pieces whole.chars, piece.IsSound := by
  intro piece hp
  rw [h, pieces_join hs] at hp
  rcases List.mem_append.mp hp with hp | hp
  · exact hs piece hp
  rcases List.mem_cons.mp hp with rfl | hp
  · simp [Piece.IsSound, Piece.of]
  · exact hs' piece hp

include h hs in
/-- The tokens of the first source stand where they stood. -/
theorem resolve_first {token : Token} (ht : token ∈ tokensAt 0 (pieces first.chars)) :
    whole.resolve token.span = first.resolve token.span := by
  obtain ⟨h0, hlt, hle⟩ := first.span_of_mem_tokensAt hs ht
  exact h.resolve_before h0 hlt hle

include h hs' in
/-- The tokens of the second source stand at their columns, below all lines of the first. -/
theorem resolve_second {token : Token} (ht : token ∈ tokensAt 0 (pieces second.chars)) :
    whole.resolve (behind first token).span =
      (second.resolve token.span).below (height first) :=
  h.resolve_behind (second.span_of_mem_tokensAt hs' ht).1

include h hs' in
theorem height_le_line {token : Token} (ht : token ∈ tokensAt 0 (pieces second.chars)) :
    height first ≤ (whole.resolve (behind first token).span).start.line ∧
      height first ≤ (whole.resolve (behind first token).span).stop.line := by
  obtain ⟨h0, hlt, -⟩ := second.span_of_mem_tokensAt hs' ht
  obtain ⟨hstart, hstop⟩ := second.resolve_line_nonneg h0 hlt
  rw [h.resolve_second hs' ht]
  simp only [Region.below, Position.below]
  omega

include hs in
/-- The tokens of the first source end above the second. -/
theorem stop_line_lt {token : Token} (ht : token ∈ tokensAt 0 (pieces first.chars)) :
    (first.resolve token.span).stop.line < height first := by
  obtain ⟨h0, hlt, hle⟩ := first.span_of_mem_tokensAt hs ht
  have hend := first.position_length_append (List.append_nil first.chars).symm
  have hline := first.position_line_mono (show 0 ≤ token.span.hi - 1 by omega)
    (show token.span.hi - 1 ≤ first.chars.length by omega)
  rw [hend, Position.after_line] at hline
  rw [first.resolve_of_lt hlt, height]
  simp only [Source.endBefore, Position.origin] at hline ⊢
  omega

end Joined

end Offside
