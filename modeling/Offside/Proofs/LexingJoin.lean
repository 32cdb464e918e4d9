import Offside.Proofs.LineJoin
import Offside.Proofs.Tiling

/-!
# Lexing across a line end

A text without faults, a line end, and any text behind it. What is read in the whole is what is read
in both: the second text is read as it would be alone, faults included, and only further down.

- `Diagnostic.below`: a diagnostic about places further down.
- `Joined.lex_tokens`, `Joined.lex_diagnostics`: what is read off a joined source.
- `Source.lex_joined`: the tokens, the diagnostics and where they stand.
-/
namespace Offside

set_option autoImplicit false

/-- A diagnostic whose places all stand that many lines further down. -/
def Diagnostic.below (n : Nat) (d : Diagnostic) : Diagnostic :=
  { d with labels := d.labels.map fun label => { label with region := label.region.below n } }

namespace Joined

variable {first second whole : Source}

/-- What is wrong at a tile of the second source is wrong further down in the whole. -/
theorem diagnostic?_shift (h : Joined first second whole) (hname : whole.name = second.name)
    (tile : Tile) :
    (tile.shift (first.chars.length + 1)).diagnostic? whole =
      (tile.diagnostic? second).map (Diagnostic.below (height first)) := by
  obtain ⟨start, lexeme, text, width⟩ := tile
  cases lexeme with
  | fault fault =>
    have hlo : (0 : Int) ≤ (⟨start, start + 1⟩ : Span).lo := Int.natCast_nonneg start
    have hregion := h.resolve_behind hlo
    have hspan : (⟨(start + (first.chars.length + 1) : Nat),
        (start + (first.chars.length + 1) : Nat) + 1⟩ : Span) =
        ⟨start + (first.chars.length + 1 : Nat), start + 1 + (first.chars.length + 1 : Nat)⟩ := by
      rw [Span.mk.injEq]
      omega
    simp only [Tile.diagnostic?, Tile.shift, Option.map_some, hname, hspan, hregion]
    rfl
  | _ => rfl

/-! ## What is read off the whole -/

variable (h : Joined first second whole) (hs : ∀ piece ∈ pieces first.chars, piece.IsSound)

include h hs

theorem totalWidth_whole :
    totalWidth (pieces whole.chars) =
      totalWidth (pieces second.chars) + (first.chars.length + 1) := by
  rw [h, pieces_join hs, totalWidth_append, totalWidth, totalWidth_of_sound hs]
  simp only [Piece.of, List.length_singleton]
  omega

/-- The end of the second source is the end of the whole. -/
theorem lex_tokens :
    whole.lex.tokens =
      tokensAt 0 (pieces first.chars) ++ second.lex.tokens.map (behind first) := by
  change tokensAt 0 (pieces whole.chars) ++ _ = _ ++ (tokensAt 0 (pieces second.chars) ++ _).map _
  rw [h.tokensAt_whole hs, h.totalWidth_whole hs, List.map_append, List.append_assoc]
  rfl

theorem lex_diagnostics (hname : whole.name = second.name) :
    whole.lex.diagnostics = second.lex.diagnostics.map (Diagnostic.below (height first)) := by
  have hfirst : (tiles first.chars).filterMap (Tile.diagnostic? whole) = [] := by
    refine List.filterMap_eq_nil_iff.mpr fun tile ht => ?_
    exact (diagnostic?_eq_none_iff whole tile).mpr (hs _ (mem_pieces_iff.mpr ⟨tile, ht, rfl⟩))
  have hline : (⟨first.chars.length, Piece.of .blank ['\n']⟩ : Tile).diagnostic? whole = none := rfl
  change (tiles whole.chars).filterMap (Tile.diagnostic? whole) =
    ((tiles second.chars).filterMap (Tile.diagnostic? second)).map (Diagnostic.below (height first))
  rw [h.tiles_whole hs, List.filterMap_append, hfirst, List.nil_append,
    List.filterMap_cons_none hline, List.filterMap_map, List.map_filterMap]
  exact congrArg (List.filterMap · _) (funext fun tile => h.diagnostic?_shift hname tile)

end Joined

/-! ## The tokens and the diagnostics of joined texts -/

theorem Source.lo_nonneg_of_mem_lex (source : Source) {token : Token}
    (ht : token ∈ source.lex.tokens) : 0 ≤ token.span.lo := by
  rcases List.mem_append.mp ht with ht | ht
  · obtain ⟨tile, -, htile⟩ := List.mem_filterMap.mp ht
    rw [(Tile.token?_eq_some htile).2]
    exact Int.natCast_nonneg tile.start
  · rw [List.mem_singleton.mp ht]
    exact Int.natCast_nonneg _

/-- Where the first text has no faults, lexing goes on behind the line end as it would start there:
the tokens and the diagnostics are those of both texts, those of the second further on and further
down, and at the same columns. -/
theorem Source.lex_joined (name : String) (l r : List Char)
    (h : (ofText name l).lex.diagnostics = []) :
    let first := ofText name l
    let second := ofText name r
    let whole := ofText name (l ++ '\n' :: r)
    ∃ tokens, first.lex.tokens = tokens ++ [endToken l.length] ∧
      whole.lex.tokens = tokens ++ second.lex.tokens.map (Token.shift (l.length + 1)) ∧
      whole.lex.diagnostics =
        second.lex.diagnostics.map (Diagnostic.below (l.count '\n' + 1)) ∧
      (∀ token ∈ tokens, whole.resolve token.span = first.resolve token.span) ∧
      ∀ token ∈ second.lex.tokens, whole.resolve (token.shift (l.length + 1)).span =
        (second.resolve token.span).below (l.count '\n' + 1) := by
  intro first second whole
  have hjoined : Joined first second whole := rfl
  have hs := (diagnostics_eq_nil_iff first).mp h
  refine ⟨tokensAt 0 (pieces l), lex_tokens_of_sound hs, hjoined.lex_tokens hs,
    hjoined.lex_diagnostics hs rfl, fun token ht => hjoined.resolve_first hs ht, ?_⟩
  intro token ht
  exact hjoined.resolve_behind (second.lo_nonneg_of_mem_lex ht)

/-- The second text has a tab, and a backslash at the end of an open string. -/
theorem twoLines_lex_joined :
    let first := Source.ofText "two" "a \x27\\n\x27 /*\n*/".toList
    let second := Source.ofText "two" "\tb\n\"\\".toList
    let whole := Source.ofText "two" "a \x27\\n\x27 /*\n*/\n\tb\n\"\\".toList
    whole.lex.tokens.length = 4 ∧ whole.lex.diagnostics.length = 2 ∧
      ∃ tokens, first.lex.tokens = tokens ++ [endToken 12] ∧
        whole.lex.tokens = tokens ++ second.lex.tokens.map (Token.shift 13) ∧
        whole.lex.diagnostics = second.lex.diagnostics.map (Diagnostic.below 2) := by
  intro first second whole
  obtain ⟨tokens, hfirst, htokens, hdiagnostics, -, -⟩ :=
    Source.lex_joined "two" first.chars second.chars (by decide +kernel)
  refine ⟨by decide +kernel, by decide +kernel, tokens, hfirst, htokens, hdiagnostics⟩

end Offside
