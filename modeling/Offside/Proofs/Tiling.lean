import Mathlib.Logic.ExistsUnique
import Offside.Proofs.Positions
import Offside.Proofs.Reading

/-!
# A text is tiled

Whether or not a text has faults, its tiles lie side by side from its start, and each of them is
one blank, one comment, one token or one thing that is wrong.

- `Lexeme.scan_le_or_eq`: what is read at the head of a text reaches at most one place past its end.
- `totalWidth_pieces`: how many places the pieces of a text claim.
- `Tiling`: tiles that lie side by side.
- `Content`, `Tile.Is`: what the interval of a tile can be.
- `Source.TilesText`, `Source.tilesText`: what the tiles of a source cover and what is read off
  them.
-/
namespace Offside

set_option autoImplicit false

open Text

namespace Lexeme

/-! ## Faults at the end of a text -/

theorem literal_eq_fault {kind : TokenKind} {fault f : Fault} {before n : Nat} {reach : Reach}
    (h : literal kind fault before reach = (.fault f, n)) :
    reach.closed = false ∧ n = before + reach.length := by
  unfold literal at h
  split_ifs at h with hc
  · simp at h
  · simp only [Prod.mk.injEq] at h
    exact ⟨by simpa using hc, h.2.symm⟩

theorem stringAt_fault_le {before n : Nat} {f : Fault} {rest : List Char}
    (hb : before ≤ rest.length) (h : stringAt before rest = (.fault f, n)) :
    n ≤ rest.length + 1 := by
  obtain ⟨-, rfl⟩ := literal_eq_fault h
  have := stringReach_length_le (rest.drop before)
  rw [List.length_drop] at this
  omega

theorem characterAt_fault_le {before n : Nat} {f : Fault} {rest : List Char}
    (hb : before ≤ rest.length) (h : characterAt before rest = (.fault f, n)) :
    n ≤ rest.length + 1 := by
  unfold characterAt at h
  obtain ⟨hopen, rfl⟩ := literal_eq_fault h
  have := characterReach_length_le (rest.drop before)
  rw [List.length_drop] at this
  split_ifs at hopen ⊢
  omega

theorem rawStringAt?_fault_le {before n : Nat} {f : Fault} {rest : List Char}
    (h : rawStringAt? before rest = some (.fault f, n)) : n ≤ rest.length := by
  obtain ⟨hashes, ho, hl⟩ := Option.map_eq_some_iff.mp h
  obtain ⟨-, rfl⟩ := literal_eq_fault hl
  obtain ⟨behind, hbehind⟩ := rawOpening?_eq_some_iff.mp ho
  have hopened := congrArg List.length hbehind
  have hlen := rawReach_length_le hashes (rest.drop (before + hashes + 1))
  simp only [List.length_drop, List.length_append, List.length_replicate, List.length_cons]
    at hopened hlen
  omega

theorem letteredLiteral?_fault_le {c : Char} {n : Nat} {f : Fault} {rest : List Char}
    (h : letteredLiteral? c rest = some (.fault f, n)) : n ≤ rest.length + 1 := by
  have hpos {d : Char} (hd : rest.head? = some d) : 1 ≤ rest.length := by
    obtain ⟨tail, rfl⟩ := List.head?_eq_some_iff.mp hd
    simp
  unfold letteredLiteral? at h
  split_ifs at h with hb hr hq ha
  · exact Nat.le_succ_of_le (rawStringAt?_fault_le h)
  · exact stringAt_fault_le (hpos hq) (Option.some.inj h)
  · exact characterAt_fault_le (hpos ha) (Option.some.inj h)
  · exact Nat.le_succ_of_le (rawStringAt?_fault_le h)

theorem afterApostrophe_fault_le {n : Nat} {f : Fault} {rest : List Char}
    (h : afterApostrophe rest = (.fault f, n)) : n ≤ rest.length + 1 := by
  unfold afterApostrophe at h
  split_ifs at h
  · exact characterAt_fault_le (Nat.zero_le _) h
  · simp at h
  · exact characterAt_fault_le (Nat.zero_le _) h

theorem scan_fault_le {c : Char} {n : Nat} {f : Fault} {rest : List Char}
    (h : scan c rest = (.fault f, n)) : n ≤ rest.length + 1 := by
  obtain hblank | ⟨body, rfl, rfl⟩ | ⟨body, rfl, rfl⟩ | ⟨hblank, hline, hblock⟩ :=
    head_cases c rest
  · simp [scan_blank hblank] at h
  · simp [scan_line, lineComment] at h
  · have hle := blockComment_le body
    rw [← scan_block, h] at hle
    exact Nat.le_succ_of_le hle
  rw [scan, if_neg hblank] at h
  by_cases htab : c = '\t'
  · rw [if_pos htab, Prod.mk.injEq] at h
    omega
  rw [if_neg htab, if_neg hline, if_neg hblock] at h
  cases hl : letteredLiteral? c rest with
  | some found =>
    simp only [hl] at h
    subst h
    exact letteredLiteral?_fault_le hl
  | none =>
    simp only [hl] at h
    split_ifs at h
    · exact stringAt_fault_le (Nat.zero_le _) h
    · exact afterApostrophe_fault_le h
    · simp at h
    · simp [name] at h
    · simp at h
    · simp at h
    · have hle := operatorOrStray_le c rest
      rw [h] at hle
      exact Nat.le_succ_of_le hle

/-- A lexeme stays inside the text, but a fault may reach one place past its end. -/
theorem scan_le_or_eq (c : Char) (rest : List Char) :
    (scan c rest).2 ≤ rest.length ∨
      (∃ f, (scan c rest).1 = .fault f) ∧ (scan c rest).2 = rest.length + 1 := by
  cases hs : scan c rest with
  | mk lexeme n =>
    by_cases hf : ∃ f, lexeme = .fault f
    · obtain ⟨f, rfl⟩ := hf
      rcases Nat.le_or_eq_of_le_succ (scan_fault_le hs) with hle | heq
      · exact .inl hle
      · exact .inr ⟨⟨f, rfl⟩, heq⟩
    · exact .inl (scan_le hs fun f hlf => hf ⟨f, hlf⟩)

end Lexeme

/-! ## The width of a text -/

/-- All places that the pieces of a text claim are those of its characters, but a fault at the end
may claim one more. -/
theorem totalWidth_pieces (cs : List Char) :
    totalWidth (pieces cs) = cs.length ∨
      totalWidth (pieces cs) = cs.length + 1 ∧ ∃ piece ∈ pieces cs, ¬ piece.IsSound := by
  induction cs using pieces_induction with
  | nil => exact .inl rfl
  | piece c rest ih =>
    rw [pieces_cons, totalWidth]
    rw [Piece.start_eq] at ih ⊢
    simp only [List.length_drop] at ih
    simp only [List.length_cons]
    obtain hle | ⟨⟨f, hf⟩, hn⟩ := Lexeme.scan_le_or_eq c rest
    · obtain ih | ⟨ih, piece, hp, hfault⟩ := ih
      · left
        omega
      · right
        exact ⟨by omega, piece, List.mem_cons_of_mem _ hp, hfault⟩
    · right
      rw [List.drop_eq_nil_of_le (by omega)]
      refine ⟨by simp only [pieces, chunks_nil, totalWidth]; omega, _, List.mem_cons_self, ?_⟩
      exact fun hsound => hsound f hf

/-! ## Tiles side by side -/

/-- Tiles that cover the places from one offset to another, each at least one and none twice. -/
def Tiling : Nat → List Tile → Nat → Prop
  | lo, [], hi => lo = hi
  | lo, tile :: rest, hi => tile.start = lo ∧ tile.start < tile.stop ∧ Tiling tile.stop rest hi

namespace Tiling

variable {lo hi : Nat} {ts : List Tile}

theorem le (h : Tiling lo ts hi) : lo ≤ hi := by
  induction ts generalizing lo with
  | nil => exact Nat.le_of_eq h
  | cons tile rest ih =>
    obtain ⟨rfl, hlt, hrest⟩ := h
    have := ih hrest
    omega

theorem bounds (h : Tiling lo ts hi) :
    ∀ tile ∈ ts, lo ≤ tile.start ∧ tile.start < tile.stop ∧ tile.stop ≤ hi := by
  induction ts generalizing lo with
  | nil => simp
  | cons tile rest ih =>
    obtain ⟨rfl, hlt, hrest⟩ := h
    intro other ho
    rcases List.mem_cons.mp ho with rfl | ho
    · exact ⟨Nat.le_refl _, hlt, hrest.le⟩
    · have := ih hrest other ho
      omega

/-- No tile starts before one that stands before it ends. -/
theorem pairwise (h : Tiling lo ts hi) : ts.Pairwise fun a b => a.stop ≤ b.start := by
  induction ts generalizing lo with
  | nil => exact List.Pairwise.nil
  | cons tile rest ih =>
    obtain ⟨rfl, hlt, hrest⟩ := h
    exact List.pairwise_cons.mpr ⟨fun other ho => (hrest.bounds other ho).1, ih hrest⟩

theorem exists_mem (h : Tiling lo ts hi) {i : Nat} (hlo : lo ≤ i) (hhi : i < hi) :
    ∃ tile ∈ ts, tile.start ≤ i ∧ i < tile.stop := by
  induction ts generalizing lo with
  | nil =>
    obtain rfl : lo = hi := h
    omega
  | cons tile rest ih =>
    obtain ⟨rfl, hlt, hrest⟩ := h
    by_cases hi' : i < tile.stop
    · exact ⟨tile, List.mem_cons_self, hlo, hi'⟩
    · obtain ⟨other, ho, hin⟩ := ih hrest (Nat.not_lt.mp hi')
      exact ⟨other, List.mem_cons_of_mem tile ho, hin⟩

/-- There are no more tiles than places. -/
theorem length_le (h : Tiling lo ts hi) : lo + ts.length ≤ hi := by
  induction ts generalizing lo with
  | nil => exact Nat.le_of_eq h
  | cons tile rest ih =>
    obtain ⟨rfl, hlt, hrest⟩ := h
    have := ih hrest
    simp only [List.length_cons]
    omega

end Tiling

theorem tiling_place (cs : List Char) (offset : Nat) :
    Tiling offset (place offset (pieces cs)) (offset + totalWidth (pieces cs)) := by
  induction cs using pieces_induction generalizing offset with
  | nil => exact rfl
  | piece c rest ih =>
    rw [pieces_cons, place, totalWidth, ← Nat.add_assoc]
    refine ⟨rfl, ?_, ih _⟩
    rw [Tile.stop, Piece.start_eq]
    simp only
    omega

/-- A tile is what is read where it starts, and it starts inside the text. -/
theorem exists_start_of_mem_place {cs : List Char} {offset : Nat} {tile : Tile}
    (h : tile ∈ place offset (pieces cs)) :
    ∃ before c rest, cs = before ++ c :: rest ∧
      tile = ⟨offset + before.length, (Piece.start c rest).1⟩ := by
  induction cs using pieces_induction generalizing offset with
  | nil => simp [pieces, place] at h
  | piece c rest ih =>
    rw [pieces_cons, place] at h
    rcases List.mem_cons.mp h with rfl | h
    · exact ⟨[], c, rest, rfl, rfl⟩
    · obtain ⟨before, d, tail, hsplit, rfl⟩ := ih h
      have hn : (Piece.start c rest).2 ≤ rest.length := by
        have := congrArg List.length hsplit
        simp only [List.length_drop, List.length_append, List.length_cons] at this
        omega
      refine ⟨c :: rest.take (Piece.start c rest).2 ++ before, d, tail, ?_, ?_⟩
      · rw [List.append_assoc, ← hsplit, List.cons_append, List.take_append_drop]
      · rw [Piece.start_eq] at hn ⊢
        simp only [List.length_append, List.length_cons, List.length_take, Nat.min_eq_left hn,
          Tile.mk.injEq, and_true]
        omega

/-! ## What a tile holds -/

/-- What the characters of a tile can be. -/
inductive Content where
  | blank
  | lineComment
  | blockComment
  | token
  | fault
  deriving DecidableEq, Repr

namespace Tile

/-- The characters of a tile and what is read off it: at most a token of just these characters, or
a diagnostic that points at the first of them. -/
def Is (source : Source) (tile : Tile) : Content → Prop
  | .blank => source.slice tile.span ∈ [[' '], ['\n'], ['\r']] ∧
    tile.token? = none ∧ tile.diagnostic? source = none
  | .lineComment => (∃ body, source.slice tile.span = '/' :: '/' :: body ∧ '\n' ∉ body) ∧
    (∀ c, source.chars[tile.stop]? = some c → c = '\n') ∧
    tile.token? = none ∧ tile.diagnostic? source = none
  | .blockComment => (∃ body, source.slice tile.span = '/' :: '*' :: body ∧
      Lexeme.CommentBody body) ∧
    tile.token? = none ∧ tile.diagnostic? source = none
  | .token => (∃ kind, tile.token? = some ⟨kind, source.slice tile.span, tile.span⟩) ∧
    tile.diagnostic? source = none
  | .fault => tile.token? = none ∧ ∃ diagnostic label, tile.diagnostic? source = some diagnostic ∧
    diagnostic.labels = [label] ∧ label.file = source.name ∧
    label.region.start = source.position tile.start

variable {source : Source} {tile : Tile}

theorem Is.unique {a b : Content} (ha : tile.Is source a) (hb : tile.Is source b) : a = b := by
  cases a <;> cases b <;> simp [Is] at ha hb ⊢ <;> grind

theorem token?_of_lexeme {kind : TokenKind} (h : tile.piece.lexeme = .token kind) :
    tile.token? = some ⟨kind, tile.piece.text, tile.span⟩ := by
  simp [token?, h]

theorem token?_eq_some {token : Token} (h : tile.token? = some token) :
    tile.piece.lexeme = .token token.kind ∧ token = ⟨token.kind, tile.piece.text, tile.span⟩ := by
  unfold token? at h
  split at h
  · rename_i kind hk
    obtain rfl := Option.some.inj h
    exact ⟨hk, rfl⟩
  · simp at h

theorem diagnostic?_eq_some {diagnostic : Diagnostic}
    (h : tile.diagnostic? source = some diagnostic) :
    ∃ fault, tile.piece.lexeme = .fault fault ∧ diagnostic = .errorAt source.name
      (source.resolve ⟨tile.start, tile.start + 1⟩) fault.code fault.message "" [] := by
  unfold diagnostic? at h
  split at h
  · rename_i fault hf
    exact ⟨fault, hf, (Option.some.inj h).symm⟩
  · simp at h

end Tile

theorem Source.slice_length_append {source : Source} {before rest : List Char}
    (h : source.chars = before ++ rest) (n : Nat) :
    source.slice ⟨before.length, (before.length + n : Nat)⟩ = rest.take n := by
  have hindex (k : Nat) : Source.clampIndex source.chars.length k =
      min k source.chars.length := by
    rw [Source.clampIndex, if_neg (by omega), Int.toNat_natCast]
  rw [Source.slice]
  simp only [hindex]
  rw [h, List.length_append, Nat.min_eq_left (Nat.le_add_right _ _), Nat.add_min_add_left,
    List.take_length_add_append, List.drop_left, ← List.take_eq_take_min]

namespace Tile

/-- A tile of a source, with the text that stands before it and from it on. -/
theorem exists_start {source : Source} {tile : Tile} (h : tile ∈ tiles source.chars) :
    ∃ before c rest, source.chars = before ++ c :: rest ∧
      tile = ⟨before.length, (Piece.start c rest).1⟩ ∧
      source.slice tile.span = tile.piece.text := by
  obtain ⟨before, c, rest, hsplit, rfl⟩ := exists_start_of_mem_place h
  refine ⟨before, c, rest, hsplit, by rw [Nat.zero_add], ?_⟩
  have hslice := Source.slice_length_append hsplit ((Lexeme.scan c rest).2 + 1)
  rw [span, stop, Nat.zero_add]
  exact hslice

theorem is_token {source : Source} {tile : Tile} {kind : TokenKind}
    (hk : tile.piece.lexeme = .token kind) (hslice : source.slice tile.span = tile.piece.text) :
    tile.Is source .token :=
  ⟨⟨kind, by rw [token?_of_lexeme hk, hslice]⟩, by simp [diagnostic?, hk]⟩

theorem is_fault (source : Source) {tile : Tile} {fault : Lexeme.Fault}
    (hf : tile.piece.lexeme = .fault fault) : tile.Is source .fault := by
  refine ⟨by simp [token?, hf], _, _, by simp only [diagnostic?, hf]; rfl, rfl, rfl, ?_⟩
  exact source.resolve_start _

theorem is_lineComment {source : Source} {before body : List Char}
    (hsplit : source.chars = before ++ '/' :: '/' :: body) {tile : Tile}
    (ht : tile = ⟨before.length, (Piece.start '/' ('/' :: body)).1⟩)
    (hslice : source.slice tile.span = tile.piece.text) : tile.Is source .lineComment := by
  have hrun : Lexeme.runLength (· != '\n') ('/' :: body) =
      Lexeme.runLength (· != '\n') body + 1 := by
    rw [Lexeme.runLength_cons, if_pos (by decide)]
  rw [Piece.start_eq, Lexeme.scan_line, Lexeme.lineComment, hrun] at ht
  subst ht
  refine ⟨⟨body.takeWhile (· != '\n'), ?_, ?_⟩, ?_, rfl, rfl⟩
  · rw [hslice, List.take_succ_cons, Lexeme.take_runLength]
  · intro hm
    simpa using List.all_eq_true.mp List.all_takeWhile _ hm
  · intro c hc
    have hbehind : source.chars[before.length + (Lexeme.runLength (· != '\n') body + 2)]? =
        body[Lexeme.runLength (· != '\n') body]? := by
      rw [hsplit, List.getElem?_append_right (Nat.le_add_right _ _), Nat.add_sub_cancel_left,
        List.getElem?_cons_succ, List.getElem?_cons_succ]
    have hend := Lexeme.not_of_getElem?_runLength (hbehind.symm.trans hc)
    simpa using hend

/-- What starts as a block comment is one, or it is never closed. -/
theorem is_blockComment {source : Source} {before body : List Char} {tile : Tile}
    (ht : tile = ⟨before.length, (Piece.start '/' ('*' :: body)).1⟩)
    (hslice : source.slice tile.span = tile.piece.text) :
    tile.Is source .blockComment ∨ tile.Is source .fault := by
  rw [Piece.start_eq, Lexeme.scan_block, Lexeme.blockComment, List.drop_succ_cons, List.drop_zero] at ht
  cases hr : Lexeme.commentReach 0 body with
  | mk closed n =>
    rw [hr] at ht
    cases closed with
    | false =>
      have hf : tile.piece.lexeme = .fault .openComment := by rw [ht]; rfl
      exact .inr (is_fault source hf)
    | true =>
      obtain ⟨inner, behind, hinner, rfl, rfl⟩ := Lexeme.commentReach_closed_iff.mp hr
      subst ht
      refine .inl ⟨⟨inner, ?_, hinner⟩, rfl, rfl⟩
      rw [hslice]
      simp only [Nat.add_comm 1, List.take_succ_cons, List.take_left]

theorem exists_is {source : Source} {tile : Tile} (h : tile ∈ tiles source.chars) :
    ∃ content, tile.Is source content := by
  obtain ⟨before, c, rest, hsplit, ht, hslice⟩ := exists_start h
  obtain hblank | ⟨body, rfl, rfl⟩ | ⟨body, rfl, rfl⟩ | ⟨hblank, hline, hblock⟩ :=
    Lexeme.head_cases c rest
  · refine ⟨.blank, ?_⟩
    rw [Piece.start_eq, Lexeme.scan_blank hblank] at ht
    subst ht
    refine ⟨?_, rfl, rfl⟩
    rw [hslice]
    simpa using hblank
  · exact ⟨.lineComment, is_lineComment hsplit ht hslice⟩
  · obtain hcomment | hfault := is_blockComment ht hslice
    · exact ⟨.blockComment, hcomment⟩
    · exact ⟨.fault, hfault⟩
  · have hlexeme : tile.piece.lexeme = (Lexeme.scan c rest).1 := by rw [ht]; rfl
    obtain ⟨fault, n, hs⟩ | ⟨kind, n, hs⟩ := Lexeme.definite_scan hblank hline hblock
    · exact ⟨.fault, is_fault source (by rw [hlexeme, hs])⟩
    · exact ⟨.token, is_token (by rw [hlexeme, hs]) hslice⟩

end Tile

/-! ## Tokens and diagnostics in order -/

/-- On an earlier line, or further left on the same one. -/
def Position.Precedes (p q : Position) : Prop :=
  p.line < q.line ∨ p.line = q.line ∧ p.column < q.column

/-- Both diagnostics have one label, and that of the first starts before that of the second. -/
def Diagnostic.Precedes (d d' : Diagnostic) : Prop :=
  ∃ label label', d.labels = [label] ∧ d'.labels = [label'] ∧
    label.region.start.Precedes label'.region.start

theorem Source.position_precedes (source : Source) {o o' : Nat} (h : o < o') :
    (source.position o).Precedes (source.position o') := by
  have hle : (o : Int) ≤ o' := by omega
  obtain hline | ⟨hline, hcolumn⟩ := source.position_mono (Int.natCast_nonneg o) hle
  · exact .inl hline
  · exact .inr ⟨hline, by omega⟩

namespace Tiling

variable {lo hi : Nat} {ts : List Tile}

theorem inOrder (h : Tiling lo ts hi) : InOrder (ts.filterMap Tile.token?) := by
  refine ⟨h.pairwise.filterMap _ fun a b hab token ht token' ht' => ?_, fun token ht => ?_⟩
  · rw [(Tile.token?_eq_some ht).2, (Tile.token?_eq_some ht').2]
    simp only [Tile.span]
    omega
  · obtain ⟨tile, htile, htoken⟩ := List.mem_filterMap.mp ht
    have hbounds := h.bounds tile htile
    rw [(Tile.token?_eq_some htoken).2]
    simp only [Tile.span]
    omega

theorem diagnostics_pairwise (h : Tiling lo ts hi) (source : Source) :
    (ts.filterMap (Tile.diagnostic? source)).Pairwise Diagnostic.Precedes := by
  have hlt : ts.Pairwise fun a b => a.start < b.start := by
    refine h.pairwise.imp_of_mem fun {a b} ha _ hab => ?_
    have := h.bounds a ha
    omega
  refine hlt.filterMap _ fun a b hab d hd d' hd' => ?_
  obtain ⟨fault, -, rfl⟩ := Tile.diagnostic?_eq_some hd
  obtain ⟨fault', -, rfl⟩ := Tile.diagnostic?_eq_some hd'
  refine ⟨_, _, rfl, rfl, ?_⟩
  rw [Source.resolve_start, Source.resolve_start]
  exact source.position_precedes hab

end Tiling

/-! ## The tiles of a source -/

/-- The tiles of a source lie side by side from its start to the end token, and what is read off a
source is read off its tiles. -/
structure Source.TilesText (source : Source) (stop : Nat) : Prop where
  tiling : Tiling 0 (tiles source.chars) stop
  rounds : (tiles source.chars).length ≤ stop
  /-- No tile is two things at once. -/
  content : ∀ tile ∈ tiles source.chars, ∃! content, tile.Is source content
  tokens : source.lex.tokens = (tiles source.chars).filterMap Tile.token? ++ [endToken stop]
  diagnostics : source.lex.diagnostics = (tiles source.chars).filterMap (Tile.diagnostic? source)
  inOrder : InOrder source.lex.tokens.dropLast
  inside : ∀ token ∈ source.lex.tokens.dropLast, token.span.hi ≤ source.chars.length
  diagnostics_inOrder : source.lex.diagnostics.Pairwise Diagnostic.Precedes
  /-- The end token stands at the end of the text, or behind what is wrong there. -/
  stop_eq : stop = source.chars.length ∨
    stop = source.chars.length + 1 ∧ source.lex.diagnostics ≠ []
  /-- Where nothing is wrong, what stands outside the tokens is blank or a comment. -/
  covered : ∀ tokens, source.tokens = .ok tokens → stop = source.chars.length ∧
    ∀ i < source.chars.length,
      (∃ token ∈ tokens, token.span.lo ≤ i ∧ i < token.span.hi) ∨
        ∃ tile ∈ tiles source.chars, tile.start ≤ i ∧ i < tile.stop ∧
          (tile.Is source .blank ∨ tile.Is source .lineComment ∨ tile.Is source .blockComment)

theorem Source.stop_eq (source : Source) :
    totalWidth (pieces source.chars) = source.chars.length ∨
      totalWidth (pieces source.chars) = source.chars.length + 1 ∧
        source.lex.diagnostics ≠ [] := by
  obtain hw | ⟨hw, piece, hp, hfault⟩ := totalWidth_pieces source.chars
  · exact .inl hw
  · exact .inr ⟨hw, fun hd => hfault ((diagnostics_eq_nil_iff source).mp hd piece hp)⟩

theorem Tile.token_inside {source : Source} {token : Token}
    (h : token ∈ (tiles source.chars).filterMap Tile.token?) :
    token.span.hi ≤ source.chars.length := by
  obtain ⟨tile, htile, htoken⟩ := List.mem_filterMap.mp h
  obtain ⟨before, c, rest, hsplit, ht, -⟩ := exists_start htile
  obtain ⟨hk, htoken⟩ := token?_eq_some htoken
  have hk' : (Lexeme.scan c rest).1 = .token token.kind := by
    rw [ht] at hk
    exact hk
  have hle : (Lexeme.scan c rest).2 ≤ rest.length := Lexeme.scan_token_le (Prod.ext hk' rfl)
  rw [htoken, hsplit, ht]
  simp only [span, stop, Piece.start_eq, List.length_append, List.length_cons]
  omega

/-- Each tile of a source without faults is a token, or it is left out of the tokens. -/
theorem Source.covered {source : Source} {tokens : List Token} (h : source.tokens = .ok tokens)
    {i : Nat} (hi : i < source.chars.length) :
    (∃ token ∈ tokens, token.span.lo ≤ i ∧ i < token.span.hi) ∨
      ∃ tile ∈ tiles source.chars, tile.start ≤ i ∧ i < tile.stop ∧
        (tile.Is source .blank ∨ tile.Is source .lineComment ∨ tile.Is source .blockComment) := by
  obtain ⟨hsound, rfl⟩ := (source.tokens_eq_ok_iff tokens).mp h
  have htiling := tiling_place source.chars 0
  have hw : source.chars.length ≤ 0 + totalWidth (pieces source.chars) := by
    have := source.stop_eq
    omega
  obtain ⟨tile, htile, hlo, hhi⟩ := htiling.exists_mem (Nat.zero_le i) (Nat.lt_of_lt_of_le hi hw)
  obtain ⟨content, hcontent⟩ := Tile.exists_is htile
  cases content with
  | blank => exact .inr ⟨tile, htile, hlo, hhi, .inl hcontent⟩
  | lineComment => exact .inr ⟨tile, htile, hlo, hhi, .inr (.inl hcontent)⟩
  | blockComment => exact .inr ⟨tile, htile, hlo, hhi, .inr (.inr hcontent)⟩
  | token =>
    obtain ⟨⟨kind, htoken⟩, -⟩ := hcontent
    refine .inl ⟨_, List.mem_append_left _ (List.mem_filterMap.mpr ⟨tile, htile, htoken⟩), ?_, ?_⟩
    · simp only [Tile.span]
      omega
    · simp only [Tile.span]
      omega
  | fault =>
    obtain ⟨-, diagnostic, -, hd, -⟩ := hcontent
    have hpiece := hsound tile.piece (mem_pieces_iff.mpr ⟨tile, htile, rfl⟩)
    rw [(diagnostic?_eq_none_iff source tile).mpr hpiece] at hd
    simp at hd

/-- Every text is tiled, whatever it holds. -/
theorem Source.exists_tilesText (source : Source) : ∃ stop, source.TilesText stop := by
  have htiling : Tiling 0 (tiles source.chars) (totalWidth (pieces source.chars)) := by
    have h := tiling_place source.chars 0
    rwa [Nat.zero_add] at h
  have htokens : source.lex.tokens.dropLast = (tiles source.chars).filterMap Tile.token? :=
    List.dropLast_concat
  refine ⟨totalWidth (pieces source.chars), htiling, ?_, fun tile ht => ?_, rfl, rfl, ?_, ?_,
    htiling.diagnostics_pairwise source, source.stop_eq, fun tokens hok => ⟨?_, fun i hi => ?_⟩⟩
  · have := htiling.length_le
    omega
  · obtain ⟨content, hcontent⟩ := Tile.exists_is ht
    exact ⟨content, hcontent, fun other ho => ho.unique hcontent⟩
  · rw [htokens]
    exact htiling.inOrder
  · rw [htokens]
    exact fun token ht => Tile.token_inside ht
  · have hsound := ((source.tokens_eq_ok_iff tokens).mp hok).1
    obtain hw | ⟨-, hd⟩ := source.stop_eq
    · exact hw
    · exact absurd ((diagnostics_eq_nil_iff source).mpr hsound) hd
  · exact Source.covered hok hi

/-- A backslash at the end of an open string claims the place behind the text. -/
example : (Source.ofText "open" ['a', ' ', '"', '\\']).lex.tokens =
    [⟨.identifier, ['a'], ⟨0, 1⟩⟩, endToken 5] := by decide +kernel

end Offside
