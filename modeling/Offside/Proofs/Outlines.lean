import Mathlib.Data.List.Chain
import Offside.Proofs.LineJoin
import Offside.Proofs.ProgramSource

/-!
# Outlines

Programs by their lines: blocks of one-line statements, where an arrow at the end of a line opens
a block on the lines behind it.

- `Line`: the text of a statement on one line.
- `Entry`, `Outline`, `Outline.Fits`: the programs, and the columns at which they can be written.
- `Row`, `Outline.rows`: the lines of a program, each with the columns of the blocks it is in.
- `Row.Follows`, `Outline.rowsIn_rows`: how the columns of one line go on from those before.
- `RowsStand`, `exists_rowsStand`: the tokens of a text that starts with the lines of a program.
-/
namespace Offside

set_option autoImplicit false

/-! ## Lines -/

/-- A token that is neither an arrow nor a bracket. -/
def TokenKind.IsWord (kind : TokenKind) : Prop :=
  kind ≠ .fatArrow ∧ kind ≠ .openDelimiter ∧ kind ≠ .closeDelimiter

/-- What ends a line after its words. -/
def arrowIf (opens : Bool) : List TokenKind := if opens then [.fatArrow] else []

/-- A statement on one line, from its first token on. It has at least one word, and ends with an
arrow if it opens a block. -/
structure Line (opens : Bool) where
  text : List Char
  single : '\n' ∉ text
  sound : ∀ piece ∈ pieces text, piece.IsSound
  first : ∃ token ∈ (tokensAt 0 (pieces text)).head?, token.span.lo = 0
  words : ∃ head, head ≠ [] ∧ (∀ kind ∈ head, kind.IsWord) ∧
    (tokensAt 0 (pieces text)).map Token.kind = head ++ arrowIf opens

/-! ## Programs -/

mutual

/-- A line alone, or a line that opens a block at a column. -/
inductive Entry where
  | line (line : Line false)
  | block (line : Line true) (column : Nat) (body : Outline)

/-- At least one entry. -/
inductive Outline where
  | last (entry : Entry)
  | next (entry : Entry) (rest : Outline)

end

mutual

/-- Every block stands right of the one it is in. -/
def Entry.Fits (column : Nat) : Entry → Prop
  | .line _ => True
  | .block _ inner body => column < inner ∧ body.Fits inner
termination_by structural entry => entry

def Outline.Fits (column : Nat) : Outline → Prop
  | .last entry => entry.Fits column
  | .next entry rest => entry.Fits column ∧ rest.Fits column
termination_by structural outline => outline

end

/-- A line of a program: the columns of the blocks that its own block is in, from the outermost
in, and the column of its own. -/
structure Row where
  opens : Bool
  line : Line opens
  outer : List Nat
  column : Nat

namespace Row

/-- The columns of the blocks that are open at a line. -/
def columns (row : Row) : List Nat := row.outer ++ [row.column]

def printed (row : Row) : List Char := List.replicate row.column ' ' ++ row.line.text

end Row

theorem Row.newline_not_mem_printed (row : Row) : '\n' ∉ row.printed := by
  intro h
  rcases List.mem_append.mp h with h | h
  · exact newline_not_mem_spaces _ h
  · exact row.line.single h

/-- Lines as they are printed, each with its line end. -/
def printedAll (rows : List Row) : List Char := rows.flatMap fun row => row.printed ++ ['\n']

mutual

def Entry.rows (outer : List Nat) (column : Nat) : Entry → List Row
  | .line line => [⟨false, line, outer, column⟩]
  | .block line inner body => ⟨true, line, outer, column⟩ :: body.rows (outer ++ [column]) inner
termination_by structural entry => entry

/-- The lines of a program at a column, inside blocks at other columns. -/
def Outline.rows (outer : List Nat) (column : Nat) : Outline → List Row
  | .last entry => entry.rows outer column
  | .next entry rest => entry.rows outer column ++ rest.rows outer column
termination_by structural outline => outline

end

/-! ## From line to line -/

/-- Behind a line that opens a block the next line is the first of it. Behind any other the next
line stands in one of the blocks that are open. -/
def Row.Follows (row next : Row) : Prop :=
  if row.opens then next.outer = row.columns ∧ row.column < next.column
  else next.columns <+: row.columns

/-- Columns from the outermost in grow on to those of the next line. -/
theorem Row.Follows.pairwise {row next : Row} (h : row.Follows next)
    (hrow : row.columns.Pairwise (· < ·)) : next.columns.Pairwise (· < ·) := by
  unfold Row.Follows at h
  split at h
  · obtain ⟨houter, hcolumn⟩ := h
    rw [Row.columns, houter, List.pairwise_append]
    refine ⟨hrow, List.pairwise_singleton _ _, fun c hc e he => ?_⟩
    obtain rfl := List.mem_singleton.mp he
    rw [Row.columns, List.pairwise_append] at hrow
    rcases List.mem_append.mp hc with hc | hc
    · exact Nat.lt_trans (hrow.2.2 c hc row.column (List.mem_singleton_self _)) hcolumn
    · obtain rfl := List.mem_singleton.mp hc
      exact hcolumn
  · exact hrow.sublist h.sublist

/-- The lines of a block whose columns, with those around it, are given. -/
structure RowsIn (columns : List Nat) (rows : List Row) : Prop where
  first : ∃ row ∈ rows.head?, row.columns = columns
  chain : rows.IsChain Row.Follows
  last : ∀ row ∈ rows.getLast?, row.opens = false
  within : ∀ row ∈ rows, columns <+: row.columns

namespace RowsIn

theorem single (line : Line false) (outer : List Nat) (column : Nat) :
    RowsIn (outer ++ [column]) [⟨false, line, outer, column⟩] where
  first := ⟨_, rfl, rfl⟩
  chain := List.isChain_singleton _
  last row h := by
    obtain rfl := Option.some.inj h
    rfl
  within row h := by
    obtain rfl := List.mem_singleton.mp h
    exact List.prefix_rfl

theorem append {columns : List Nat} {l r : List Row} (hl : RowsIn columns l)
    (hr : RowsIn columns r) : RowsIn columns (l ++ r) := by
  obtain ⟨first, hfirst, hcolumns⟩ := hl.first
  obtain ⟨second, hsecond, hcolumns'⟩ := hr.first
  have hne : r ≠ [] := by
    rintro rfl
    cases hsecond
  refine ⟨⟨first, ?_, hcolumns⟩, ?_, fun row h => ?_, fun row h => ?_⟩
  · rw [List.head?_append, Option.mem_def.mp hfirst]
    rfl
  · apply List.isChain_append.mpr
    refine ⟨hl.chain, hr.chain, fun row hrow next hnext => ?_⟩
    obtain rfl : second = next := Option.some.inj (hsecond.symm.trans hnext)
    rw [Row.Follows, hl.last row hrow, if_neg Bool.false_ne_true, hcolumns']
    exact hl.within row (List.mem_of_getLast? hrow)
  · rw [List.getLast?_append_of_ne_nil l hne] at h
    exact hr.last row h
  · rcases List.mem_append.mp h with h | h
    · exact hl.within row h
    · exact hr.within row h

theorem opens (line : Line true) {outer : List Nat} {column inner : Nat} {rows : List Row}
    (hin : column < inner) (h : RowsIn (outer ++ [column] ++ [inner]) rows) :
    RowsIn (outer ++ [column]) (⟨true, line, outer, column⟩ :: rows) := by
  obtain ⟨first, hfirst, hcolumns⟩ := h.first
  obtain ⟨rest, rfl⟩ : ∃ rest, rows = first :: rest := List.head?_eq_some_iff.mp hfirst
  obtain ⟨houter, hcolumn⟩ := List.append_inj' hcolumns rfl
  refine ⟨⟨_, rfl, rfl⟩, ?_, fun row hrow => ?_, fun row hrow => ?_⟩
  · apply List.IsChain.cons_cons ?_ h.chain
    rw [Row.Follows, if_pos rfl]
    refine ⟨houter, ?_⟩
    rw [List.singleton_inj.mp hcolumn]
    exact hin
  · rw [List.getLast?_cons_cons] at hrow
    exact h.last row hrow
  · rcases List.mem_cons.mp hrow with rfl | hrow
    · exact List.prefix_rfl
    · exact (List.prefix_append _ _).trans (h.within row hrow)

end RowsIn

mutual

theorem Entry.rowsIn_rows (outer : List Nat) {column : Nat} (entry : Entry)
    (h : entry.Fits column) : RowsIn (outer ++ [column]) (entry.rows outer column) := by
  cases entry with
  | line line =>
    rw [Entry.rows]
    exact RowsIn.single line outer column
  | block line inner body =>
    rw [Entry.Fits] at h
    rw [Entry.rows]
    exact RowsIn.opens line h.1 (Outline.rowsIn_rows (outer ++ [column]) body h.2)
termination_by structural entry

theorem Outline.rowsIn_rows (outer : List Nat) {column : Nat} (outline : Outline)
    (h : outline.Fits column) : RowsIn (outer ++ [column]) (outline.rows outer column) := by
  cases outline with
  | last entry =>
    rw [Outline.Fits] at h
    rw [Outline.rows]
    exact Entry.rowsIn_rows outer entry h
  | next entry rest =>
    rw [Outline.Fits] at h
    rw [Outline.rows]
    exact (Entry.rowsIn_rows outer entry h.1).append (Outline.rowsIn_rows outer rest h.2)
termination_by structural outline

end

/-! ## Reading lines -/

theorem pieces_spaces (k : Nat) (text : List Char) :
    pieces (List.replicate k ' ' ++ text) = blankPieces (List.replicate k ' ') ++ pieces text := by
  induction k with
  | zero => rfl
  | succ k ih =>
    have hstep : pieces (' ' :: (List.replicate k ' ' ++ text)) =
        Piece.of .blank [' '] :: pieces (List.replicate k ' ' ++ text) :=
      chunks_cons Piece.start ' ' _
    rw [List.replicate_succ, List.cons_append, hstep, ih]
    rfl

/-- The tokens of a line stand behind those of the lines before, and before those behind. -/
theorem tokensAt_row (offset : Nat) (row : Row) (behind : List Char) :
    tokensAt offset (pieces (row.printed ++ '\n' :: behind)) =
      (tokensAt 0 (pieces row.line.text)).map (Token.shift (offset + row.column)) ++
        tokensAt (offset + (row.printed ++ ['\n']).length) (pieces behind) := by
  have hplace : tokensAt (offset + row.column) (pieces row.line.text) =
      (tokensAt 0 (pieces row.line.text)).map (Token.shift (offset + row.column)) := by
    rw [← tokensAt_add, Nat.zero_add]
  have hbehind : tokensAt (offset + row.column + row.line.text.length)
      (Piece.of .blank ['\n'] :: pieces behind) =
      tokensAt (offset + row.column + row.line.text.length + 1) (pieces behind) :=
    tokensAt_cons_other _ (by simp [Piece.of]) _
  have hlength : offset + (row.printed ++ ['\n']).length =
      offset + row.column + row.line.text.length + 1 := by
    simp only [Row.printed, List.length_append, List.length_replicate, List.length_singleton]
    omega
  rw [Row.printed, List.append_assoc, pieces_spaces, tokensAt_blankPieces, List.length_replicate,
    pieces_join row.line.sound, tokensAt_append, totalWidth_of_sound row.line.sound, hplace,
    hbehind, ← hlength, Row.printed]

/-- An offset in a stretch of text without a line end lies on the line where the stretch starts. -/
theorem Source.line_of_within {source : Source} {before text rest : List Char}
    (h : source.chars = before ++ (text ++ rest)) (hn : '\n' ∉ text) {o : Int}
    (hlo : before.length ≤ o) (hhi : o ≤ (before.length + text.length : Nat)) :
    (source.position o).line = (Position.origin.after before).line := by
  obtain ⟨k, hk⟩ := Int.le.dest hlo
  have ho : o = ((before.length + k : Nat) : Int) := by omega
  have hkt : k ≤ text.length := by omega
  have htake : source.chars.take (before.length + k) = before ++ text.take k := by
    rw [h, List.take_length_add_append, List.take_append_of_le_length hkt]
  have hle : before.length + k ≤ source.chars.length := by
    rw [h]
    simp only [List.length_append]
    omega
  rw [ho, source.position_eq_after hle, htake, Position.after_append,
    Position.after_of_no_newline _ _ fun hm => hn (List.mem_of_mem_take hm)]

/-- A token that stands on one line. -/
def Token.OnLine (source : Source) (n : Nat) (token : Token) : Prop :=
  (source.resolve token.span).start.line = n ∧ (source.resolve token.span).stop.line = n

theorem onLine_of_within {source : Source} {before text rest : List Char} {n : Nat}
    (h : source.chars = before ++ (text ++ rest)) (hn : '\n' ∉ text)
    (hline : (Position.origin.after before).line = n) {token : Token}
    (hlo : before.length ≤ token.span.lo) (hlt : token.span.lo < token.span.hi)
    (hhi : token.span.hi ≤ (before.length + text.length : Nat)) : token.OnLine source n := by
  unfold Token.OnLine
  rw [source.resolve_of_lt hlt, Source.endBefore]
  constructor
  · exact (source.line_of_within h hn hlo (by omega)).trans hline
  · exact (source.line_of_within h hn (by omega) (by omega)).trans hline

/-- Tokens that stand where the lines of a program put them, one line below the other: the words of
a line, the first of them at its column, and perhaps an arrow. -/
inductive RowsStand (source : Source) : Nat → List Row → List Token → Prop
  | nil (n : Nat) : RowsStand source n [] []
  | row {n : Nat} {row : Row} {rows : List Row} {first : Token} {words arrow tokens : List Token}
    (hstart : (source.resolve first.span).start = ⟨n, row.column⟩)
    (hwords : ∀ token ∈ first :: words, token.kind.IsWord)
    (harrow : arrow.map Token.kind = arrowIf row.opens)
    (hline : ∀ token ∈ first :: (words ++ arrow), token.OnLine source n)
    (h : RowsStand source (n + 1) rows tokens) :
    RowsStand source n (row :: rows) (first :: (words ++ arrow) ++ tokens)

/-- The tokens of a line, wherever it is printed. -/
theorem Line.exists_tokens {opens : Bool} (line : Line opens) (offset : Nat) :
    ∃ first words arrow, (tokensAt 0 (pieces line.text)).map (Token.shift offset) =
        first :: (words ++ arrow) ∧ first.span.lo = offset ∧
      (∀ token ∈ first :: words, token.kind.IsWord) ∧ arrow.map Token.kind = arrowIf opens ∧
      ∀ token ∈ first :: (words ++ arrow), offset ≤ token.span.lo ∧
        token.span.lo < token.span.hi ∧ token.span.hi ≤ (offset + line.text.length : Nat) := by
  obtain ⟨token, hfirst, hzero⟩ := line.first
  obtain ⟨head, hne, hhead, hkinds⟩ := line.words
  obtain ⟨words, arrow, htokens, hwords, harrow⟩ := List.map_eq_append_iff.mp hkinds
  obtain ⟨found, words, rfl⟩ : ∃ found rest, words = found :: rest := by
    cases words with
    | nil => exact absurd hwords.symm hne
    | cons found rest => exact ⟨found, rest, rfl⟩
  have hsame : found = token := by
    rw [htokens] at hfirst
    exact Option.some.inj hfirst
  have hshift (tokens : List Token) :
      (tokens.map (Token.shift offset)).map Token.kind = tokens.map Token.kind := by
    rw [List.map_map]
    rfl
  refine ⟨found.shift offset, words.map (Token.shift offset), arrow.map (Token.shift offset), ?_,
    ?_, ?_, ?_, ?_⟩
  · rw [htokens, List.map_append, List.map_cons, List.cons_append]
  · show found.span.lo + offset = offset
    rw [hsame, hzero, Int.zero_add]
  · intro t ht
    rw [← List.map_cons] at ht
    apply hhead
    rw [← hwords, ← hshift]
    exact List.mem_map_of_mem ht
  · rw [hshift, harrow]
  · intro t ht
    rw [← List.map_append, ← List.map_cons, ← List.cons_append, ← htokens] at ht
    obtain ⟨u, hu, rfl⟩ := List.mem_map.mp ht
    have hsound : ∀ piece ∈ pieces (Source.ofText "" line.text).chars, piece.IsSound := line.sound
    have hspan := Source.span_of_mem_tokensAt hsound hu
    simp only [Token.shift, Source.ofText] at hspan ⊢
    omega

/-- Behind a line with its line end reading goes on at the first column of the next. -/
theorem after_row {written : List Char} {n : Nat}
    (hp : Position.origin.after written = ⟨n, 0⟩) (row : Row) :
    Position.origin.after (written ++ (row.printed ++ ['\n'])) = ⟨(n + 1 : Nat), 0⟩ := by
  rw [Position.after_append, Position.after_append, hp,
    Position.after_of_no_newline _ _ row.newline_not_mem_printed]
  rfl

/-- Where the tokens of one line stand, behind what is written before it. -/
theorem exists_row {source : Source} {row : Row} {written behind : List Char} {n : Nat}
    (hp : Position.origin.after written = ⟨n, 0⟩)
    (h : source.chars = written ++ (row.printed ++ '\n' :: behind)) :
    ∃ first words arrow,
      tokensAt written.length (pieces (row.printed ++ '\n' :: behind)) =
        first :: (words ++ arrow) ++
          tokensAt (written ++ (row.printed ++ ['\n'])).length (pieces behind) ∧
      (source.resolve first.span).start = ⟨n, row.column⟩ ∧
      (∀ token ∈ first :: words, token.kind.IsWord) ∧ arrow.map Token.kind = arrowIf row.opens ∧
      ∀ token ∈ first :: (words ++ arrow), token.OnLine source n := by
  obtain ⟨first, words, arrow, hline, hlo, hwords, harrow, hspans⟩ :=
    row.line.exists_tokens (written.length + row.column)
  have hstart : Position.origin.after (written ++ List.replicate row.column ' ') =
      ⟨n, row.column⟩ := by
    rw [Position.after_append, hp, Position.after_of_no_newline _ _ (newline_not_mem_spaces _),
      List.length_replicate, Int.zero_add]
  have hchars : source.chars = (written ++ List.replicate row.column ' ') ++
      (row.line.text ++ '\n' :: behind) := by
    rw [h, Row.printed]
    simp
  have hlength : (written ++ List.replicate row.column ' ').length =
      written.length + row.column := by
    rw [List.length_append, List.length_replicate]
  refine ⟨first, words, arrow, ?_, ?_, hwords, harrow, fun token ht => ?_⟩
  · rw [tokensAt_row, hline, ← List.length_append]
  · rw [source.resolve_start, hlo, ← hlength, source.position_length_append hchars, hstart]
  · obtain ⟨h0, hlt, hle⟩ := hspans token ht
    apply onLine_of_within hchars row.line.single (by rw [hstart]) _ hlt
    · rw [hlength]
      exact hle
    · rw [hlength]
      exact h0

/-- The tokens of a text that goes on with the lines of a program, and what is behind them. -/
theorem exists_rowsStand {source : Source} {rows : List Row} {written behind : List Char} {n : Nat}
    (hp : Position.origin.after written = ⟨n, 0⟩)
    (h : source.chars = written ++ (printedAll rows ++ behind)) :
    ∃ tokens, RowsStand source n rows tokens ∧
      tokensAt written.length (pieces (printedAll rows ++ behind)) =
        tokens ++ tokensAt (written ++ printedAll rows).length (pieces behind) ∧
      Position.origin.after (written ++ printedAll rows) = ⟨n + rows.length, 0⟩ := by
  induction rows generalizing written n with
  | nil =>
    refine ⟨[], .nil n, ?_, ?_⟩
    · rw [printedAll, List.flatMap_nil, List.append_nil]
      rfl
    · rw [printedAll, List.flatMap_nil, List.append_nil, hp]
      simp
  | cons row rows ih =>
    have hall : printedAll (row :: rows) ++ behind =
        row.printed ++ '\n' :: (printedAll rows ++ behind) := by
      simp [printedAll]
    have hwritten : written ++ printedAll (row :: rows) =
        written ++ (row.printed ++ ['\n']) ++ printedAll rows := by
      simp [printedAll]
    have hnext : source.chars =
        written ++ (row.printed ++ ['\n']) ++ (printedAll rows ++ behind) := by
      rw [h, hall]
      simp
    obtain ⟨tokens, hrest, htokens, hend⟩ := ih (after_row hp row) hnext
    rw [hall] at h
    obtain ⟨first, words, arrow, hread, hstart, hwords, harrow, hline⟩ := exists_row hp h
    refine ⟨first :: (words ++ arrow) ++ tokens, .row hstart hwords harrow hline hrest, ?_, ?_⟩
    · rw [hall, hread, htokens, hwritten, ← List.append_assoc (first :: _)]
    · rw [hwritten, hend, List.length_cons]
      simp only [Position.mk.injEq, and_true]
      omega

end Offside
