import Mathlib.Data.List.DropRight
import Mathlib.Data.List.GetD
import Offside.Proofs.Lookups
import Offside.Proofs.Tiling

/-!
# Offsets and positions

The offsets of a text and their positions are in the same order. A position is read off the line
feeds before the offset, whether the table of lines is scanned or searched by halves, and a span
that is not empty can be told from the region that it resolves to.

- `searchTable`: how many entries of a table are at most an offset, found by halving.
- `Source.position_eq_searched`: the search by halves finds the position.
- `Source.position_eq_count`: the line feeds before an offset and the characters behind the last.
- `Source.spanOf`: the span that a region was resolved from.
- `Source.positions_exact`: positions and regions of all offsets and spans of a text.
-/
namespace Offside

set_option autoImplicit false

/-! ## Searching the table by halves -/

/-- How many entries of an ascending table are at most an offset. Those before `lo` are known to
be, and those from `hi` on are known not to be; what lies between is halved. -/
def searchTable (table : List Nat) (offset : Int) (lo hi : Nat) : Nat :=
  if lo < hi then
    let middle := (lo + hi) / 2
    if offset < table.getD middle 0 then searchTable table offset lo middle
    else searchTable table offset (middle + 1) hi
  else lo
termination_by hi - lo

/-- The entries up to an offset are counted where the next one is the first that is too large. -/
theorem linesUpTo_eq {table : List Nat} {offset : Int} {n : Nat} (hn : n ≤ table.length)
    (hbelow : ∀ i (h : i < table.length), i < n → (table[i] : Int) ≤ offset)
    (habove : ∀ i (h : i < table.length), n ≤ i → offset < (table[i] : Int)) :
    linesUpTo offset table = n := by
  induction table generalizing n with
  | nil => exact (Nat.le_zero.mp hn).symm
  | cons start rest ih =>
    cases n with
    | zero =>
      have hstart : offset < (start : Int) := habove 0 (Nat.succ_pos _) (Nat.zero_le _)
      rw [linesUpTo, if_neg (by omega)]
    | succ n =>
      have hstart : (start : Int) ≤ offset := hbelow 0 (Nat.succ_pos _) (Nat.succ_pos _)
      rw [linesUpTo, if_pos hstart]
      refine congrArg (· + 1) (ih (Nat.le_of_succ_le_succ hn) ?_ ?_)
      · intro i hi hin
        exact hbelow (i + 1) (Nat.succ_lt_succ hi) (Nat.succ_lt_succ hin)
      · intro i hi hni
        exact habove (i + 1) (Nat.succ_lt_succ hi) (Nat.succ_le_succ hni)

theorem entry_le_of_pairwise {table : List Nat} (hsorted : table.Pairwise (· < ·)) {i j : Nat}
    (hij : i ≤ j) (hj : j < table.length) : table[i] ≤ table[j] := by
  obtain hlt | rfl := Nat.lt_or_eq_of_le hij
  · exact Nat.le_of_lt (List.pairwise_iff_getElem.mp hsorted i j _ hj hlt)
  · exact Nat.le_refl _

/-- In an ascending table the search by halves counts the entries up to an offset. -/
theorem searchTable_eq {table : List Nat} (hsorted : table.Pairwise (· < ·)) {offset : Int}
    {lo hi : Nat} (hlo : lo ≤ hi) (hhi : hi ≤ table.length)
    (hbelow : ∀ i (h : i < table.length), i < lo → (table[i] : Int) ≤ offset)
    (habove : ∀ i (h : i < table.length), hi ≤ i → offset < (table[i] : Int)) :
    searchTable table offset lo hi = linesUpTo offset table := by
  -- the stretch between the bounds gets shorter, and what is known of the entries outside is kept
  induction lo, hi using searchTable.induct table offset with
  | case1 lo hi hlt middle hsmall ih =>
    have hmiddle : middle < table.length := by omega
    rw [List.getD_eq_getElem _ _ hmiddle] at hsmall
    rw [searchTable, if_pos hlt]
    simp only
    rw [List.getD_eq_getElem _ _ hmiddle, if_pos hsmall]
    refine ih (by omega) (by omega) hbelow ?_
    intro i hi' hmi
    have hentry := entry_le_of_pairwise hsorted hmi hi'
    omega
  | case2 lo hi hlt middle hlarge ih =>
    have hmiddle : middle < table.length := by omega
    rw [List.getD_eq_getElem _ _ hmiddle] at hlarge
    rw [searchTable, if_pos hlt]
    simp only
    rw [List.getD_eq_getElem _ _ hmiddle, if_neg hlarge]
    refine ih (by omega) hhi ?_ habove
    intro i hi' him
    have hentry := entry_le_of_pairwise hsorted (Nat.le_of_lt_succ him) hmiddle
    omega
  | case3 lo hi hdone =>
    have hsame : lo = hi := by omega
    rw [searchTable, if_neg hdone]
    exact (linesUpTo_eq (by omega) hbelow (hsame ▸ habove)).symm

theorem pairwise_startsAfter (cs : List Char) (offset : Nat) :
    (startsAfter offset cs).Pairwise (· < ·) := by
  induction cs generalizing offset with
  | nil => exact .nil
  | cons c rest ih =>
    rw [startsAfter]
    split_ifs
    · exact .cons (lt_of_mem_startsAfter (offset + 1) rest) (ih (offset + 1))
    · exact ih (offset + 1)

theorem pairwise_lineStarts (cs : List Char) : (lineStarts cs).Pairwise (· < ·) :=
  .cons (lt_of_mem_startsAfter 0 cs) (pairwise_startsAfter cs 0)

/-! ## Line feeds before an offset -/

/-- From the start of a text the column counts the characters behind the last line feed. -/
theorem Position.after_origin_column (cs : List Char) :
    (origin.after cs).column = (cs.rtakeWhile (· ≠ '\n')).length := by
  induction cs using List.reverseRecOn with
  | nil => rfl
  | append_singleton cs c ih =>
    rw [after_append, after_cons, after_nil]
    by_cases hc : c = '\n'
    · rw [List.rtakeWhile_concat_neg _ _ _ (by simp [hc]), past, if_pos hc]
      rfl
    · rw [List.rtakeWhile_concat_pos _ _ _ (by simp [hc]), past, if_neg hc, List.length_append, ih]
      rfl

namespace Source

variable (source : Source)

/-- The position of an offset, its line searched by halves in the table of lines. -/
def searchedPosition (offset : Int) : Position :=
  let line := searchTable source.starts offset 0 source.starts.length
  ⟨line - 1, offset - source.starts.getD (line - 1) 0⟩

/-- The line of an offset starts as far before it as its column says. -/
theorem exists_start_of_position {offset : Int} (h : 0 ≤ offset) :
    ∃ line start : Nat, linesUpTo offset source.starts = line + 1 ∧
      source.starts[line]? = some start ∧ source.position offset = ⟨line, offset - start⟩ := by
  obtain ⟨start, hstart, hlocate⟩ :=
    exists_start_of_locate (startsAfter 0 source.chars) 0 0 offset
  refine ⟨linesUpTo offset (startsAfter 0 source.chars), start, ?_, ?_, ?_⟩
  · rw [source.starts_eq, lineStarts, linesUpTo, if_pos (by simpa using h)]
  · rw [source.starts_eq, lineStarts, hstart]
  · rw [source.position_eq_locate h, hlocate, Int.zero_add]

theorem position_eq_searched {offset : Int} (h : 0 ≤ offset) :
    source.position offset = source.searchedPosition offset := by
  obtain ⟨line, start, hline, hstart, hposition⟩ := source.exists_start_of_position h
  have hsorted : source.starts.Pairwise (· < ·) := by
    rw [source.starts_eq]
    exact pairwise_lineStarts source.chars
  have hsearch : searchTable source.starts offset 0 source.starts.length = line + 1 := by
    rw [← hline]
    refine searchTable_eq hsorted (Nat.zero_le _) (Nat.le_refl _) ?_ ?_
    · intro i hi hlt
      exact absurd hlt (Nat.not_lt_zero i)
    · intro i hi hge
      exact absurd hi (Nat.not_lt.mpr hge)
  unfold searchedPosition
  simp only
  rw [hposition, hsearch, List.getD_eq_getElem?_getD, Nat.add_sub_cancel, hstart]
  simp

/-- The line of an offset is the number of line feeds before it, and its column the number of
characters behind the last of these. -/
theorem position_eq_count {n : Nat} (h : n ≤ source.chars.length) :
    source.position n = ⟨((source.chars.take n).count '\n' : Nat),
      ((source.chars.take n).rtakeWhile (· ≠ '\n')).length⟩ := by
  rw [source.position_eq_after h]
  have hline := Position.after_line Position.origin (source.chars.take n)
  have hcolumn := Position.after_origin_column (source.chars.take n)
  rw [Position.origin, Int.zero_add] at hline
  rw [← hline, ← hcolumn]
  rfl

/-! ## The order of positions -/

theorem position_precedes_iff {o o' : Nat} :
    o < o' ↔ (source.position o).Precedes (source.position o') := by
  constructor
  · exact source.position_precedes
  · intro hprecedes
    by_contra hle
    have hmono := source.position_mono (Int.natCast_nonneg o')
      (Int.ofNat_le.mpr (Nat.le_of_not_lt hle))
    unfold Position.Precedes at hprecedes
    omega

/-! ## Spans and their regions -/

/-- The offset that stands at a position. -/
def offsetAt (p : Position) : Int := source.starts.getD p.line.toNat 0 + p.column

/-- The span that a region was resolved from. -/
def spanOf (region : Region) : Span :=
  ⟨source.offsetAt region.start, source.offsetAt region.stop⟩

theorem offsetAt_position {offset : Int} (h : 0 ≤ offset) (width : Int) :
    source.offsetAt ⟨(source.position offset).line, (source.position offset).column + width⟩ =
      offset + width := by
  obtain ⟨line, start, -, hstart, hposition⟩ := source.exists_start_of_position h
  rw [hposition, offsetAt, Int.toNat_natCast, List.getD_eq_getElem?_getD, hstart,
    Option.getD_some]
  simp only
  omega

theorem spanOf_resolve {span : Span} (h0 : 0 ≤ span.lo) (hlt : span.lo < span.hi) :
    source.spanOf (source.resolve span) = span := by
  have hlo := source.offsetAt_position h0 0
  have hlast : 0 ≤ span.hi - 1 := by omega
  have hhi := source.offsetAt_position hlast 1
  rw [Int.add_zero, Int.add_zero] at hlo
  rw [Int.sub_add_cancel] at hhi
  rw [source.resolve_of_lt hlt, spanOf, endBefore, hhi, hlo]

/-- The line feeds between two offsets are those that their lines are apart. -/
theorem position_line_sub {lo hi : Int} (h0 : 0 ≤ lo) (hle : lo ≤ hi)
    (hlength : hi ≤ source.chars.length) :
    (source.position hi).line - (source.position lo).line =
      ((source.slice ⟨lo, hi⟩).count '\n' : Nat) := by
  obtain ⟨a, rfl⟩ := Int.eq_ofNat_of_zero_le h0
  obtain ⟨b, rfl⟩ := Int.eq_ofNat_of_zero_le (Int.le_trans h0 hle)
  have hab : a ≤ b := Int.ofNat_le.mp hle
  have hb : b ≤ source.chars.length := Int.ofNat_le.mp hlength
  have hclamp {n : Nat} (hn : n ≤ source.chars.length) :
      clampIndex source.chars.length (n : Int) = n := by
    unfold clampIndex
    rw [if_neg (by omega), Int.toNat_natCast, Nat.min_eq_left hn]
  have hsplit : (source.chars.take b).count '\n' =
      (source.chars.take a).count '\n' + ((source.chars.take b).drop a).count '\n' := by
    have htake := List.take_append_drop a (source.chars.take b)
    rw [List.take_take, Nat.min_eq_left hab] at htake
    rw [← List.count_append, htake]
  rw [source.position_eq_count hb, source.position_eq_count (Nat.le_trans hab hb), slice]
  simp only
  rw [hclamp hb, hclamp (Nat.le_trans hab hb)]
  omega

/-- A region is where a span stretches: from the position where it starts to one column past its
last character, over as many line ends as stand before that character, and from no other span. -/
structure Covers (span : Span) (region : Region) : Prop where
  start_eq : region.start = source.position span.lo
  stop_eq : region.stop =
    ⟨(source.position (span.hi - 1)).line, (source.position (span.hi - 1)).column + 1⟩
  ordered : region.start.Precedes region.stop
  height : region.stop.line - region.start.line =
    ((source.slice ⟨span.lo, span.hi - 1⟩).count '\n' : Nat)
  span_eq : source.spanOf region = span

theorem covers_resolve {span : Span} (h0 : 0 ≤ span.lo) (hlt : span.lo < span.hi)
    (hhi : span.hi ≤ source.chars.length) : source.Covers span (source.resolve span) := by
  have hlast : span.lo ≤ span.hi - 1 := by omega
  have hmono := source.position_mono h0 hlast
  have hregion := source.resolve_of_lt hlt
  constructor
  case start_eq => rw [hregion]
  case stop_eq => rw [hregion]; rfl
  case ordered =>
    rw [hregion, endBefore]
    unfold Position.Precedes
    simp only
    omega
  case height =>
    rw [hregion]
    exact source.position_line_sub h0 (by omega) (by omega)
  case span_eq => exact source.spanOf_resolve h0 hlt

/-- Positions and offsets of a text are in the same order: a position counts the line feeds before
its offset and the characters behind the last of them, a search by halves finds it, and a span
that is not empty is told from its region. -/
theorem positions_exact :
    (∀ o : Nat, o ≤ source.chars.length →
      source.position o = ⟨((source.chars.take o).count '\n' : Nat),
        ((source.chars.take o).rtakeWhile (· ≠ '\n')).length⟩ ∧
      source.position o = source.searchedPosition o) ∧
    (∀ o o' : Nat, o ≤ source.chars.length → o' ≤ source.chars.length →
      (o < o' ↔ (source.position o).Precedes (source.position o'))) ∧
    (∀ span : Span, 0 ≤ span.lo → span.lo < span.hi → span.hi ≤ source.chars.length →
      source.Covers span (source.resolve span)) ∧
    ∀ span span' : Span, 0 ≤ span.lo → span.lo < span.hi → span.hi ≤ source.chars.length →
      0 ≤ span'.lo → span'.lo < span'.hi → span'.hi ≤ source.chars.length → span ≠ span' →
      source.resolve span ≠ source.resolve span' := by
  refine ⟨fun o ho => ⟨source.position_eq_count ho, ?_⟩,
    fun o o' _ _ => source.position_precedes_iff, fun span => source.covers_resolve, ?_⟩
  · exact source.position_eq_searched (Int.natCast_nonneg o)
  · intro span span' h0 hlt hhi h0' hlt' hhi' hne hsame
    have hspan := (source.covers_resolve h0 hlt hhi).span_eq
    have hspan' := (source.covers_resolve h0' hlt' hhi').span_eq
    rw [hsame] at hspan
    exact hne (hspan.symm.trans hspan')

/-- The span ends with the line feed of the second line, and stays on that line. -/
theorem twoLineText_positions :
    let source := Source.ofText "f" "ab\nc\n".toList
    (5 ≤ source.chars.length ∧ source.position 5 = ⟨2, 0⟩ ∧
      source.position 5 = source.searchedPosition 5) ∧
    (source.position 2).Precedes (source.position 3) ∧
    source.Covers ⟨1, 5⟩ ⟨⟨0, 1⟩, ⟨1, 2⟩⟩ ∧ source.resolve ⟨1, 2⟩ ≠ source.resolve ⟨1, 3⟩ := by
  intro source
  obtain ⟨hposition, horder, hcovers, hdistinct⟩ := source.positions_exact
  have hfive := hposition 5 (by decide)
  refine ⟨⟨by decide, hfive.1.trans (by decide), hfive.2⟩, ?_, ?_, ?_⟩
  · exact (horder 2 3 (by decide) (by decide)).mp (by decide)
  · exact hcovers ⟨1, 5⟩ (by decide) (by decide) (by decide)
  · exact hdistinct ⟨1, 2⟩ ⟨1, 3⟩ (by decide) (by decide) (by decide) (by decide) (by decide)
      (by decide) (by decide)

end Source

end Offside
