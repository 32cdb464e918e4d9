import Mathlib.Tactic.SplitIfs
import Offside.Proofs.Rendering

/-!
# Where carets stand

The row of carets of a label is written behind a margin of its own. It is narrower than the margin
of the line above it, which holds the number of the line, so that no caret stands under what it
marks.

- `Renderer.Apart`: by how many columns the line of a label stands right of its other rows.
- `Renderer.shift`: how much wider the margin with the number of a line is.
- `Renderer.apart_iff`: the rows of a label are apart by that, and by no other number of columns.
- `Renderer.render_apart`: so they are in every text that is shown without colours.
-/
namespace Offside

set_option autoImplicit false

open Text (Style)

namespace Renderer

/-! ## Margins -/

/-- The row of a line of text, behind its number. -/
def sourceRow (label : Label) (line : List Char) : List Char :=
  marginRow false (numberedBar (label.region.start.line + 1)) (' ' :: line)

/-- The row of the message of a label, if it has one. -/
def messageRows (label : Label) : List (List Char) :=
  if label.message = "" then []
  else [marginRow false bar (' ' :: ' ' :: ' ' :: label.message.toList)]

/-- How much wider the margin with the number of a line is than the one without. The number is
given four columns, or as many as it has digits. -/
def shift (label : Label) : Nat :=
  max 4 (toString (label.region.start.line + 1)).toList.length - 2

theorem two_le_shift (label : Label) : 2 ≤ shift label := by
  unfold shift
  omega

/-- The line of a label stands right of its other rows by some columns, and so does its bar. Where
that is by none, carets stand under the characters from the start of the region up to its stop,
and all bars are in one column. -/
def Apart (columns : Nat) (region : Region) (text source carets : List Char)
    (others : List (List Char)) : Prop :=
  ∃ bar left : Nat,
    (∀ row ∈ carets :: others, row.idxOf '|' = bar) ∧ source.idxOf '|' = bar + columns ∧
    (∀ i : Nat, source[left + columns + i]? = text[i]?) ∧
    ∀ j : Nat, carets[j]? = some '^' ↔
      left + region.start.column ≤ j ∧ j < left + region.stop.column

variable {label : Label}

theorem idxOf_marginRow_bar (rest : List Char) : (marginRow false bar rest).idxOf '|' = 5 := by
  rfl

/-- What stands in front of the text of a line. -/
theorem sourceRow_eq (label : Label) (line : List Char) : ∃ front : List Char,
    front.length = 5 + shift label ∧ '|' ∉ front ∧
      sourceRow label line = front ++ '|' :: ' ' :: line := by
  let digits := (toString (label.region.start.line + 1)).toList
  refine ⟨[' ', ' '] ++ (List.replicate (4 - digits.length) ' ' ++ (digits ++ [' '])), ?_, ?_, ?_⟩
  · simp only [List.length_append, List.length_replicate, List.length_cons, List.length_nil]
    show _ = 5 + (max 4 digits.length - 2)
    omega
  · have hdigits : '|' ∉ digits := notMem_toString (by decide) (by decide) _
    simp only [List.mem_append, List.mem_replicate, not_or]
    exact ⟨by decide, by simp, hdigits, by decide⟩
  · simp [sourceRow, marginRow, numberedBar, paint, digits]

theorem idxOf_sourceRow (label : Label) (line : List Char) :
    (sourceRow label line).idxOf '|' = 5 + shift label := by
  obtain ⟨front, hlength, hbar, hrow⟩ := sourceRow_eq label line
  rw [hrow, List.idxOf_append_of_notMem hbar, List.idxOf_cons_self, Nat.add_zero, hlength]

theorem getElem?_sourceRow (label : Label) (text : List Char) (i : Nat) :
    (sourceRow label text)[7 + shift label + i]? = text[i]? := by
  obtain ⟨front, hlength, -, hrow⟩ := sourceRow_eq label text
  have hplace : 7 + shift label + i - front.length = i + 1 + 1 := by omega
  rw [hrow, List.getElem?_append_right (by omega), hplace, List.getElem?_cons_succ,
    List.getElem?_cons_succ]

/-- Carets stand behind the margin without a number, over as many columns as the region has. -/
theorem getElem?_caretRow (style : Style) {region : Region} (hstart : 0 ≤ region.start.column)
    (hlt : region.start.column < region.stop.column) (j : Nat) :
    (caretRow false style region)[j]? = some '^' ↔
      7 + region.start.column ≤ j ∧ j < 7 + region.stop.column := by
  obtain ⟨blanks, hblanks⟩ := Int.eq_ofNat_of_zero_le hstart
  obtain ⟨width, hwidth⟩ := Int.eq_ofNat_of_zero_le (Int.sub_nonneg.mpr (Int.le_of_lt hlt))
  have hone : max 1 (region.stop.column - region.start.column) = (width : Int) := by
    rw [Int.max_eq_right (by omega), hwidth]
  have hrow : caretRow false style region =
      "     | ".toList ++ (List.replicate blanks ' ' ++ List.replicate width '^') := by
    unfold caretRow
    dsimp only
    rw [hone, hblanks]
    rfl
  have hmargin : "     | ".toList.length = 7 := rfl
  rw [hrow]
  by_cases hfront : j < 7
  · have hnone : ∀ k < 7, "     | ".toList[k]? ≠ some '^' := by decide
    rw [List.getElem?_append_left (by omega)]
    refine ⟨fun h => absurd h (hnone j hfront), ?_⟩
    omega
  rw [List.getElem?_append_right (by omega), hmargin]
  by_cases hblank : j - 7 < blanks
  · rw [List.getElem?_append_left (by rwa [List.length_replicate]),
      List.getElem?_replicate_of_lt hblank]
    refine ⟨fun h => absurd h (by decide), ?_⟩
    omega
  rw [List.getElem?_append_right (by rw [List.length_replicate]; omega), List.length_replicate,
    List.getElem?_replicate]
  split_ifs with hcaret
  · refine ⟨fun _ => ?_, fun _ => rfl⟩
    omega
  · refine ⟨fun h => absurd h (by simp), ?_⟩
    omega

/-! ## The rows of a label -/

/-- The rows of a label are apart by as much as its margins differ, and by nothing else. -/
theorem apart_iff (style : Style) (hstart : 0 ≤ label.region.start.column)
    (hlt : label.region.start.column < label.region.stop.column) (line : List Char)
    (columns : Nat) :
    Apart columns label.region line (sourceRow label line) (caretRow false style label.region)
      (marginRow false bar [] :: messageRows label) ↔ columns = shift label := by
  constructor
  · rintro ⟨column, left, hbars, hsource, -, -⟩
    have hgutter := hbars (marginRow false bar []) (by simp)
    rw [idxOf_marginRow_bar] at hgutter
    rw [idxOf_sourceRow] at hsource
    omega
  · rintro rfl
    refine ⟨5, 7, ?_, idxOf_sourceRow label line, getElem?_sourceRow label line,
      getElem?_caretRow style hstart hlt⟩
    intro row hrow
    rcases List.mem_cons.mp hrow with rfl | hrow
    · exact idxOf_marginRow_bar _
    rcases List.mem_cons.mp hrow with rfl | hrow
    · exact idxOf_marginRow_bar _
    unfold messageRows at hrow
    split_ifs at hrow
    · cases hrow
    · rw [List.mem_singleton.mp hrow]
      exact idxOf_marginRow_bar _

theorem labelRows_of_line (style : Style) (line : List Char)
    (hline : label.region.start.line = label.region.stop.line) :
    labelRows false style label (some line) =
      placeRow false label :: marginRow false bar [] :: sourceRow label line ::
        caretRow false style label.region :: messageRows label := by
  unfold labelRows messageRows
  rw [if_pos hline]
  rfl

/-! ## The shown text -/

variable {renderer : Renderer} {disk : Disk} {d : Diagnostic} {before behind : List Label}
  {line text : List Char}

/-- In a text that is shown without colours, the line of a label stands right of its carets and
bars by as many columns as its margin is wider, which are at least two. -/
theorem render_apart (hcolor : renderer.color = false)
    (hlabels : d.labels = before ++ label :: behind)
    (hsingle : label.region.start.line = label.region.stop.line)
    (hstart : 0 ≤ label.region.start.column)
    (hlt : label.region.start.column < label.region.stop.column)
    (hline : renderer.lineAt disk label = .ok (some line))
    (htext : (renderer.render disk d).2 = .ok text) :
    ∃ above below : List (List Char),
      let gutter := marginRow false bar []
      let carets := caretRow false d.severity.style label.region
      text = ['\n'].intercalate (above ++ placeRow false label :: gutter ::
        sourceRow label line :: carets :: (messageRows label ++ below)) ∧
      2 ≤ shift label ∧ ∀ columns, Apart columns label.region line (sourceRow label line) carets
        (gutter :: messageRows label) ↔ columns = shift label := by
  obtain ⟨above, below, hrows⟩ := exists_rows hlabels hline htext
  rw [hcolor, labelRows_of_line d.severity.style line hsingle] at hrows
  exact ⟨above, below, hrows, two_le_shift label,
    apart_iff d.severity.style hstart hlt line⟩

/-- A word of two letters, marked on the first line of a file. -/
def markedWord : Diagnostic :=
  ⟨.error, "E1", "m", [⟨"f", ⟨⟨0, 0⟩, ⟨0, 2⟩⟩, ""⟩], []⟩

/-- A renderer without colours that knows the file. -/
def knowingWord : Renderer := (fresh false).addSource (Source.ofText "f" "ab".toList)

theorem markedWord_apart :
    let label : Label := ⟨"f", ⟨⟨0, 0⟩, ⟨0, 2⟩⟩, ""⟩
    ∃ text, (knowingWord.render ⟨[], []⟩ markedWord).2 = .ok text ∧ shift label = 2 ∧
      Apart 2 label.region "ab".toList (sourceRow label "ab".toList)
        (caretRow false .red label.region) [marginRow false bar []] := by
  intro label
  refine ⟨_, rfl, by decide, ?_⟩
  have hline : knowingWord.lineAt ⟨[], []⟩ label = .ok (some "ab".toList) := by decide
  obtain ⟨-, -, -, -, hapart⟩ := @render_apart label knowingWord ⟨[], []⟩ markedWord [] []
    "ab".toList _ rfl rfl rfl (by decide) (by decide) hline rfl
  exact (hapart 2).mpr (by decide)

/-- The carets under the word are not below its letters, and the bars are in two columns. -/
theorem markedWord_carets :
    (knowingWord.render ⟨[], []⟩ markedWord).2 =
        .ok "error[E1]: m\n  --> f:1:1\n     |\n     1 | ab\n     | ^^".toList ∧
      "     1 | ab".toList.idxOf 'a' = 9 ∧ "     | ^^".toList.idxOf '^' = 7 ∧
      ¬ Apart 0 ⟨⟨0, 0⟩, ⟨0, 2⟩⟩ "ab".toList "     1 | ab".toList "     | ^^".toList
        ["     |".toList] := by
  refine ⟨by decide, by decide, by decide, ?_⟩
  rintro ⟨column, left, hbars, hsource, -, -⟩
  have hcarets : column = 5 := (hbars "     | ^^".toList List.mem_cons_self).symm
  have hword : column + 0 = 7 := hsource.symm
  omega

end Renderer

end Offside
