import Offside.Proofs.Rendering
import Offside.Proofs.Reports

/-!
# The line that a failure shows

Where lines are counted, a line ends at a line feed only. Where they are shown, a text is cut at
more characters, and each of these before the end of a line moves what is shown for it.

- `Text.strays`: how many characters end a line where lines are shown, but none where they are
  counted.
- `Text.LineOf`: a line as lines are counted.
- `Text.getElem?_lines_eq_iff`: whether the line of that number is shown for it.
- `Source.shown_line_iff`: the line that is shown for a failed conversion.
-/
namespace Offside

set_option autoImplicit false

/-! ## Cutting texts -/

namespace Text

/-- How many characters end a line where lines are shown but not where they are counted. A
carriage return before a line feed ends none by itself. -/
def strays : List Char → Nat
  | [] => 0
  | c :: rest =>
    (if isLineBoundary c = true ∧ c ≠ '\n' ∧ ¬ (c = '\r' ∧ rest.head? = some '\n') then 1 else 0) +
      strays rest

/-- A text that is empty or ends with a line feed. -/
def EndsLine (cs : List Char) : Prop := cs = [] ∨ cs.getLast? = some '\n'

theorem EndsLine.of_cons {c d : Char} {rest : List Char} (h : EndsLine (c :: d :: rest)) :
    EndsLine (d :: rest) := by
  obtain h | h := h
  · cases h
  · rw [List.getLast?_cons_cons] at h
    exact .inr h

theorem EndsLine.eq_newline {c : Char} (h : EndsLine [c]) : c = '\n' := by
  obtain h | h := h
  · cases h
  · exact Option.some.inj h

theorem EndsLine.position {before : List Char} (h : EndsLine before) :
    Position.origin.after before = ⟨before.count '\n', 0⟩ := by
  have hline : (Position.origin.after before).line = before.count '\n' := by
    rw [Position.after_line]
    exact Int.zero_add _
  have hcolumn : (Position.origin.after before).column = 0 := by
    obtain rfl | hlast := h
    · rfl
    · rw [← List.dropLast_append_getLast? _ hlast, Position.after_append]
      rfl
  rw [← hline, ← hcolumn]

theorem lines_newline_cons (cs : List Char) : lines ('\n' :: cs) = [] :: lines cs := by
  rw [lines, if_neg (by simp), if_pos (by decide)]

/-- What a character does to the lines behind it: nothing, where it is a carriage return before a
line feed, or it ends a line, or it stands in one. -/
theorem lines_cons_cases (c : Char) (rest : List Char) :
    (c = '\r' ∧ rest.head? = some '\n' ∧ lines (c :: rest) = lines rest) ∨
      (¬ (c = '\r' ∧ rest.head? = some '\n') ∧ isLineBoundary c = true ∧
        lines (c :: rest) = [] :: lines rest) ∨
      (isLineBoundary c = false ∧ (lines rest = [] ∧ lines (c :: rest) = [[c]] ∨
        ∃ line more, lines rest = line :: more ∧ lines (c :: rest) = (c :: line) :: more)) := by
  rw [lines]
  by_cases hreturn : c = '\r' ∧ rest.head? = some '\n'
  · exact .inl ⟨hreturn.1, hreturn.2, if_pos hreturn⟩
  rw [if_neg hreturn]
  by_cases hboundary : isLineBoundary c = true
  · exact .inr (.inl ⟨hreturn, hboundary, if_pos hboundary⟩)
  rw [if_neg hboundary]
  refine .inr (.inr ⟨Bool.eq_false_iff.mpr hboundary, ?_⟩)
  cases lines rest with
  | nil => exact .inl ⟨rfl, rfl⟩
  | cons line more => exact .inr ⟨line, more, rfl, rfl⟩

theorem lines_ne_nil {cs : List Char} (h : cs ≠ []) : lines cs ≠ [] := by
  induction cs with
  | nil => exact absurd rfl h
  | cons c rest ih =>
    obtain ⟨-, hhead, heq⟩ | ⟨-, -, heq⟩ | ⟨-, ⟨-, heq⟩ | ⟨line, more, -, heq⟩⟩ :=
      lines_cons_cases c rest
    · rw [heq]
      refine ih ?_
      rintro rfl
      cases hhead
    · rw [heq]
      exact List.cons_ne_nil _ _
    · rw [heq]
      exact List.cons_ne_nil _ _
    · rw [heq]
      exact List.cons_ne_nil _ _

/-- A line holds no character that ends one. -/
theorem not_isLineBoundary_of_mem_lines {cs line : List Char} (h : line ∈ lines cs) :
    ∀ c ∈ line, isLineBoundary c = false := by
  induction cs generalizing line with
  | nil => cases h
  | cons c rest ih =>
    obtain ⟨-, -, heq⟩ | ⟨-, -, heq⟩ | ⟨hc, ⟨-, heq⟩ | ⟨first, more, hrest, heq⟩⟩ :=
      lines_cons_cases c rest
    · exact ih (heq ▸ h)
    · rw [heq] at h
      rcases List.mem_cons.mp h with rfl | h
      · simp
      · exact ih h
    · rw [heq, List.mem_singleton] at h
      subst h
      simpa using hc
    · rw [heq] at h
      rcases List.mem_cons.mp h with rfl | h
      · intro d hd
        rcases List.mem_cons.mp hd with rfl | hd
        · exact hc
        · exact ih (hrest ▸ List.mem_cons_self) d hd
      · exact ih (hrest ▸ List.mem_cons_of_mem first h)

/-- Behind a line feed a text is cut as if it started there. -/
theorem lines_append {before : List Char} (h : EndsLine before) (cs : List Char) :
    lines (before ++ cs) = lines before ++ lines cs := by
  induction before with
  | nil => rfl
  | cons c rest ih =>
    cases rest with
    | nil =>
      obtain rfl := h.eq_newline
      exact lines_newline_cons cs
    | cons d rest =>
      have hrest : lines (d :: rest ++ cs) = lines (d :: rest) ++ lines cs := ih h.of_cons
      have hhead : (d :: rest ++ cs).head? = (d :: rest).head? := rfl
      rw [List.cons_append, lines, lines.eq_def (c :: d :: rest), hhead, hrest]
      dsimp only
      split_ifs
      · rfl
      · rfl
      · cases hl : lines (d :: rest) with
        | nil => exact absurd hl (lines_ne_nil (List.cons_ne_nil d rest))
        | cons line more => rfl

theorem strays_append {before : List Char} (h : EndsLine before) (cs : List Char) :
    strays (before ++ cs) = strays before + strays cs := by
  induction before with
  | nil => rw [List.nil_append, strays, Nat.zero_add]
  | cons c rest ih =>
    cases rest with
    | nil =>
      obtain rfl := h.eq_newline
      rfl
    | cons d rest =>
      have hhead : (d :: rest ++ cs).head? = (d :: rest).head? := rfl
      rw [List.cons_append, strays, strays.eq_def (c :: d :: rest), hhead, ih h.of_cons]
      exact (Nat.add_assoc _ _ _).symm

/-- A text that ends a line is cut into as many lines as are counted, and one more for each
character that ends a line only where lines are shown. -/
theorem length_lines {cs : List Char} (h : EndsLine cs) :
    (lines cs).length = cs.count '\n' + strays cs := by
  induction cs with
  | nil => rfl
  | cons c rest ih =>
    cases rest with
    | nil =>
      obtain rfl := h.eq_newline
      rfl
    | cons d rest =>
      have hrest := ih h.of_cons
      rw [strays]
      obtain ⟨hc, hhead, heq⟩ | ⟨hreturn, hc, heq⟩ | ⟨hc, ⟨hnil, -⟩ | ⟨line, more, hl, heq⟩⟩ :=
        lines_cons_cases c (d :: rest)
      · have hcount : (c :: d :: rest).count '\n' = (d :: rest).count '\n' := by
          rw [hc]
          exact List.count_cons_of_ne (by decide)
        rw [if_neg fun hstray => hstray.2.2 ⟨hc, hhead⟩, heq, hrest, hcount, Nat.zero_add]
      · rw [heq, List.length_cons, hrest]
        by_cases hn : c = '\n'
        · rw [if_neg fun hstray => hstray.2.1 hn, hn, List.count_cons_self]
          omega
        · rw [if_pos ⟨hc, hn, hreturn⟩, List.count_cons_of_ne hn]
          omega
      · exact absurd hnil (lines_ne_nil (List.cons_ne_nil d rest))
      · have hn : c ≠ '\n' := by
          rintro rfl
          exact absurd hc (by decide)
        rw [hl] at hrest
        rw [if_neg fun hstray => by simp [hc] at hstray, heq, List.length_cons, ← List.length_cons,
          hrest, List.count_cons_of_ne hn, Nat.zero_add]

/-- Where nothing in a text ends a line unseen, and no line feed either, nothing does. -/
theorem not_isLineBoundary_of_strays {cs : List Char} (hstrays : strays cs = 0) (hn : '\n' ∉ cs) :
    ∀ c ∈ cs, isLineBoundary c = false := by
  induction cs with
  | nil => simp
  | cons c rest ih =>
    rw [List.mem_cons, not_or] at hn
    rw [strays, Nat.add_eq_zero_iff] at hstrays
    have hhead : rest.head? ≠ some '\n' := fun hhead => hn.2 (List.mem_of_mem_head? hhead)
    intro d hd
    rcases List.mem_cons.mp hd with rfl | hd
    · by_contra hboundary
      rw [Bool.not_eq_false] at hboundary
      rw [if_pos ⟨hboundary, Ne.symm hn.1, fun hreturn => hhead hreturn.2⟩] at hstrays
      cases hstrays.1
    · exact ih hstrays.2 hn.2 d hd

theorem strays_eq_zero {cs : List Char} (h : ∀ c ∈ cs, isLineBoundary c = false) :
    strays cs = 0 := by
  induction cs with
  | nil => rfl
  | cons c rest ih =>
    rw [strays, ih fun d hd => h d (List.mem_cons_of_mem c hd), if_neg]
    rintro ⟨hboundary, -⟩
    rw [h c List.mem_cons_self] at hboundary
    cases hboundary

/-- The first line of a text, where a line end or nothing stands behind it. -/
theorem head?_lines_append {body behind : List Char} (hne : body ≠ [])
    (hbody : ∀ c ∈ body, isLineBoundary c = false)
    (hbehind : ∀ c ∈ behind.head?, c = '\n' ∨ c = '\r') :
    (lines (body ++ behind)).head? = some body := by
  have hempty : behind = [] ∨ (lines behind).head? = some [] := by
    cases behind with
    | nil => exact .inl rfl
    | cons c behind =>
      obtain rfl | rfl := hbehind c rfl
      · exact .inr (by rw [lines_newline_cons]; rfl)
      · obtain ⟨-, hhead, heq⟩ | ⟨-, -, heq⟩ | ⟨hc, -⟩ := lines_cons_cases '\r' behind
        · obtain ⟨rest, rfl⟩ := List.head?_eq_some_iff.mp hhead
          exact .inr (by rw [heq, lines_newline_cons]; rfl)
        · exact .inr (by rw [heq]; rfl)
        · exact absurd hc (by decide)
  induction body with
  | nil => exact absurd rfl hne
  | cons c rest ih =>
    have hc : isLineBoundary c = false := hbody c List.mem_cons_self
    have hrest : rest ++ behind = [] ∨ (lines (rest ++ behind)).head? = some rest := by
      by_cases hr : rest = []
      · rw [hr, List.nil_append]
        exact hempty
      · exact .inr (ih hr fun d hd => hbody d (List.mem_cons_of_mem c hd))
    rw [List.cons_append]
    obtain ⟨hreturn, -⟩ | ⟨-, hboundary, -⟩ | ⟨-, ⟨hnil, heq⟩ | ⟨line, more, hl, heq⟩⟩ :=
      lines_cons_cases c (rest ++ behind)
    · rw [hreturn] at hc
      exact absurd hc (by decide)
    · rw [hc] at hboundary
      cases hboundary
    · have hnone : rest ++ behind = [] := by
        by_contra hsome
        exact lines_ne_nil hsome hnil
      rw [heq, (List.append_eq_nil_iff.mp hnone).1]
      rfl
    · rw [hl] at hrest
      obtain hnone | hfirst := hrest
      · rw [hnone] at hl
        cases hl
      · obtain rfl : line = rest := Option.some.inj hfirst
        rw [heq]
        rfl

/-! ## Lines as they are counted -/

/-- A line of a text as lines are counted: it starts behind a line feed, or with the text, and
reaches up to the next line feed, or to the end of the text. -/
structure LineOf (cs before line behind : List Char) : Prop where
  eq : cs = before ++ (line ++ behind)
  starts : EndsLine before
  within : '\n' ∉ line
  ends : behind = [] ∨ behind.head? = some '\n'

/-- A line without the carriage return at its end. -/
def withoutReturn (line : List Char) : List Char :=
  if line.getLast? = some '\r' then line.dropLast else line

theorem withoutReturn_append (line : List Char) :
    line = withoutReturn line ∨ line = withoutReturn line ++ ['\r'] := by
  unfold withoutReturn
  split_ifs with h
  · exact .inr (List.dropLast_append_getLast? _ h).symm
  · exact .inl rfl

/-- A character that is no carriage return stays where it is on its line. -/
theorem withoutReturn_middle (head tail : List Char) {c : Char} (hc : c ≠ '\r') :
    ∃ rest, withoutReturn (head ++ c :: tail) = head ++ c :: rest := by
  unfold withoutReturn
  split_ifs with h
  · cases tail with
    | nil =>
      rw [List.getLast?_append, List.getLast?_singleton] at h
      exact absurd (Option.some.inj h) hc
    | cons d tail =>
      exact ⟨(d :: tail).dropLast, by rw [List.dropLast_append_cons, List.dropLast_cons_cons]⟩
  · exact ⟨tail, rfl⟩

/-- Every place of a text lies on a line. -/
theorem exists_line (front : List Char) :
    ∃ before head, front = before ++ head ∧ EndsLine before ∧ '\n' ∉ head := by
  induction front with
  | nil => exact ⟨[], [], rfl, .inl rfl, List.not_mem_nil⟩
  | cons c rest ih =>
    obtain ⟨before, head, rfl, hends | hlast, hhead⟩ := ih
    · subst hends
      by_cases hc : c = '\n'
      · exact ⟨[c], head, rfl, .inr (by rw [hc]; rfl), hhead⟩
      · exact ⟨[], c :: head, rfl, .inl rfl, List.not_mem_cons_of_ne_of_not_mem (Ne.symm hc) hhead⟩
    · refine ⟨c :: before, head, rfl, .inr ?_, hhead⟩
      rw [List.getLast?_cons, hlast]
      rfl

theorem exists_line_end (back : List Char) :
    ∃ tail behind, back = tail ++ behind ∧ '\n' ∉ tail ∧
      (behind = [] ∨ behind.head? = some '\n') := by
  induction back with
  | nil => exact ⟨[], [], rfl, List.not_mem_nil, .inl rfl⟩
  | cons c rest ih =>
    by_cases hc : c = '\n'
    · exact ⟨[], c :: rest, rfl, List.not_mem_nil, .inr (by rw [hc]; rfl)⟩
    · obtain ⟨tail, behind, rfl, htail, hbehind⟩ := ih
      exact ⟨c :: tail, behind, rfl, List.not_mem_cons_of_ne_of_not_mem (Ne.symm hc) htail, hbehind⟩

/-- A line is shown by its number as it is if nothing before its end ends a line unseen, or if a
piece of the text before it, which has that number then, happens to read the same. -/
theorem getElem?_lines_eq_iff {cs before line behind : List Char}
    (h : LineOf cs before line behind) (hne : withoutReturn line ≠ []) :
    (lines cs)[before.count '\n']? = some (withoutReturn line) ↔
      strays (before ++ withoutReturn line) = 0 ∨
        strays before ≠ 0 ∧ (lines before)[before.count '\n']? = some (withoutReturn line) := by
  obtain ⟨rest, hline, hrest⟩ : ∃ rest, line ++ behind = withoutReturn line ++ rest ∧
      ∀ c ∈ rest.head?, c = '\n' ∨ c = '\r' := by
    obtain heq | heq := withoutReturn_append line
    · refine ⟨behind, by rw [← heq], fun c hc => .inl ?_⟩
      obtain rfl | hhead := h.ends
      · cases hc
      · exact Option.some.inj (hc.symm.trans hhead)
    · refine ⟨'\r' :: behind, ?_, fun c hc => .inr (Option.some.inj hc).symm⟩
      conv_lhs => rw [heq]
      rw [List.append_assoc]
      rfl
  have hwithin : '\n' ∉ withoutReturn line := by
    intro hmem
    have hsub : withoutReturn line ⊆ line := by
      obtain heq | heq := withoutReturn_append line
      · rw [← heq]
        exact List.Subset.refl line
      · conv_rhs => rw [heq]
        exact List.subset_append_left _ _
    exact h.within (hsub hmem)
  have hlength := length_lines h.starts
  rw [h.eq, hline, lines_append h.starts, strays_append h.starts]
  by_cases hstrays : strays before = 0
  · rw [hstrays, Nat.zero_add, List.getElem?_append_right (by omega), hlength, hstrays,
      Nat.add_zero, Nat.sub_self, ← List.head?_eq_getElem?]
    simp only [ne_eq, not_true_eq_false, false_and, or_false]
    constructor
    · intro hhead
      exact strays_eq_zero (not_isLineBoundary_of_mem_lines (List.mem_of_mem_head? hhead))
    · intro hzero
      exact head?_lines_append hne (not_isLineBoundary_of_strays hzero hwithin) hrest
  · rw [List.getElem?_append_left (by omega), Nat.add_eq_zero_iff]
    constructor
    · intro hpiece
      exact .inr ⟨hstrays, hpiece⟩
    · rintro (⟨hzero, -⟩ | ⟨-, hpiece⟩)
      · exact absurd hzero hstrays
      · exact hpiece

end Text

open Text

/-! ## Labels of failures -/

variable {source : Source}

/-- What is read as more than a blank starts with a character that ends no line. -/
theorem Source.exists_start_of_tile {tile : Tile} (h : tile ∈ tiles source.chars)
    (hb : tile.piece.lexeme ≠ .blank) : ∃ front c back, source.chars = front ++ c :: back ∧
      tile.start = front.length ∧ c ≠ '\n' ∧ c ≠ '\r' := by
  obtain ⟨front, c, back, hsplit, rfl, -⟩ := Tile.exists_start h
  have hc : ¬ (c = ' ' ∨ c = '\n' ∨ c = '\r') := by
    intro hblank
    rw [Piece.start_eq, Lexeme.scan_blank hblank] at hb
    exact hb rfl
  exact ⟨front, c, back, hsplit, rfl, fun hn => hc (.inr (.inl hn)),
    fun hr => hc (.inr (.inr hr))⟩

theorem Source.exists_start_of_token {token : Token}
    (h : token ∈ tokensAt 0 (pieces source.chars)) : ∃ front c back,
      source.chars = front ++ c :: back ∧ token.span.lo = front.length ∧
        c ≠ '\n' ∧ c ≠ '\r' := by
  obtain ⟨tile, ht, htoken⟩ := List.mem_filterMap.mp h
  obtain ⟨hlexeme, htoken⟩ := Tile.token?_eq_some htoken
  obtain ⟨front, c, back, hsplit, hstart, hn, hr⟩ :=
    exists_start_of_tile ht (by rw [hlexeme]; simp)
  refine ⟨front, c, back, hsplit, ?_, hn, hr⟩
  rw [htoken, ← hstart]
  rfl

/-- What a failure reports has one label, which starts at a character that ends no line. -/
theorem Source.exists_start_of_error {rules : Layout.Rules} {failure : CompileFailure}
    (h : (source.convert rules).result = .error failure) {d : Diagnostic}
    (hd : d ∈ failure.diagnostics) : ∃ front c back span message,
      source.chars = front ++ c :: back ∧ c ≠ '\n' ∧ c ≠ '\r' ∧ span.lo = front.length ∧
        d.labels = [⟨source.name, source.resolve span, message⟩] := by
  obtain ⟨diagnostics, ht, rfl⟩ | ⟨tokens, diagnostics, ht, hf, rfl⟩ | ⟨trees, fault, ht, hf, rfl⟩ :=
    convert_error_cases h
  · obtain ⟨tile, htile, fault, hlexeme, rfl⟩ := exists_tile_of_tokens ht hd
    obtain ⟨front, c, back, hsplit, hstart, hn, hr⟩ :=
      exists_start_of_tile htile (by rw [hlexeme]; simp)
    exact ⟨front, c, back, _, _, hsplit, hn, hr, by rw [hstart], rfl⟩
  · obtain ⟨fault, rfl, hmem⟩ := exists_token_of_treesOf ht hf hd
    obtain ⟨front, c, back, hsplit, hstart, hn, hr⟩ := exists_start_of_token hmem
    exact ⟨front, c, back, _, _, hsplit, hn, hr, hstart, rfl⟩
  · obtain rfl := List.mem_singleton.mp hd
    obtain ⟨-, hsp⟩ := source.spells_trees ht
    obtain ⟨tree, ts, htree, hsub, hregion⟩ := Layout.exists_tree_of_fault hsp hf
    obtain ⟨first, hhead, last, -, hspan⟩ := htree.exists_ends
    obtain ⟨front, c, back, hsplit, hstart, hn, hr⟩ :=
      exists_start_of_token (hsub.subset (List.mem_of_mem_head? hhead))
    obtain ⟨message, hlabels⟩ := fault.exists_label source.name
    exact ⟨front, c, back, tree.span, message, hsplit, hn, hr, by rw [hspan]; exact hstart,
      by rw [hlabels, hregion]⟩

/-- The line that a character stands on, and the position of the character. -/
theorem Source.exists_lineOf {front back : List Char} {c : Char}
    (h : source.chars = front ++ c :: back) (hn : c ≠ '\n') (hr : c ≠ '\r') :
    ∃ before line behind, ∃ column : Nat, LineOf source.chars before line behind ∧
      source.position front.length = ⟨before.count '\n', column⟩ ∧
        (withoutReturn line)[column]? = some c ∧ front.length = before.length + column := by
  obtain ⟨before, head, rfl, hstarts, hhead⟩ := exists_line front
  obtain ⟨tail, behind, rfl, htail, hends⟩ := exists_line_end back
  obtain ⟨rest, hkept⟩ := withoutReturn_middle head tail hr
  refine ⟨before, head ++ c :: tail, behind, head.length, ⟨?_, hstarts, ?_, hends⟩, ?_, ?_, ?_⟩
  · simpa using h
  · rw [List.mem_append, List.mem_cons, not_or, not_or]
    exact ⟨hhead, Ne.symm hn, htail⟩
  · rw [source.position_length_append h, Position.after_append, hstarts.position,
      Position.after_of_no_newline _ _ hhead, Int.zero_add]
  · rw [hkept, List.getElem?_append_right (Nat.le_refl _), Nat.sub_self]
    rfl
  · exact List.length_append

/-- Every label of a failed conversion stands on a line of the source. A renderer that was told the
source shows that line, and the source gives it, if nothing before its end ends a line unseen, or
if a piece of the text before it happens to read the same. -/
theorem Source.shown_line_iff {rules : Layout.Rules} {failure : CompileFailure}
    (h : (source.convert rules).result = .error failure) {d : Diagnostic}
    (hd : d ∈ failure.diagnostics) {label : Label} (hl : label ∈ d.labels) :
    ∃ before line behind c, ∃ column : Nat, LineOf source.chars before line behind ∧
      label.region.start = ⟨before.count '\n', column⟩ ∧
      source.chars[before.length + column]? = some c ∧
      (withoutReturn line)[column]? = some c ∧
      let shown := lineNumbered? source.lines (label.region.start.line + 1)
      let agrees := strays (before ++ withoutReturn line) = 0 ∨ strays before ≠ 0 ∧
        (Text.lines before)[before.count '\n']? = some (withoutReturn line)
      (∀ (renderer : Renderer) (disk : Disk), ((renderer.addSource source).render disk d).2 =
        .ok (Renderer.textWith renderer.color d [shown])) ∧
      (shown = some (withoutReturn line) ↔ agrees) ∧
      (source.lineAt (label.region.start.line + 1) = withoutReturn line ↔ agrees) := by
  obtain ⟨front, c, back, span, message, hsplit, hn, hr, hlo, hlabels⟩ := exists_start_of_error h hd
  obtain ⟨before, line, behind, column, hline, hposition, hkept, hlength⟩ :=
    exists_lineOf hsplit hn hr
  rw [hlabels, List.mem_singleton] at hl
  subst hl
  have hstart : (source.resolve span).start = ⟨before.count '\n', column⟩ := by
    rw [source.resolve_start, hlo, hposition]
  have hne : withoutReturn line ≠ [] := by
    intro hnil
    rw [hnil] at hkept
    cases hkept
  have hshown : lineNumbered? source.lines ((source.resolve span).start.line + 1) =
      (Text.lines source.chars)[before.count '\n']? := by
    rw [hstart, lineNumbered?, if_pos (by dsimp only; omega)]
    dsimp only
    rw [Int.add_sub_cancel, Int.toNat_natCast]
    rfl
  have hiff := getElem?_lines_eq_iff hline hne
  refine ⟨before, line, behind, c, column, hline, hstart, ?_, hkept, fun renderer disk => ?_,
    ?_, ?_⟩
  · rw [← hlength, hsplit, List.getElem?_append_right (Nat.le_refl _), Nat.sub_self]
    rfl
  · have hfound : (renderer.addSource source).linesFor disk d.labels =
        .ok [lineNumbered? source.lines ((source.resolve span).start.line + 1)] := by
      rw [Renderer.linesFor, hlabels, List.mapM_cons, Renderer.lineAt,
        Renderer.linesOf_addSource]
      rfl
    rw [Renderer.render_eq, hfound]
    rfl
  · rw [hshown]
    exact hiff
  · rw [lineAt, hshown, ← hiff]
    cases (Text.lines source.chars)[before.count '\n']? with
    | none =>
      refine ⟨fun hnil => absurd hnil.symm hne, fun hnone => ?_⟩
      cases hnone
    | some found => exact Option.some_inj.symm

/-- A comment with a form feed in it, and a character that starts no token. -/
def brokenComment : Source := Source.ofText "broken" "/*\x0c*/ `\n".toList

def strayMark : Diagnostic :=
  .errorAt "broken" ⟨⟨0, 6⟩, ⟨0, 7⟩⟩ "E100" "unexpected character: '`'" "" []

theorem brokenComment_result : (brokenComment.convert ⟨[], [], .always, false⟩).result =
    .error (.rejected [strayMark]) := by
  decide +kernel

theorem brokenComment_line : ∃ before line behind c, ∃ column : Nat,
    LineOf brokenComment.chars before line behind ∧
    (⟨0, 6⟩ : Position) = ⟨before.count '\n', column⟩ ∧
    (withoutReturn line)[column]? = some c ∧
    (brokenComment.lineAt 1 = withoutReturn line ↔
      strays (before ++ withoutReturn line) = 0 ∨ strays before ≠ 0 ∧
        (Text.lines before)[before.count '\n']? = some (withoutReturn line)) := by
  obtain ⟨before, line, behind, c, column, hline, hstart, -, hkept, -, -, hiff⟩ :=
    Source.shown_line_iff brokenComment_result List.mem_cons_self List.mem_cons_self
  exact ⟨before, line, behind, c, column, hline, hstart, hkept, hiff⟩

/-- The mark stands at column six of the first line, of which two characters are shown. -/
theorem brokenComment_shown :
    (brokenComment.convert ⟨[], [], .always, false⟩).result = .error (.rejected [strayMark]) ∧
      LineOf brokenComment.chars [] "/*\x0c*/ `".toList ['\n'] ∧
      "/*\x0c*/ `".toList[6]? = some '`' ∧
      brokenComment.lineAt 1 = "/*".toList ∧
      (((Renderer.fresh false).addSource brokenComment).render ⟨[], []⟩ strayMark).2 =
        .ok ("error[E100]: unexpected character: '`'\n  --> broken:1:7\n     |\n" ++
          "     1 | /*\n     |       ^").toList := by
  refine ⟨brokenComment_result, ⟨rfl, .inl rfl, by decide, .inr rfl⟩, by decide, by decide, ?_⟩
  decide +kernel

end Offside
