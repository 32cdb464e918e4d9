import Offside.Proofs.Arrowless
import Offside.Proofs.Placement
import Offside.Proofs.Respacing

/-!
# Converting twice

A text without arrows is converted to its tokens alone, each at its column, with line ends and
spaces between them. Converting what came out changes nothing more.

- `Emitter.piecesOf`: the pieces that an emitter puts out for tokens.
- `BlankOutside`: outside the tokens of a text stand spaces and line feeds only.
- `Emitter.Again`: an emitter, and one that is given back what the first has put out.
- `output_again`: the second puts out the same.
- `Source.convert_arrowless`: how a text without arrows is converted, once and again.
-/
namespace Offside

set_option autoImplicit false

open Layout

/-! ## Pieces of an output -/

/-- The pieces that an emitter puts out for tokens: blanks before each, and the line end. -/
def Emitter.piecesOf (source : Source) : Emitter → List Token → List Piece
  | emitter, [] => blankPieces emitter.finish
  | emitter, token :: tokens =>
    let region := source.resolve token.span
    blankPieces (emitter.gap region.start) ++ .of (.token token.kind) token.text ::
      piecesOf source { emitter with cursor := some region.stop, dirty := true } tokens

theorem Emitter.blank_of_mem_finish (emitter : Emitter) :
    ∀ c ∈ emitter.finish, c = ' ' ∨ c = '\n' := by
  unfold finish
  cases emitter.dirty with
  | false => simp
  | true => simp

theorem Emitter.severed_finish (emitter : Emitter) : Severed emitter.finish := by
  unfold finish
  cases emitter.dirty with
  | false => exact Severed.nil
  | true => exact Severed.cons rfl _

theorem Piece.ReadBefore.eq_of {piece : Piece} {behind : List Char} (h : piece.ReadBefore behind) :
    piece = .of piece.lexeme piece.text := by
  obtain ⟨c, rest, hp, -⟩ := h
  rw [hp]
  rfl

/-- What is put out for tokens is read as these tokens again. If the emitter stands where the
pieces of the tokens begin, it follows as closely as they do. -/
theorem readsAs_piecesOf (source : Source) {tokens : List Token} (emitter : Emitter) {off : Nat}
    {ps : List Piece} (hl : Legible ps) (ht : tokens = tokensAt off ps) :
    ReadsAs (emitter.piecesOf source tokens) (emitter.output (writes source tokens))
        (tokens.map Token.word) ∧
      (1 ≤ off → emitter.cursor = some (source.endBefore off) →
        Tight ps (emitter.piecesOf source tokens)) := by
  induction tokens generalizing emitter off ps with
  | nil =>
    have hr : ReadsAs (emitter.piecesOf source []) emitter.finish [] := by
      have hblanks := ReadsAs.nil.blanks emitter.blank_of_mem_finish
      rwa [List.append_nil, List.append_nil] at hblanks
    exact ⟨hr, fun _ _ => .severed (hr.text_eq ▸ emitter.severed_finish)⟩
  | cons token tokens ih =>
    obtain ⟨blank, piece, behind, rfl, hlex, htok, hrest⟩ := exists_of_tokensAt_eq_cons ht.symm
    have hpos := hl.right.width_pos
    have hstop : (source.resolve token.span).stop =
        source.endBefore (off + totalWidth blank + piece.width : Nat) := by
      rw [htok, source.resolve_of_lt (by simp only; omega)]
    have htext : token.text = piece.text := congrArg Token.text htok
    have hpiece : Piece.of (.token token.kind) token.text = piece := by
      rw [htext, ← hlex]
      exact hl.right.1.eq_of.symm
    obtain ⟨hq, htight⟩ := ih
      { emitter with cursor := some (source.resolve token.span).stop, dirty := true }
      hl.right.2 hrest
    rw [Emitter.piecesOf, hpiece]
    exact readsAs_write source emitter hl hlex htok hq (htight (by omega) (by rw [hstop]))

/-! ## Blanks outside tokens -/

/-- Outside the tokens of a text stand spaces and line feeds only. -/
def BlankOutside (tokens : List Token) (cs : List Char) : Prop :=
  ∀ (i : Nat) (c : Char), cs[i]? = some c →
    (∀ token ∈ tokens, ¬ (token.span.lo ≤ i ∧ i < token.span.hi)) → c = ' ' ∨ c = '\n'

/-- A piece that is a token, or one blank. -/
def BlankOrToken (piece : Piece) : Prop :=
  (∃ kind text, piece = .of (.token kind) text) ∨
    ∃ c, piece = .of .blank [c] ∧ (c = ' ' ∨ c = '\n')

theorem blankOrToken_of_mem_blankPieces {blanks : List Char}
    (h : ∀ c ∈ blanks, c = ' ' ∨ c = '\n') {piece : Piece} (hp : piece ∈ blankPieces blanks) :
    BlankOrToken piece := by
  obtain ⟨c, hc, rfl⟩ := List.mem_map.mp hp
  exact .inr ⟨c, rfl, h c hc⟩

theorem Emitter.blankOrToken_piecesOf (emitter : Emitter) (source : Source) (tokens : List Token) :
    ∀ piece ∈ emitter.piecesOf source tokens, BlankOrToken piece := by
  induction tokens generalizing emitter with
  | nil => exact fun piece => blankOrToken_of_mem_blankPieces emitter.blank_of_mem_finish
  | cons token tokens ih =>
    intro piece h
    rw [piecesOf] at h
    rcases List.mem_append.mp h with h | h
    · exact blankOrToken_of_mem_blankPieces (emitter.blank_of_mem_gap _) h
    · rcases List.mem_cons.mp h with rfl | h
      · exact .inl ⟨token.kind, token.text, rfl⟩
      · exact ih _ piece h

theorem blank_of_outside {ps : List Piece} (hps : ∀ piece ∈ ps, BlankOrToken piece) (offset : Nat)
    {i : Nat} {c : Char} (hc : (textOf ps)[i]? = some c) (hout : ∀ token ∈ tokensAt offset ps,
      ¬ (token.span.lo ≤ (offset + i : Nat) ∧ ((offset + i : Nat) : Int) < token.span.hi)) :
    c = ' ' ∨ c = '\n' := by
  induction ps generalizing offset i with
  | nil => simp at hc
  | cons piece ps ih =>
    have hbehind {k : Nat} (hk : i = piece.text.length + k)
        (htokens : tokensAt (offset + piece.text.length) ps ⊆ tokensAt offset (piece :: ps)) :
        c = ' ' ∨ c = '\n' := by
      subst hk
      rw [textOf_cons, List.getElem?_append_right (by omega), Nat.add_sub_cancel_left] at hc
      refine ih (fun q hq => hps q (List.mem_cons_of_mem piece hq)) (offset + piece.text.length) hc
        fun token ht => ?_
      rw [Nat.add_assoc]
      exact hout token (htokens ht)
    obtain ⟨kind, text, rfl⟩ | ⟨d, rfl, hd⟩ := hps piece List.mem_cons_self
    · rw [tokensAt_cons_token offset rfl] at hout hbehind
      rcases Nat.lt_or_ge i text.length with hlt | hge
      · refine absurd ?_ (hout _ List.mem_cons_self)
        simp only [Piece.of]
        omega
      · exact hbehind (Nat.add_sub_cancel' hge).symm (List.subset_cons_self _ _)
    · cases i with
      | zero =>
        rw [textOf_cons] at hc
        exact Option.some.inj hc ▸ hd
      | succ i =>
        rw [tokensAt_cons_other offset (by simp [Piece.of])] at hbehind
        exact hbehind (Nat.add_comm i 1) (List.Subset.refl _)

theorem blankOutside_textOf {ps : List Piece} (hps : ∀ piece ∈ ps, BlankOrToken piece) :
    BlankOutside (tokensAt 0 ps) (textOf ps) := by
  intro i c hc hout
  refine blank_of_outside hps 0 hc fun token ht => ?_
  rw [Nat.zero_add]
  exact hout token ht

/-! ## What is put out again -/

section Gaps

variable {keeps dirty again : Bool} {start stop reached : Position}

theorem gap_again_of_none (h0 : 0 ≤ start.column) :
    let gap := Emitter.gap ⟨keeps, none, dirty⟩ start
    (Position.origin.after gap).column = start.column ∧
      Emitter.gap ⟨keeps, none, again⟩ (Position.origin.after gap) = gap := by
  intro gap
  have hcolumn : (Position.origin.after gap).column = start.column := by
    show (Position.origin.after (List.replicate start.column.toNat ' ')).column = _
    rw [Position.after_of_no_newline _ _ (newline_not_mem_spaces _), List.length_replicate]
    simp only [Position.origin]
    omega
  refine ⟨hcolumn, ?_⟩
  simp only [gap, Emitter.gap] at hcolumn ⊢
  rw [hcolumn]

/-- Behind at least one line end the column is that of the spaces, and as many lines are passed. -/
theorem gap_again_of_below (h0 : 0 ≤ start.column) (hlt : stop.line < start.line) :
    let gap := Emitter.gap ⟨keeps, some stop, dirty⟩ start
    (reached.after gap).column = start.column ∧
      Emitter.gap ⟨keeps, some reached, again⟩ (reached.after gap) = gap := by
  intro gap
  let n : Nat := (if keeps then start.line - stop.line else 1).toNat
  have hn : n ≠ 0 ∧ (keeps = false → n = 1) := by
    cases keeps with
    | false => simp [n]
    | true => simp [n, hlt]
  have hgap : gap = List.replicate n '\n' ++ List.replicate start.column.toNat ' ' := by
    simp only [gap, Emitter.gap, if_pos hlt, Emitter.spaces, n]
  have hreached : reached.after gap = ⟨reached.line + n, start.column⟩ := by
    rw [hgap, Position.after_newlines_spaces, if_neg hn.1, Int.toNat_of_nonneg h0, Int.zero_add]
  have hpassed : (if keeps then reached.line + n - reached.line else (1 : Int)).toNat = n := by
    cases keeps with
    | false => simp [hn.2]
    | true =>
      rw [if_pos rfl]
      omega
  rw [hreached]
  refine ⟨rfl, ?_⟩
  simp only [Emitter.gap, if_pos (show reached.line < reached.line + n by omega), hpassed, hgap,
    Emitter.spaces]

theorem gap_again_of_beside (heq : reached.column = stop.column) (hline : stop.line = start.line)
    (hle : stop.column ≤ start.column) :
    let gap := Emitter.gap ⟨keeps, some stop, dirty⟩ start
    (reached.after gap).column = start.column ∧
      Emitter.gap ⟨keeps, some reached, again⟩ (reached.after gap) = gap := by
  intro gap
  have hgap : gap = List.replicate (start.column - stop.column).toNat ' ' := by
    simp only [gap, Emitter.gap, if_neg (show ¬ stop.line < start.line by omega), Emitter.spaces]
  have hreached : reached.after gap = ⟨reached.line, start.column⟩ := by
    rw [hgap, Position.after_of_no_newline _ _ (newline_not_mem_spaces _), List.length_replicate,
      heq, Int.toNat_of_nonneg (by omega), Int.add_comm, Int.sub_add_cancel]
  rw [hreached]
  refine ⟨rfl, ?_⟩
  simp only [Emitter.gap, if_neg (Int.lt_irrefl reached.line), hgap, Emitter.spaces, heq]

end Gaps

/-- An emitter, and one that is given back what the first has put out: its cursor stands where
that text ends, at the column of the first one's. -/
structure Emitter.Again (emitter again : Emitter) (written : List Char) : Prop where
  keeps : again.preserveBlankLines = emitter.preserveBlankLines
  dirty : again.dirty = emitter.dirty
  cursor : (emitter.cursor = none ∧ again.cursor = none ∧ written = []) ∨
    ∃ stop, emitter.cursor = some stop ∧ again.cursor = some (Position.origin.after written) ∧
      (Position.origin.after written).column = stop.column

/-- The cursor does not stand behind where the tokens start. -/
def Emitter.StandsBefore (emitter : Emitter) (source : Source) (tokens : List Token) : Prop :=
  ∀ stop ∈ emitter.cursor, ∀ token ∈ tokens,
    let start := (source.resolve token.span).start
    stop.line < start.line ∨ stop.line = start.line ∧ stop.column ≤ start.column

section Runs

variable {source target : Source} {emitter again : Emitter} {written : List Char}

/-- The gap before a token leads to its column, and from there on the same gap is put out again. -/
theorem Emitter.Again.gap_eq (h : emitter.Again again written) {token : Token}
    {tokens : List Token} (h0 : 0 ≤ (source.resolve token.span).start.column)
    (hb : emitter.StandsBefore source (token :: tokens)) :
    let gap := emitter.gap (source.resolve token.span).start
    let reached := Position.origin.after (written ++ gap)
    reached.column = (source.resolve token.span).start.column ∧ again.gap reached = gap := by
  obtain ⟨keeps, cursor, dirty⟩ := emitter
  obtain ⟨keeps', cursor', dirty'⟩ := again
  obtain rfl : keeps' = keeps := h.keeps
  intro gap reached
  obtain ⟨hnone, hnone', rfl⟩ | ⟨stop, hstop, hstop', heq⟩ := h.cursor
  · obtain rfl : cursor = none := hnone
    obtain rfl : cursor' = none := hnone'
    exact gap_again_of_none h0
  · obtain rfl : cursor = some stop := hstop
    obtain rfl : cursor' = some (Position.origin.after written) := hstop'
    rw [show reached = (Position.origin.after written).after gap from Position.after_append _ _ _]
    obtain hlt | ⟨hline, hle⟩ := hb stop rfl token List.mem_cons_self
    · exact gap_again_of_below h0 hlt
    · exact gap_again_of_beside heq hline hle

/-- Behind a token both cursors stand at its end. -/
theorem Emitter.Again.behind (h : emitter.Again again written) {token : Token}
    (ht : EndsAsRead source token) {before : List Char}
    (hcolumn : (Position.origin.after before).column =
      (source.resolve token.span).start.column) :
    Emitter.Again { emitter with cursor := some (source.resolve token.span).stop, dirty := true }
      { again with cursor := some ((Position.origin.after before).after token.text), dirty := true }
      (before ++ token.text) where
  keeps := h.keeps
  dirty := rfl
  cursor := by
    refine .inr ⟨_, rfl, ?_, ?_⟩
    · rw [Position.after_append]
    · rw [Position.after_append, ht.stop]
      exact Position.after_column_congr hcolumn token.text

/-- What is put out for tokens is put out again for the tokens read from it, and each stands at
its column. -/
theorem output_again {tokens : List Token}
    (hst : ∀ t ∈ tokens, EndsAsRead source t ∧ 0 ≤ (source.resolve t.span).start.column)
    (ho : tokens.Pairwise (EndsBefore source)) (hb : emitter.StandsBefore source tokens)
    (ha : emitter.Again again written)
    (hchars : target.chars = written ++ textOf (emitter.piecesOf source tokens)) :
    let rewritten := tokensAt written.length (emitter.piecesOf source tokens)
    again.output (writes target rewritten) = emitter.output (writes source tokens) ∧
      startColumns target rewritten = startColumns source tokens := by
  -- with each token what is written grows, and `Again` says where both cursors stand behind it
  induction tokens generalizing emitter again written with
  | nil =>
    have hnone := tokensAt_blankPieces written.length emitter.finish []
    rw [List.append_nil, tokensAt_nil] at hnone
    rw [Emitter.piecesOf, hnone]
    refine ⟨?_, rfl⟩
    show [] ++ again.finish = [] ++ emitter.finish
    rw [Emitter.finish, Emitter.finish, ha.dirty]
  | cons token tokens ih =>
    obtain ⟨hfirst, hrest⟩ := List.pairwise_cons.mp ho
    obtain ⟨hread, h0⟩ := hst token List.mem_cons_self
    obtain ⟨hcolumn, hgap⟩ := ha.gap_eq h0 hb
    let next : Emitter :=
      { emitter with cursor := some (source.resolve token.span).stop, dirty := true }
    let gap := emitter.gap (source.resolve token.span).start
    have hpieces : emitter.piecesOf source (token :: tokens) =
        blankPieces gap ++ .of (.token token.kind) token.text :: next.piecesOf source tokens := rfl
    have hsplit : target.chars =
        (written ++ gap) ++ (token.text ++ textOf (next.piecesOf source tokens)) := by
      rw [hchars, hpieces, textOf_append, textOf_blankPieces, List.append_assoc]
      rfl
    have hregion := target.resolve_of_split hsplit hread.edged.ne_nil
      fun hlast => (hread.edged.last '\n' hlast).2 rfl
    have hb' : next.StandsBefore source tokens := fun stop hs t hm =>
      Option.some.inj (show some (source.resolve token.span).stop = some stop from hs) ▸ hfirst t hm
    obtain ⟨hout, hcolumns⟩ := ih (fun t hm => hst t (List.mem_cons_of_mem token hm)) hrest hb'
      (ha.behind hread hcolumn) (by rw [hsplit, ← List.append_assoc])
    rw [List.length_append] at hout hcolumns
    rw [hpieces, tokensAt_blankPieces, ← List.length_append, tokensAt_cons_token _ rfl]
    refine ⟨?_, ?_⟩
    · rw [writes_cons, writes_cons, Emitter.output_write, Emitter.output_write]
      simp only [Piece.of, hregion]
      exact congrArg₂ (fun l r => l ++ (token.text ++ r)) hgap hout
    · rw [startColumns, List.map_cons]
      simp only [Piece.of, hregion]
      exact congrArg₂ List.cons hcolumn hcolumns

end Runs

/-! ## Converted once and again -/

/-- What comes out of a source without arrows, read again: the same tokens at the same columns, with
blanks between them, and it is put out as it is. -/
theorem Source.output_of_writes {source : Source} {tokens : List Token} {last : Token}
    (ht : source.tokens = .ok (tokens ++ [last])) (keeps : Bool) (name : String) :
    let out := (Emitter.fresh keeps).output (writes source tokens)
    ∃ written, (Source.ofText name out).tokens = .ok (written ++ [endToken out.length]) ∧
      written.map Token.word = tokens.map Token.word ∧
      startColumns (Source.ofText name out) written = startColumns source tokens ∧
      BlankOutside written out ∧
      (Emitter.fresh keeps).output (writes (Source.ofText name out) written) = out := by
  intro out
  obtain ⟨hs, rfl, rfl⟩ := source.of_tokens_eq_ok ht
  have hl := legible_pieces source.chars hs
  obtain ⟨hread, -⟩ := readsAs_piecesOf source (Emitter.fresh keeps) hl rfl
  have hagain : (Emitter.fresh keeps).Again (Emitter.fresh keeps) [] :=
    ⟨rfl, rfl, .inl ⟨rfl, rfl, rfl⟩⟩
  have hchars : (Source.ofText name out).chars = [] ++
      textOf ((Emitter.fresh keeps).piecesOf source (tokensAt 0 (pieces source.chars))) :=
    hread.text_eq.symm
  obtain ⟨hout, hcolumns⟩ := output_again (fun t hm => source.endsAsRead hs hm)
    (pairwise_endsBefore source (inOrder_tokensAt 0 hl).1) (fun stop h => by cases h) hagain hchars
  have htokens := Source.tokens_of_legible name hread.legible hread.sound
  rw [hread.text_eq] at htokens
  refine ⟨_, htokens, ?_, hcolumns, ?_, hout⟩
  · rw [map_word_tokensAt, hread.words_eq]
  · have hblank := blankOutside_textOf ((Emitter.fresh keeps).blankOrToken_piecesOf source
      (tokensAt 0 (pieces source.chars)))
    rwa [hread.text_eq] at hblank

/-- Without arrows a source is converted unless it holds a repetition, and then what is put out
are its tokens at their columns, with blanks between them. It is converted to itself. -/
theorem Source.convert_arrowless {source : Source} {tokens : List Token} {last : Token}
    (ht : source.tokens = .ok (tokens ++ [last])) (hb : WellMatched (brackets tokens))
    (hno : ∀ token ∈ tokens, token.kind ≠ .fatArrow) (rules : Rules) :
    (HoldsRepetition tokens →
      ∃ d, (source.convert rules).result = .error (.layout d) ∧ d.code = "E201") ∧
    (¬ HoldsRepetition tokens → ∃ out, (source.convert rules).result = .ok out ∧
      ∀ name, ∃ written,
        (Source.ofText name out).tokens = .ok (written ++ [endToken out.length]) ∧
        written.map Token.word = tokens.map Token.word ∧
        startColumns (Source.ofText name out) written = startColumns source tokens ∧
        BlankOutside written out ∧
        ((Source.ofText name out).convert rules).result = .ok out) := by
  obtain ⟨hfree, hok⟩ | ⟨hholds, herror⟩ := convert_cases_of_arrowless ht hb hno rules
  · refine ⟨fun h => absurd h hfree, fun _ => ⟨_, hok, fun name => ?_⟩⟩
    obtain ⟨written, htokens, hwords, hcolumns, hblank, hsame⟩ :=
      Source.output_of_writes ht rules.preserveBlankLines name
    refine ⟨written, htokens, hwords, hcolumns, hblank, ?_⟩
    have hno' : ∀ token ∈ written, token.kind ≠ .fatArrow := by
      intro token hm
      have hword := List.mem_map_of_mem (f := Token.word) hm
      rw [hwords] at hword
      obtain ⟨first, hfirst, heq⟩ := List.mem_map.mp hword
      have hkind : first.kind = token.kind := congrArg Prod.fst heq
      exact hkind ▸ hno first hfirst
    obtain ⟨-, hagain⟩ | ⟨hholds, -⟩ := convert_cases_of_arrowless htokens
      ((brackets_eq_of_words hwords).symm ▸ hb) hno' rules
    · rw [hagain, hsame]
    · exact absurd (hholds.of_words hwords.symm) hfree
  · exact ⟨fun _ => herror, fun h => absurd hholds h⟩

def calledText : Source := Source.ofText "called"
  "// a\n\n  f(b,   /* c */ \"u\nv\",\n\n\n [d\n])\n g".toList

def nestedRepetition : Source := Source.ofText "repeated" "a [$(b\n c),* d]".toList

theorem calledText_again :
    let rules : Rules := ⟨[], [], .always, false⟩
    let out := "  f(b,           \"u\nv\",\n [d\n])\n g\n".toList
    let again := Source.ofText "again" out
    let tokens := tokensAt 0 (pieces calledText.chars)
    let repeated := tokensAt 0 (pieces nestedRepetition.chars)
    ((calledText.convert rules).result = .ok out ∧ ¬ HoldsRepetition tokens ∧
      ∃ written, again.tokens = .ok (written ++ [endToken out.length]) ∧
        written.map Token.word = tokens.map Token.word ∧
        startColumns again written = startColumns calledText tokens ∧
        BlankOutside written out ∧ (again.convert rules).result = .ok out) ∧
      HoldsRepetition repeated ∧
      ∃ d, (nestedRepetition.convert rules).result = .error (.layout d) ∧ d.code = "E201" := by
  intro rules out again tokens repeated
  refine ⟨?_, ?_⟩
  · have ht : calledText.tokens = .ok (tokens ++ [endToken calledText.chars.length]) := rfl
    have hword : brackets tokens = ['(', '[', ']', ')'] := by decide +kernel
    have hout : (calledText.convert rules).result = .ok out := by decide +kernel
    obtain ⟨herror, hok⟩ := Source.convert_arrowless ht
      (hword ▸ .pair .paren (.pair .bracket .nil .nil) .nil) (by decide +kernel) rules
    have hfree : ¬ HoldsRepetition tokens := by
      intro h
      obtain ⟨d, hd, -⟩ := herror h
      cases hout.symm.trans hd
    obtain ⟨found, hfound, hagain⟩ := hok hfree
    obtain rfl : out = found := Except.ok.inj (hout.symm.trans hfound)
    exact ⟨hout, hfree, hagain "again"⟩
  · have ht : nestedRepetition.tokens = .ok (repeated ++ [endToken nestedRepetition.chars.length]) := rfl
    have hword : brackets repeated = ['[', '(', ')', ']'] := by decide +kernel
    have hfails : (nestedRepetition.convert rules).result.toOption = none := by decide +kernel
    obtain ⟨herror, hok⟩ := Source.convert_arrowless ht
      (hword ▸ .pair .bracket (.pair .paren .nil .nil) .nil) (by decide +kernel) rules
    have hholds : HoldsRepetition repeated := by
      by_contra h
      obtain ⟨found, hfound, -⟩ := hok h
      rw [hfound] at hfails
      cases hfails
    exact ⟨hholds, herror hholds⟩

end Offside
