import Offside.Proofs.Positions
import Offside.Proofs.Weaving

/-!
# The tokens of a converted text

Reading a converted text finds what the layout wrote: no token is lost, merged with another or
split, whatever stood between the tokens of the source and whatever is put between them.

- `ReadsAs`: the pieces of a text, none of them a fault, and the words they hold.
- `exists_readsAs_of_weaves`: the output of woven events is read as their words.
- `Source.convert_tokens`: the tokens of a converted text.
-/
namespace Offside

set_option autoImplicit false

open Layout Lexeme

/-! ## Pieces and words -/

def Piece.word? (piece : Piece) : Option (TokenKind × List Char) :=
  match piece.lexeme with
  | .token kind => some (kind, piece.text)
  | _ => none

theorem word?_of_token {piece : Piece} {kind : TokenKind} (h : piece.lexeme = .token kind) :
    piece.word? = some (kind, piece.text) := by
  simp [Piece.word?, h]

theorem map_word_tokensAt (offset : Nat) (ps : List Piece) :
    (tokensAt offset ps).map Token.word = ps.filterMap Piece.word? := by
  induction ps generalizing offset with
  | nil => rfl
  | cons piece ps ih =>
    obtain ⟨kind, hk, hcons⟩ | ⟨hk, hcons⟩ := tokensAt_cons_cases offset piece ps
    · rw [hcons, List.filterMap_cons_some (word?_of_token hk), List.map_cons, ih]
      rfl
    · have hn : piece.word? = none := by
        unfold Piece.word?
        split
        · rename_i kind h
          exact absurd h (hk kind)
        · rfl
      rw [hcons, List.filterMap_cons_none hn, ih]

def blankPieces (blanks : List Char) : List Piece := blanks.map fun c => Piece.of .blank [c]

@[simp] theorem textOf_blankPieces (blanks : List Char) : textOf (blankPieces blanks) = blanks := by
  induction blanks with
  | nil => rfl
  | cons c blanks ih => exact congrArg (c :: ·) ih

theorem tokensAt_blankPieces (offset : Nat) (blanks : List Char) (ps : List Piece) :
    tokensAt offset (blankPieces blanks ++ ps) = tokensAt (offset + blanks.length) ps := by
  induction blanks generalizing offset with
  | nil => rfl
  | cons c blanks ih =>
    have hstep : tokensAt offset (blankPieces (c :: blanks) ++ ps) =
        tokensAt (offset + 1) (blankPieces blanks ++ ps) :=
      tokensAt_cons_other offset (by simp [Piece.of]) _
    rw [hstep, ih, List.length_cons, Nat.add_assoc, Nat.add_comm 1]

/-- The pieces of a text, none of them a fault, and the words they hold. -/
structure ReadsAs (ps : List Piece) (text : List Char) (words : List (TokenKind × List Char)) :
    Prop where
  text_eq : textOf ps = text
  legible : Legible ps
  sound : ∀ piece ∈ ps, piece.IsSound
  words_eq : ps.filterMap Piece.word? = words

namespace ReadsAs

variable {ps : List Piece} {text : List Char} {words : List (TokenKind × List Char)}

theorem nil : ReadsAs [] [] [] := ⟨rfl, True.intro, by simp, rfl⟩

theorem token (h : ReadsAs ps text words) {piece : Piece} {kind : TokenKind}
    (hk : piece.lexeme = .token kind) (hr : piece.ReadBefore text) :
    ReadsAs (piece :: ps) (piece.text ++ text) ((kind, piece.text) :: words) where
  text_eq := by rw [textOf_cons, h.text_eq]
  legible := ⟨h.text_eq ▸ hr, h.legible⟩
  sound := by
    intro q hq
    rcases List.mem_cons.mp hq with rfl | hq
    · intro fault hf
      simp [hk] at hf
    · exact h.sound q hq
  words_eq := by rw [List.filterMap_cons_some (word?_of_token hk), h.words_eq]

theorem blank (h : ReadsAs ps text words) {c : Char} (hc : c = ' ' ∨ c = '\n') :
    ReadsAs (Piece.of .blank [c] :: ps) (c :: text) words where
  text_eq := by
    rw [textOf_cons, h.text_eq]
    rfl
  legible := by
    refine ⟨⟨c, [], rfl, ?_⟩, h.legible⟩
    rcases hc with rfl | rfl <;> rfl
  sound := by
    intro q hq
    rcases List.mem_cons.mp hq with rfl | hq
    · simp [Piece.IsSound, Piece.of]
    · exact h.sound q hq
  words_eq := h.words_eq

theorem blanks (h : ReadsAs ps text words) {gap : List Char}
    (hg : ∀ c ∈ gap, c = ' ' ∨ c = '\n') :
    ReadsAs (blankPieces gap ++ ps) (gap ++ text) words := by
  induction gap with
  | nil => exact h
  | cons c gap ih =>
    exact (ih fun d hd => hg d (List.mem_cons_of_mem c hd)).blank (hg c List.mem_cons_self)

end ReadsAs

/-! ## Punctuation -/

namespace Layout

def Event.marks : Event → List Piece
  | .write _ _ => []
  | .enter _ _ => [.of .blank [' '], .of (.token .openDelimiter) ['\x7b']]
  | .leave _ => [.of .blank [' '], .of (.token .closeDelimiter) ['\x7d']]
  | .separate kind => kind.separator.map fun c => .of (.token .operator) [c]

theorem readsAs_separate {ps : List Piece} {text : List Char}
    {words : List (TokenKind × List Char)} (h : ReadsAs ps text words) (kind : BlockKind) :
    ReadsAs ((Event.separate kind).marks ++ ps) ((Event.separate kind).punctuation ++ text)
      ((Event.separate kind).words ++ words) := by
  cases kind with
  | topLevel => exact h
  | plain => exact h.token rfl ⟨';', [], rfl, rfl⟩
  | listLike => exact h.token rfl ⟨',', [], rfl, rfl⟩

theorem readsAs_enter {ps : List Piece} {text : List Char} {words : List (TokenKind × List Char)}
    (h : ReadsAs ps text words) (level : Option Level) (line : Int) :
    ReadsAs ((Event.enter level line).marks ++ ps) ((Event.enter level line).punctuation ++ text)
      ((Event.enter level line).words ++ words) :=
  (h.token rfl ⟨'\x7b', [], rfl, rfl⟩).blank (.inl rfl)

theorem readsAs_leave {ps : List Piece} {text : List Char} {words : List (TokenKind × List Char)}
    (h : ReadsAs ps text words) (dedent : Option (Level × Int)) :
    ReadsAs ((Event.leave dedent).marks ++ ps) ((Event.leave dedent).punctuation ++ text)
      ((Event.leave dedent).words ++ words) :=
  (h.token rfl ⟨'\x7d', [], rfl, rfl⟩).blank (.inl rfl)

theorem severed_of_isPause {event : Event} (h : event.IsPause) (text : List Char) :
    Severed (event.punctuation ++ text) := by
  cases event with
  | write token region => exact h.elim
  | enter level line => exact h.elim
  | leave dedent => exact Severed.cons rfl _
  | separate kind =>
    cases kind with
    | topLevel => exact absurd rfl h
    | plain => exact Severed.cons rfl _
    | listLike => exact Severed.cons rfl _

end Layout

/-! ## What an emitter puts out -/

namespace Emitter

theorem step_of_token?_eq_none (emitter : Emitter) {event : Event}
    (h : event.token? = none) : emitter.step event = emitter.punct event.punctuation := by
  cases event with
  | write token region => simp [Event.token?] at h
  | enter level line => rfl
  | leave dedent => rfl
  | separate kind => rfl

/-- All that an emitter puts out for a list of events, with the end of the output. -/
def output (emitter : Emitter) (events : List Event) : List Char :=
  (emitter.run events).1 ++ (emitter.run events).2.finish

theorem output_write (emitter : Emitter) (token : Token) (region : Region) (events : List Event) :
    emitter.output (.write token region :: events) =
      emitter.gap region.start ++ (token.text ++
        Emitter.output { emitter with cursor := some region.stop, dirty := true } events) := by
  simp [output, run, step, write]

theorem output_enter (emitter : Emitter) (level : Option Level) (line : Int)
    (events : List Event) :
    emitter.output (.enter level line :: events) =
      (Event.enter level line).punctuation ++
        Emitter.output { emitter with dirty := true } events := by
  simp [output, run, step, punct]

theorem output_pause (emitter : Emitter) {event : Event} (h : event.IsPause)
    (events : List Event) :
    emitter.output (event :: events) =
      event.punctuation ++ Emitter.output { emitter with dirty := true } events := by
  cases event with
  | write token region => exact h.elim
  | _ => simp [output, run, step, punct]

theorem blank_of_mem_gap (emitter : Emitter) (start : Position) :
    ∀ c ∈ emitter.gap start, c = ' ' ∨ c = '\n' := by
  have hspaces (n : Int) : ∀ c ∈ spaces n, c = ' ' ∨ c = '\n' :=
    fun c hc => .inl (List.eq_of_mem_replicate hc)
  intro c hc
  unfold gap at hc
  split at hc
  · exact hspaces _ c hc
  · split at hc
    · rcases List.mem_append.mp hc with hc | hc
      · exact .inr (List.eq_of_mem_replicate hc)
      · exact hspaces _ c hc
    · exact hspaces _ c hc

/-- Where nothing is put between two tokens, nothing stood between them. -/
theorem eq_of_gap_eq_nil (emitter : Emitter) (source : Source) {off start : Nat} (h1 : 1 ≤ off)
    (hle : off ≤ start) (hc : emitter.cursor = some (source.endBefore off))
    (hg : emitter.gap (source.position start) = []) : start = off := by
  have hfirst : (0 : Int) ≤ (off : Int) - 1 := by omega
  have hlast : (off : Int) - 1 ≤ start := by omega
  have hmono := source.position_mono hfirst hlast
  simp only [gap, hc, Source.endBefore] at hg
  split at hg
  · rename_i hlt
    rw [List.append_eq_nil_iff, List.replicate_eq_nil_iff] at hg
    obtain ⟨hz, -⟩ := hg
    split at hz <;> omega
  · rename_i hlt
    rw [spaces, List.replicate_eq_nil_iff] at hg
    rcases hmono with hl | ⟨-, hcol⟩ <;> omega

end Emitter

/-! ## Reading the output -/

variable {source : Source}

theorem eq_nil_of_totalWidth {ps behind : List Piece} (h : Legible (ps ++ behind))
    (hw : totalWidth ps = 0) : ps = [] := by
  cases ps with
  | nil => rfl
  | cons piece ps =>
    have hpos := Legible.width_pos h
    rw [totalWidth] at hw
    omega

/-- A token is read again where it is written, behind blanks, if what is written behind it follows
as closely as its own pieces did. -/
theorem readsAs_write (source : Source) (emitter : Emitter) {off : Nat}
    {blank behind : List Piece} {piece : Piece} {token : Token}
    (hl : Legible (blank ++ piece :: behind)) (hk : piece.lexeme = .token token.kind)
    (htok : token = ⟨token.kind, piece.text, ⟨(off + totalWidth blank : Nat),
      (off + totalWidth blank + piece.width : Nat)⟩⟩)
    {events : List Event} {qs : List Piece} {words : List (TokenKind × List Char)}
    (hq : ReadsAs qs (Emitter.output
      { emitter with cursor := some (source.resolve token.span).stop, dirty := true } events) words)
    (ht : Tight behind qs) :
    ReadsAs (blankPieces (emitter.gap (source.resolve token.span).start) ++ piece :: qs)
        (emitter.output (.write token (source.resolve token.span) :: events))
        (token.word :: words) ∧
      (1 ≤ off → emitter.cursor = some (source.endBefore off) →
        Tight (blank ++ piece :: behind)
          (blankPieces (emitter.gap (source.resolve token.span).start) ++ piece :: qs)) := by
  have htext : token.text = piece.text := congrArg Token.text htok
  have hstart : (source.resolve token.span).start =
      source.position (off + totalWidth blank : Nat) := by
    rw [source.resolve_start, htok]
  have hread := hl.right.1.of_tight hk ht
  rw [hq.text_eq] at hread
  have hr := (hq.token hk hread).blanks (emitter.blank_of_mem_gap (source.resolve token.span).start)
  rw [← htext, ← emitter.output_write] at hr
  refine ⟨hr, fun h1 hc => ?_⟩
  cases hgap : emitter.gap (source.resolve token.span).start with
  | nil =>
    rw [hstart] at hgap
    have heq := emitter.eq_of_gap_eq_nil source h1 (Nat.le_add_right off _) hc hgap
    have hblank : blank = [] := eq_nil_of_totalWidth hl (by omega)
    rw [hblank]
    exact .same piece ht
  | cons c gap =>
    refine .severed ?_
    have hc := emitter.blank_of_mem_gap (source.resolve token.span).start c
      (hgap ▸ List.mem_cons_self)
    rcases hc with rfl | rfl <;> exact Severed.cons rfl _

/-- The output of events that weave the tokens of pieces is read as the words of the events. If
the emitter stands where the pieces begin, the output follows as closely as they do. -/
theorem exists_readsAs_of_weaves {policy : MarkerPolicy} {tokens : List Token}
    {events : List Event} (h : Weaves source policy tokens events) (emitter : Emitter)
    {off : Nat} {ps : List Piece} (hl : Legible ps) (ht : tokens = tokensAt off ps) :
    ∃ qs, ReadsAs qs (emitter.output events) (events.flatMap Event.words) ∧
      (1 ≤ off → emitter.cursor = some (source.endBefore off) → Tight ps qs) := by
  induction h generalizing emitter off ps with
  | nil =>
    cases hd : emitter.dirty with
    | false =>
      refine ⟨[], ?_, fun _ _ => .severed Severed.nil⟩
      simpa [Emitter.output, Emitter.run, Emitter.finish, hd] using ReadsAs.nil
    | true =>
      have hr : ReadsAs [Piece.of .blank ['\n']] ['\n'] [] := ReadsAs.nil.blank (.inr rfl)
      refine ⟨_, ?_, fun _ _ => .severed (hr.text_eq ▸ Severed.cons rfl _)⟩
      simpa [Emitter.output, Emitter.run, Emitter.finish, hd] using hr
  | @pause event tokens events hp _ ih =>
    obtain ⟨qs, hq, -⟩ := ih { emitter with dirty := true } hl ht
    have hr : ReadsAs (event.marks ++ qs) (emitter.output (event :: events))
        ((event :: events).flatMap Event.words) := by
      rw [emitter.output_pause hp]
      cases event with
      | write token region => exact hp.elim
      | enter level line => exact hp.elim
      | leave dedent => exact readsAs_leave hq dedent
      | separate kind => exact readsAs_separate hq kind
    refine ⟨_, hr, fun _ _ => .severed ?_⟩
    rw [hr.text_eq, emitter.output_pause hp]
    exact severed_of_isPause hp _
  | @write token tokens events hk _ ih =>
    obtain ⟨blank, piece, behind, rfl, hlex, htok, hrest⟩ := exists_of_tokensAt_eq_cons ht.symm
    have hpos := hl.right.width_pos
    have hstop : (source.resolve token.span).stop =
        source.endBefore (off + totalWidth blank + piece.width : Nat) := by
      rw [htok, source.resolve_of_lt (by simp only; omega)]
    obtain ⟨qs, hq, htight⟩ := ih
      { emitter with cursor := some (source.resolve token.span).stop, dirty := true }
      hl.right.2 hrest
    exact ⟨_, readsAs_write source emitter hl hlex htok hq (htight (by omega) (by rw [hstop]))⟩
  | @enter token tokens events level line hk _ ih =>
    obtain ⟨blank, piece, behind, rfl, hlex, htok, hrest⟩ := exists_of_tokensAt_eq_cons ht.symm
    let behindArrow : Emitter :=
      { emitter with cursor := some (source.resolve token.span).stop, dirty := true }
    obtain ⟨qs, hq, -⟩ := ih behindArrow hl.right.2 hrest
    have hr := readsAs_enter hq level line
    rw [← behindArrow.output_enter] at hr
    exact ⟨_, readsAs_write source emitter hl hlex htok hr (.severed (Severed.cons rfl _))⟩
  | @enterOnly token tokens events level line hk hp _ ih =>
    obtain ⟨blank, piece, behind, rfl, -, -, hrest⟩ := exists_of_tokensAt_eq_cons ht.symm
    obtain ⟨qs, hq, -⟩ := ih { emitter with dirty := true } hl.right.2 hrest
    have hr := readsAs_enter hq level line
    rw [← emitter.output_enter] at hr
    exact ⟨_, hr, fun _ _ => .severed (Severed.cons rfl _)⟩

/-! ## Converted texts -/

theorem Source.convert_eq_ok_iff (source : Source) (rules : Rules) (out : List Char) :
    (source.convert rules).result = .ok out ↔ ∃ trees, source.trees = .ok trees ∧
      (source.layout rules trees).fault = none ∧
      out = (Emitter.fresh rules.preserveBlankLines).output (source.layout rules trees).events := by
  unfold Source.convert Emitter.layOut
  cases ht : source.trees with
  | error diagnostics => simp
  | ok trees =>
    cases hf : (source.layout rules trees).fault with
    | none => simp [hf, Emitter.output, eq_comm]
    | some fault => simp [hf]

theorem Source.convert_of_error (source : Source) (rules : Rules) {ds : List Diagnostic}
    (h : source.trees = .error ds) :
    (source.convert rules).result = .error (.rejected ds) := by
  simp only [Source.convert, Emitter.layOut, h]

theorem Source.convert_of_fault (source : Source) (rules : Rules) {trees : List Tree}
    {fault : Layout.Fault} (h : source.trees = .ok trees)
    (hf : (source.layout rules trees).fault = some fault) :
    (source.convert rules).result = .error (.layout (fault.diagnostic source.name)) := by
  simp only [Source.convert, Emitter.layOut, h, hf, Option.map_some]

/-- A converted text has tokens. They are what the layout wrote: the tokens of the source in their
order, each as it was, with blocks opening behind the arrows and only ends of blocks and of entries
between them. -/
theorem Source.convert_tokens (source : Source) (rules : Rules) {out : List Char}
    (h : (source.convert rules).result = .ok out) (name : String) :
    ∃ tokens trees written,
      source.tokens = .ok (tokens ++ [endToken source.chars.length]) ∧
      source.trees = .ok trees ∧
      (Source.ofText name out).tokens = .ok (written ++ [endToken out.length]) ∧
      written.map Token.word = (source.layout rules trees).events.flatMap Event.words ∧
      Weaves source rules.marker tokens (source.layout rules trees).events := by
  obtain ⟨trees, ht, hf, rfl⟩ := (source.convert_eq_ok_iff rules out).mp h
  obtain ⟨hs, hsp⟩ := source.spells_trees ht
  have hw := weaves_of_layoutItems source rules hsp Scope.fresh hf
  obtain ⟨qs, hq, -⟩ := exists_readsAs_of_weaves hw (Emitter.fresh rules.preserveBlankLines)
    (legible_pieces source.chars hs) rfl
  refine ⟨_, trees, tokensAt 0 qs, ?_, ht, ?_, ?_, hw⟩
  · exact (source.tokens_eq_ok_iff _).mpr ⟨hs, rfl⟩
  · have htokens := Source.tokens_of_legible name hq.legible hq.sound
    rw [hq.text_eq] at htokens
    exact htokens
  · rw [map_word_tokensAt, hq.words_eq]
    rfl

def mixedText : Source := Source.ofText "mixed"
  "if a =>\n    b//c\n\n\nmatch d =>\n    'e => 'f'\n    1 => 2\ng\n".toList

theorem mixedText_tokens :
    let rules : Rules := ⟨["match".toList], [], .selector, false⟩
    let out :=
      "if a \x7b\n    b \x7d\nmatch d \x7b\n    'e => \x7b 'f' \x7d,\n    1 => \x7b 2 \x7d \x7d\ng\n".toList
    (mixedText.convert rules).result = .ok out ∧
      ∃ tokens trees written,
        mixedText.tokens = .ok (tokens ++ [endToken mixedText.chars.length]) ∧
        mixedText.trees = .ok trees ∧
        (Source.ofText "out" out).tokens = .ok (written ++ [endToken out.length]) ∧
        written.map Token.word = (mixedText.layout rules trees).events.flatMap Event.words ∧
        Weaves mixedText rules.marker tokens (mixedText.layout rules trees).events := by
  intro rules out
  have h : (mixedText.convert rules).result = .ok out := by decide +kernel
  exact ⟨h, mixedText.convert_tokens rules h "out"⟩

end Offside
