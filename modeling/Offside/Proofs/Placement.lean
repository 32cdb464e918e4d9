import Mathlib.Data.List.TakeWhile
import Offside.Proofs.Abreast
import Offside.Proofs.Rereading

/-!
# Where the words of a converted text stand

A converted text is made of tokens, of punctuation put in, and of a gap before each token. Every
token stands at its own column, shifted by the punctuation before it on its line.

- `Part`: a piece of a converted text.
- `IsGap`: the line ends and spaces before a token.
- `Reached`: where the output stands behind some parts.
- `Laid`: parts that may follow some others.
- `Placement`: the laws of the places of all tokens.
- `Source.convert_placement`: every converted text obeys them.
-/
namespace Offside

set_option autoImplicit false

open Layout

/-! ## Parts of an output -/

/-- What an output is made of. Before each token there is a gap: line ends, and then spaces. -/
inductive Part where
  | token (token : Token)
  | mark (text : List Char)
  | gap (lines spaces : Nat)
  deriving DecidableEq, Repr

namespace Part

def text : Part → List Char
  | token t => t.text
  | mark text => text
  | gap lines spaces => List.replicate lines '\n' ++ List.replicate spaces ' '

def token? : Part → Option Token
  | token t => some t
  | _ => none

def isGap : Part → Bool
  | gap _ _ => true
  | _ => false

/-- The characters of a part, each with whether it is punctuation put in. -/
def chars : Part → List (Char × Bool)
  | mark text => text.map fun c => (c, true)
  | part => part.text.map fun c => (c, false)

end Part

def Layout.Event.part : Event → Part
  | .write token _ => .token token
  | event => .mark event.punctuation

def textOfParts (parts : List Part) : List Char := parts.flatMap Part.text

def tokensIn (parts : List Part) : List Token := parts.filterMap Part.token?

/-- How many characters behind the last line end were put in as punctuation. -/
def punctuationOnLine (parts : List Part) : Nat :=
  ((parts.flatMap Part.chars).reverse.takeWhile fun c => c.1 ≠ '\n').countP Prod.snd

/-- The texts that are put in. -/
def IsMark (text : List Char) : Prop := text ∈ [blockOpening, blockClosing, [';'], [',']]

theorem IsMark.no_newline {text : List Char} (h : IsMark text) : '\n' ∉ text := by
  have hall : ∀ text ∈ [blockOpening, blockClosing, [';'], [',']], '\n' ∉ text := by decide
  exact hall text h

theorem IsMark.last {text : List Char} (h : IsMark text) : ∃ c ∈ text.getLast?, NotBlank c := by
  have hmark : text = blockOpening ∨ text = blockClosing ∨ text = [';'] ∨ text = [','] := by
    simpa [IsMark] using h
  rcases hmark with rfl | rfl | rfl | rfl
  · exact ⟨'\x7b', rfl, by decide, by decide⟩
  · exact ⟨'\x7d', rfl, by decide, by decide⟩
  · exact ⟨';', rfl, by decide, by decide⟩
  · exact ⟨',', rfl, by decide, by decide⟩

section Texts

variable (l r : List Part)

theorem textOfParts_append : textOfParts (l ++ r) = textOfParts l ++ textOfParts r :=
  List.flatMap_append

theorem textOfParts_concat (part : Part) :
    textOfParts (l ++ [part]) = textOfParts l ++ part.text := by
  rw [textOfParts_append]
  exact congrArg _ (List.append_nil _)

theorem tokensIn_append : tokensIn (l ++ r) = tokensIn l ++ tokensIn r :=
  List.filterMap_append

/-- Characters that end no line count where they are punctuation. -/
theorem punctuationOnLine_append_of_no_newline {part : Part} {isMark : Bool} {text : List Char}
    (hp : part.chars = text.map fun c => (c, isMark)) (h : '\n' ∉ text) :
    punctuationOnLine (l ++ [part]) =
      punctuationOnLine l + if isMark then text.length else 0 := by
  have hall : ∀ c ∈ (text.map fun c => (c, isMark)).reverse, decide (c.1 ≠ '\n') = true := by
    intro c hc
    obtain ⟨d, hd, rfl⟩ := List.mem_map.mp (List.mem_reverse.mp hc)
    exact decide_eq_true fun he => h (he ▸ hd)
  unfold punctuationOnLine
  rw [List.flatMap_append, List.flatMap_singleton, hp, List.reverse_append,
    List.takeWhile_append_of_pos hall, List.countP_append, List.countP_reverse, List.countP_map,
    Nat.add_comm]
  cases isMark with
  | true => simp [Function.comp_def]
  | false => simp [Function.comp_def]

theorem punctuationOnLine_append_mark {text : List Char} (h : '\n' ∉ text) :
    punctuationOnLine (l ++ [.mark text]) = punctuationOnLine l + text.length := by
  have hp : (Part.mark text).chars = text.map fun c => (c, true) := rfl
  exact punctuationOnLine_append_of_no_newline l hp h

theorem punctuationOnLine_append_plain {part : Part}
    (hp : part.chars = part.text.map fun c => (c, false)) :
    punctuationOnLine (l ++ [part]) = if '\n' ∈ part.text then 0 else punctuationOnLine l := by
  by_cases h : '\n' ∈ part.text
  · rw [if_pos h]
    have hstop : ¬ ∀ c ∈ (part.text.map fun c => (c, false)).reverse,
        decide (c.1 ≠ '\n') = true := by
      intro hall
      have hc := hall ('\n', false) (List.mem_reverse.mpr (List.mem_map.mpr ⟨'\n', h, rfl⟩))
      exact of_decide_eq_true hc rfl
    unfold punctuationOnLine
    rw [List.flatMap_append, List.flatMap_singleton, hp, List.reverse_append, List.takeWhile_append,
      if_neg fun hlen => hstop (List.takeWhile_eq_self_iff.mp
        ((List.takeWhile_prefix _).eq_of_length hlen)), List.countP_eq_zero]
    intro c hc
    obtain ⟨d, -, rfl⟩ := List.mem_map.mp (List.mem_reverse.mp ((List.takeWhile_sublist _).subset hc))
    simp
  · rw [if_neg h, punctuationOnLine_append_of_no_newline l hp h]
    rfl

end Texts

/-! ## Where the output stands -/

section Places

variable (source : Source) (keeps : Bool)

/-- The gap before a token, where the given one was written last: line ends if the token starts on
a later line, one or all that were passed, and its column; else the distance between the two. -/
def IsGap (before : Option Token) (token : Token) (lines spaces : Nat) : Prop :=
  let start := (source.resolve token.span).start
  match before with
  | none => lines = 0 ∧ (spaces : Int) = start.column
  | some last =>
    let stop := (source.resolve last.span).stop
    (stop.line < start.line ∧ (lines : Int) = (if keeps then start.line - stop.line else 1) ∧
        (spaces : Int) = start.column) ∨
      (stop.line = start.line ∧ lines = 0 ∧ (spaces : Int) = start.column - stop.column)

/-- A token ends where its text does. -/
structure EndsAsRead (token : Token) : Prop where
  edged : Edged token.text
  stop : (source.resolve token.span).stop = (source.resolve token.span).start.after token.text

/-- The line of the output on which a token starts behind those written before it: as far below
the first token as in the source if blank lines are kept; else each line feed in a token before it
counts, and each token that starts below the one before it. -/
def lineOfToken (written : List Token) (token : Token) : Int :=
  if keeps then
    (source.resolve token.span).start.line -
      (source.resolve (written.head?.getD token).span).start.line
  else
    ((written.flatMap Token.text).count '\n' +
      (lineBreaks source (written ++ [token])).count true : Nat)

/-- The line of the output behind the tokens written. -/
def lineBehind (written : List Token) : Int :=
  match written.getLast? with
  | none => 0
  | some last => lineOfToken source keeps written.dropLast last + (last.text.count '\n' : Nat)

def stopColumn (last : Option Token) : Int :=
  (last.map fun t => (source.resolve t.span).stop.column).getD 0

/-- Where the output stands behind some parts, none of them a gap that waits for its token. -/
structure Reached (parts : List Part) : Prop where
  column : (Position.origin.after (textOfParts parts)).column =
    stopColumn source (tokensIn parts).getLast? + punctuationOnLine parts
  line : (Position.origin.after (textOfParts parts)).line =
    lineBehind source keeps (tokensIn parts)
  last : ∀ last ∈ (tokensIn parts).getLast?, EndsAsRead source last
  edge : parts ≠ [] → ∃ c ∈ (textOfParts parts).getLast?, NotBlank c
  marks : ∃ (front : List Part) (texts : List (List Char)), parts = front ++ texts.map Part.mark ∧
    front.getLast? = (tokensIn parts).getLast?.map Part.token

end Places

section Steps

variable {source : Source} {keeps : Bool} {parts : List Part} {token : Token} {n k : Nat}

theorem reached_nil : Reached source keeps [] :=
  ⟨rfl, rfl, by simp [tokensIn], fun h => absurd rfl h, [], [], rfl, rfl⟩

theorem Reached.mark (h : Reached source keeps parts) {text : List Char} (hm : IsMark text) :
    Reached source keeps (parts ++ [.mark text]) := by
  have htokens : tokensIn (parts ++ [.mark text]) = tokensIn parts := by
    rw [tokensIn_append]
    exact List.append_nil _
  have htext : textOfParts (parts ++ [.mark text]) = textOfParts parts ++ text :=
    textOfParts_concat parts (.mark text)
  have hafter := (Position.origin.after (textOfParts parts)).after_of_no_newline text hm.no_newline
  refine ⟨?_, ?_, by rw [htokens]; exact h.last, fun _ => ?_, ?_⟩
  · rw [htext, htokens, Position.after_append, hafter,
      punctuationOnLine_append_mark parts hm.no_newline, h.column]
    push_cast
    omega
  · rw [htext, htokens, Position.after_append, hafter]
    exact h.line
  · obtain ⟨c, hc, hn⟩ := hm.last
    refine ⟨c, ?_, hn⟩
    rw [htext, List.getLast?_append, Option.mem_def.mp hc]
    rfl
  · obtain ⟨front, texts, hparts, hlast⟩ := h.marks
    refine ⟨front, texts ++ [text], ?_, by rw [htokens]; exact hlast⟩
    rw [hparts]
    simp

/-- Behind the gap before it a token stands at its own column, shifted by the punctuation. -/
theorem column_behind_gap (h : Reached source keeps parts)
    (hg : IsGap source keeps (tokensIn parts).getLast? token n k) :
    (Position.origin.after (textOfParts (parts ++ [.gap n k]))).column =
      (source.resolve token.span).start.column + punctuationOnLine (parts ++ [.gap n k]) := by
  have hcolumn := h.column
  have hmem : '\n' ∈ (Part.gap n k).text ↔ n ≠ 0 := by simp [Part.text]
  rw [textOfParts_concat, Position.after_append, Part.text, Position.after_newlines_spaces,
    punctuationOnLine_append_plain parts rfl]
  simp only [hmem]
  generalize (tokensIn parts).getLast? = before at hg hcolumn
  cases before with
  | none =>
    obtain ⟨rfl, hk⟩ := hg
    simp only [stopColumn, Option.map_none, Option.getD_none] at hcolumn
    simp only [ne_eq, not_true_eq_false, if_false, if_true]
    omega
  | some last =>
    simp only [stopColumn, Option.map_some, Option.getD_some] at hcolumn
    obtain ⟨hlt, hn, hk⟩ | ⟨-, rfl, hk⟩ := hg
    · have hn0 : n ≠ 0 := by
        rintro rfl
        split at hn <;> omega
      simp only [hn0, ne_eq, not_false_eq_true, if_true, if_false]
      omega
    · simp only [ne_eq, not_true_eq_false, if_false, if_true]
      omega

theorem lineBreaks_concat (written : List Token) (a b : Token) :
    lineBreaks source (written ++ [a] ++ [b]) = lineBreaks source (written ++ [a]) ++
      [decide ((source.resolve a.span).stop.line < (source.resolve b.span).start.line)] := by
  induction written with
  | nil => rfl
  | cons first written ih =>
    cases written with
    | nil => rfl
    | cons second written =>
      simp only [List.cons_append, lineBreaks] at ih ⊢
      rw [ih]

/-- Behind the gap before it a token stands on its line. -/
theorem line_behind_gap (h : Reached source keeps parts)
    (hg : IsGap source keeps (tokensIn parts).getLast? token n k) :
    (Position.origin.after (textOfParts (parts ++ [.gap n k]))).line =
      lineOfToken source keeps (tokensIn parts) token := by
  have hlast := h.last
  rw [textOfParts_concat, Position.after_append, Part.text, Position.after_newlines_spaces]
  simp only [h.line]
  generalize tokensIn parts = written at hg hlast
  obtain rfl | ⟨written, last, rfl⟩ := List.eq_nil_or_concat written
  · obtain ⟨rfl, -⟩ := hg
    cases keeps with
    | true => simp [lineBehind, lineOfToken]
    | false => rfl
  · rw [List.concat_eq_append, List.getLast?_concat] at *
    have hstop := congrArg Position.line (hlast last rfl).stop
    rw [Position.after_line] at hstop
    rw [lineBehind, List.getLast?_concat, List.dropLast_concat]
    have hbreak : (lineBreaks source (written ++ [last] ++ [token])).count true =
        (lineBreaks source (written ++ [last])).count true + (if
          (source.resolve last.span).stop.line < (source.resolve token.span).start.line
          then 1 else 0) := by
      rw [lineBreaks_concat, List.count_append]
      by_cases hlt : (source.resolve last.span).stop.line < (source.resolve token.span).start.line
      · simp only [hlt, decide_true, List.count_singleton_self, if_true]
      · simp only [hlt, decide_false, if_false]
        rfl
    cases keeps with
    | true =>
      have hfirst : (written ++ [last]).head?.getD token = written.head?.getD last := by
        cases written <;> rfl
      simp only [lineOfToken, if_true, hfirst]
      obtain ⟨-, hn, -⟩ | ⟨heq, rfl, -⟩ := hg
      · simp only [if_true] at hn
        omega
      · omega
    | false =>
      simp only [lineOfToken, Bool.false_eq_true, if_false, hbreak, List.flatMap_append,
        List.flatMap_singleton, List.count_append]
      obtain ⟨hlt, hn, -⟩ | ⟨heq, rfl, -⟩ := hg
      · simp only [Bool.false_eq_true, if_false] at hn
        rw [if_pos hlt]
        omega
      · rw [if_neg (by omega)]
        omega

/-- Behind a token the output stands where the token ends, shifted by the punctuation. -/
theorem Reached.write (h : Reached source keeps parts) (ht : EndsAsRead source token)
    (hg : IsGap source keeps (tokensIn parts).getLast? token n k) :
    Reached source keeps (parts ++ [.gap n k] ++ [.token token]) := by
  have htokens : tokensIn (parts ++ [.gap n k] ++ [.token token]) = tokensIn parts ++ [token] := by
    rw [tokensIn_append, tokensIn_append]
    exact congrArg (· ++ [token]) (List.append_nil _)
  have htext : textOfParts (parts ++ [.gap n k] ++ [.token token]) =
      textOfParts (parts ++ [.gap n k]) ++ token.text := textOfParts_concat _ (.token token)
  have hcolumn := column_behind_gap h hg
  have hline := line_behind_gap h hg
  refine ⟨?_, ?_, ?_, fun _ => ?_, _, [], (List.append_nil _).symm, ?_⟩
  · rw [htext, htokens, Position.after_append, List.getLast?_concat,
      punctuationOnLine_append_plain _ rfl, stopColumn, Option.map_some, Option.getD_some, ht.stop]
    by_cases hnew : '\n' ∈ token.text
    · rw [if_pos (show '\n' ∈ (Part.token token).text from hnew), Int.natCast_zero, Int.add_zero]
      exact Position.after_column_of_newline _ _ hnew
    · rw [if_neg (show '\n' ∉ (Part.token token).text from hnew),
        Position.after_of_no_newline _ _ hnew, Position.after_of_no_newline _ _ hnew]
      simp only [hcolumn]
      omega
  · rw [htext, htokens, Position.after_append, Position.after_line, hline, lineBehind,
      List.getLast?_concat, List.dropLast_concat]
  · rw [htokens, List.getLast?_concat]
    intro last hl
    exact Option.some.inj hl ▸ ht
  · obtain ⟨c, hc⟩ : ∃ c, token.text.getLast? = some c :=
      ⟨_, List.getLast?_eq_some_getLast ht.edged.ne_nil⟩
    refine ⟨c, ?_, ht.edged.last c hc⟩
    rw [htext, List.getLast?_append, hc]
    rfl
  · rw [htokens, List.getLast?_concat, List.getLast?_concat]
    rfl

end Steps

/-! ## Parts that follow others -/

/-- Parts that may follow the given ones: punctuation, and tokens with the gaps before them. -/
inductive Laid (source : Source) (keeps : Bool) : List Part → List Part → Prop
  | nil (before : List Part) : Laid source keeps before []
  | mark {before parts : List Part} {text : List Char} (hm : IsMark text)
      (h : Laid source keeps (before ++ [.mark text]) parts) :
      Laid source keeps before (.mark text :: parts)
  | write {before parts : List Part} {token : Token} {n k : Nat} (ht : EndsAsRead source token)
      (hg : IsGap source keeps (tokensIn before).getLast? token n k)
      (h : Laid source keeps (before ++ [.gap n k] ++ [.token token]) parts) :
      Laid source keeps before (.gap n k :: .token token :: parts)

section Laws

variable {source : Source} {keeps : Bool} {before parts l r : List Part} {token : Token}
  {n k : Nat}

/-- Before each token there is its gap, and the output has been reached before that. -/
theorem Laid.exists_gap (h : Laid source keeps before (l ++ .token token :: r))
    (hb : Reached source keeps before) :
    ∃ front n k, l = front ++ [.gap n k] ∧ Reached source keeps (before ++ front) ∧
      EndsAsRead source token ∧ IsGap source keeps (tokensIn (before ++ front)).getLast? token n k := by
  generalize hparts : l ++ .token token :: r = parts at h
  induction h generalizing l with
  | nil => simp at hparts
  | mark hm h ih =>
    cases l with
    | nil => simp at hparts
    | cons first l =>
      simp only [List.cons_append, List.cons.injEq] at hparts
      obtain ⟨rfl, hrest⟩ := hparts
      obtain ⟨front, n, k, rfl, hfront⟩ := ih (hb.mark hm) hrest
      refine ⟨_ :: front, n, k, rfl, ?_⟩
      simpa using hfront
  | @write before parts token' n k ht hg h ih =>
    cases l with
    | nil => simp at hparts
    | cons first l =>
      simp only [List.cons_append, List.cons.injEq] at hparts
      obtain ⟨rfl, hrest⟩ := hparts
      cases l with
      | nil =>
        simp only [List.nil_append, List.cons.injEq, Part.token.injEq] at hrest
        obtain ⟨rfl, rfl⟩ := hrest
        exact ⟨[], n, k, rfl, by simpa using hb, ht, by simpa using hg⟩
      | cons second l =>
        simp only [List.cons_append, List.cons.injEq] at hrest
        obtain ⟨rfl, hrest⟩ := hrest
        obtain ⟨front, n', k', rfl, hfront⟩ := ih (hb.write ht hg) hrest
        refine ⟨_ :: _ :: front, n', k', rfl, ?_⟩
        simpa using hfront

/-- Behind a gap there is its token. -/
theorem Laid.exists_token (h : Laid source keeps before (l ++ .gap n k :: r)) :
    ∃ t r', r = .token t :: r' := by
  generalize hparts : l ++ .gap n k :: r = parts at h
  induction h generalizing l with
  | nil => simp at hparts
  | mark hm h ih =>
    cases l with
    | nil => simp at hparts
    | cons first l =>
      simp only [List.cons_append, List.cons.injEq] at hparts
      exact ih hparts.2
  | @write before parts token' n' k' ht hg h ih =>
    cases l with
    | nil =>
      simp only [List.nil_append, List.cons.injEq] at hparts
      exact ⟨token', parts, hparts.2⟩
    | cons first l =>
      simp only [List.cons_append, List.cons.injEq] at hparts
      cases l with
      | nil => simp at hparts
      | cons second l =>
        simp only [List.cons_append, List.cons.injEq] at hparts
        exact ih hparts.2.2

theorem Laid.reached (h : Laid source keeps before parts) (hb : Reached source keeps before) :
    Reached source keeps (before ++ parts) := by
  induction h with
  | nil => simpa using hb
  | mark hm _ ih => simpa using ih (hb.mark hm)
  | write ht hg _ ih => simpa using ih (hb.write ht hg)

theorem Laid.isMark (h : Laid source keeps before parts) {text : List Char}
    (hm : .mark text ∈ parts) : IsMark text := by
  induction h with
  | nil => simp at hm
  | mark hmark _ ih =>
    rcases List.mem_cons.mp hm with he | hm
    · exact Part.mark.inj he ▸ hmark
    · exact ih hm
  | write _ _ _ ih =>
    refine ih ?_
    simpa using hm

end Laws

/-- The places of the tokens of an output. -/
structure Placement (source : Source) (keeps : Bool) (parts : List Part) : Prop where
  column : ∀ l t r, parts = l ++ .token t :: r →
    (Position.origin.after (textOfParts l)).column =
      (source.resolve t.span).start.column + punctuationOnLine l
  line : ∀ l t r, parts = l ++ .token t :: r →
    (Position.origin.after (textOfParts l)).line = lineOfToken source keeps (tokensIn l) t
  /-- Behind the token written last there is punctuation, and then one gap. -/
  between : ∀ l t r, parts = l ++ .token t :: r →
    ∃ (front : List Part) (texts : List (List Char)) (n k : Nat),
      l = front ++ texts.map Part.mark ++ [.gap n k] ∧
      front.getLast? = (tokensIn l).getLast?.map Part.token ∧
      IsGap source keeps (tokensIn l).getLast? t n k
  /-- No line is padded or ends in a space outside tokens, and no line is empty unless blank lines
  are kept. -/
  tidy : ∀ l n k r, parts = l ++ .gap n k :: r →
    (∃ t r', r = .token t :: r' ∧ ∀ c ∈ t.text.head?, NotBlank c) ∧
      (0 < n → ∃ c ∈ (textOfParts l).getLast?, NotBlank c) ∧ (keeps = false → n ≤ 1)
  marks : ∀ text, .mark text ∈ parts → IsMark text
  edge : parts ≠ [] → ∃ c ∈ (textOfParts parts).getLast?, NotBlank c

theorem placement_of_laid {source : Source} {keeps : Bool} {parts : List Part}
    (h : Laid source keeps [] parts) : Placement source keeps parts := by
  have hgap {l r : List Part} {t : Token} (hp : parts = l ++ .token t :: r) :
      ∃ front n k, l = front ++ [.gap n k] ∧ Reached source keeps front ∧ EndsAsRead source t ∧
        IsGap source keeps (tokensIn front).getLast? t n k :=
    (hp ▸ h).exists_gap reached_nil
  have htokens (front : List Part) (n k : Nat) :
      tokensIn (front ++ [.gap n k]) = tokensIn front := by
    rw [tokensIn_append]
    exact List.append_nil _
  refine ⟨fun l t r hp => ?_, fun l t r hp => ?_, fun l t r hp => ?_, fun l n k r hp => ?_,
    fun text => h.isMark, (h.reached reached_nil).edge⟩
  · obtain ⟨front, n, k, rfl, hr, -, hg⟩ := hgap hp
    exact column_behind_gap hr hg
  · obtain ⟨front, n, k, rfl, hr, -, hg⟩ := hgap hp
    rw [htokens]
    exact line_behind_gap hr hg
  · obtain ⟨front, n, k, rfl, hr, -, hg⟩ := hgap hp
    obtain ⟨head, texts, hfront, hlast⟩ := hr.marks
    rw [htokens]
    exact ⟨head, texts, n, k, by rw [hfront], hlast, hg⟩
  · obtain ⟨t, r', rfl⟩ := (hp ▸ h).exists_token
    obtain ⟨front, n', k', hl, hr, ht, hg⟩ := hgap (l := l ++ [.gap n k]) (by simpa using hp)
    obtain ⟨rfl, heq⟩ := List.append_inj' hl rfl
    simp only [List.cons.injEq, Part.gap.injEq, and_true] at heq
    obtain ⟨rfl, rfl⟩ := heq
    refine ⟨⟨t, r', rfl, ht.edged.first⟩, fun hn => ?_, fun hk => ?_⟩
    · refine hr.edge ?_
      rintro rfl
      exact absurd hg.1 (by omega)
    · generalize (tokensIn l).getLast? = last at hg
      cases last with
      | none =>
        obtain ⟨rfl, -⟩ := hg
        omega
      | some last =>
        obtain ⟨-, hn, -⟩ | ⟨-, rfl, -⟩ := hg
        · rw [hk] at hn
          simp only [Bool.false_eq_true, if_false] at hn
          omega
        · omega

/-! ## What an emitter puts out -/

/-- A token ends before another starts. -/
def EndsBefore (source : Source) (a b : Token) : Prop :=
  let stop := (source.resolve a.span).stop
  let start := (source.resolve b.span).start
  stop.line < start.line ∨ stop.line = start.line ∧ stop.column ≤ start.column

theorem pairwise_endsBefore (source : Source) {tokens : List Token} (h : InOrder tokens) :
    tokens.Pairwise (EndsBefore source) := by
  refine h.1.imp_of_mem fun {a b} ha hb hab => ?_
  obtain ⟨h0, hlt⟩ := h.2 a ha
  unfold EndsBefore
  rw [source.resolve_of_lt hlt, source.resolve_start]
  obtain hline | ⟨hline, hcolumn⟩ :=
    source.position_mono (show 0 ≤ a.span.hi - 1 by omega) (show a.span.hi - 1 ≤ b.span.lo by omega)
  · exact .inl hline
  · refine .inr ⟨hline, ?_⟩
    simp only [Source.endBefore]
    omega

section Emitters

variable {source : Source} {emitter : Emitter} {before : List Part} {token : Token}

/-- What an emitter puts before a token is a gap. -/
theorem exists_gap_eq
    (hc : emitter.cursor = (tokensIn before).getLast?.map fun t => (source.resolve t.span).stop)
    (hn : 0 ≤ (source.resolve token.span).start.column)
    (ho : ∀ last ∈ (tokensIn before).getLast?, EndsBefore source last token) :
    ∃ n k, IsGap source emitter.preserveBlankLines (tokensIn before).getLast? token n k ∧
      emitter.gap (source.resolve token.span).start = (Part.gap n k).text := by
  unfold Emitter.gap
  rw [hc]
  generalize (tokensIn before).getLast? = before at ho
  cases before with
  | none =>
    exact ⟨0, (source.resolve token.span).start.column.toNat, ⟨rfl, Int.toNat_of_nonneg hn⟩, rfl⟩
  | some last =>
    obtain hlt | ⟨heq, hle⟩ := ho last rfl
    · refine ⟨(if emitter.preserveBlankLines then (source.resolve token.span).start.line -
          (source.resolve last.span).stop.line else 1).toNat,
        (source.resolve token.span).start.column.toNat,
        .inl ⟨hlt, Int.toNat_of_nonneg ?_, Int.toNat_of_nonneg hn⟩, ?_⟩
      · split <;> omega
      · simp only [Option.map_some, if_pos hlt]
        rfl
    · refine ⟨0, ((source.resolve token.span).start.column -
        (source.resolve last.span).stop.column).toNat,
        .inr ⟨heq, rfl, Int.toNat_of_nonneg (by omega)⟩, ?_⟩
      simp only [Option.map_some, if_neg (show ¬ (source.resolve last.span).stop.line <
        (source.resolve token.span).start.line by omega)]
      rfl

theorem isMark_of_isPause {event : Event} (h : event.IsPause) : IsMark event.punctuation := by
  cases event with
  | write token region => exact h.elim
  | enter level line => exact h.elim
  | leave dedent => simp [IsMark, Event.punctuation]
  | separate kind =>
    cases kind with
    | topLevel => exact absurd rfl h
    | plain => simp [IsMark, Event.punctuation, BlockKind.separator]
    | listLike => simp [IsMark, Event.punctuation, BlockKind.separator]

theorem isMark_enter (level : Option Level) (line : Int) :
    IsMark (Event.enter level line).punctuation := by
  simp [IsMark, Event.punctuation]

/-- The parts that an emitter puts out for some events. -/
structure PutsOut (source : Source) (emitter : Emitter) (before : List Part) (events : List Event)
    (parts : List Part) : Prop where
  laid : Laid source emitter.preserveBlankLines before parts
  text : (emitter.run events).1 = textOfParts parts
  shown : parts.filter (!·.isGap) = events.map Event.part
  dirty : (emitter.run events).2.dirty = (emitter.dirty || !parts.isEmpty)

theorem part_of_token?_eq_none {event : Event} (h : event.token? = none) :
    event.part = .mark event.punctuation := by
  cases event with
  | write token region => simp [Event.token?] at h
  | enter level line => rfl
  | leave dedent => rfl
  | separate kind => rfl

theorem PutsOut.mark {events : List Event} {parts : List Part} {event : Event}
    (hm : IsMark event.punctuation) (ht : event.token? = none)
    (h : PutsOut source { emitter with dirty := true } (before ++ [.mark event.punctuation]) events
      parts) :
    PutsOut source emitter before (event :: events) (.mark event.punctuation :: parts) := by
  have hstep : emitter.step event = (event.punctuation, { emitter with dirty := true }) :=
    emitter.step_of_token?_eq_none ht
  refine ⟨.mark hm h.laid, ?_, ?_, ?_⟩
  · rw [Emitter.run, hstep]
    exact congrArg (event.punctuation ++ ·) h.text
  · rw [List.map_cons, part_of_token?_eq_none ht, ← h.shown]
    rfl
  · rw [Emitter.run, hstep]
    simpa using h.dirty

theorem PutsOut.write {events : List Event} {parts : List Part} {n k : Nat}
    (ht : EndsAsRead source token)
    (hg : IsGap source emitter.preserveBlankLines (tokensIn before).getLast? token n k)
    (htext : emitter.gap (source.resolve token.span).start = (Part.gap n k).text)
    (h : PutsOut source (emitter.write token.text (source.resolve token.span)).2
      (before ++ [.gap n k] ++ [.token token]) events parts) :
    PutsOut source emitter before (.write token (source.resolve token.span) :: events)
      (.gap n k :: .token token :: parts) := by
  refine ⟨.write ht hg h.laid, ?_, ?_, ?_⟩
  · have hsplit : textOfParts (.gap n k :: .token token :: parts) =
        (Part.gap n k).text ++ (token.text ++ textOfParts parts) := rfl
    rw [hsplit, ← htext, ← h.text, ← List.append_assoc]
    rfl
  · rw [List.map_cons, ← h.shown]
    rfl
  · simpa [Emitter.run, Emitter.step, Emitter.write] using h.dirty

/-- The events of a layout are put out as parts that may follow those before them. -/
theorem exists_putsOut_of_weaves {policy : MarkerPolicy} {tokens : List Token}
    {events : List Event} (h : Weaves source policy tokens events) (emitter : Emitter)
    (before : List Part)
    (hst : ∀ t ∈ tokens, EndsAsRead source t ∧ 0 ≤ (source.resolve t.span).start.column)
    (ho : tokens.Pairwise (EndsBefore source))
    (hb : ∀ last ∈ (tokensIn before).getLast?, ∀ t ∈ tokens, EndsBefore source last t)
    (hc : emitter.cursor = (tokensIn before).getLast?.map fun t => (source.resolve t.span).stop) :
    ∃ parts, PutsOut source emitter before events parts := by
  have hmarks (before : List Part) (text : List Char) :
      tokensIn (before ++ [.mark text]) = tokensIn before := by
    rw [tokensIn_append]
    exact List.append_nil _
  have hwritten (before : List Part) (n k : Nat) (t : Token) :
      (tokensIn (before ++ [.gap n k] ++ [.token t])).getLast? = some t := by
    rw [tokensIn_append]
    exact List.getLast?_concat
  induction h generalizing emitter before with
  | nil => exact ⟨[], .nil before, rfl, rfl, by simp [Emitter.run]⟩
  | @pause event tokens events hp _ ih =>
    have hnone : event.token? = none := by
      cases event with
      | write token region => exact hp.elim
      | enter level line => rfl
      | leave dedent => rfl
      | separate kind => rfl
    obtain ⟨parts, hparts⟩ := ih { emitter with dirty := true }
      (before ++ [.mark event.punctuation]) hst ho (by rw [hmarks]; exact hb)
      (by rw [hmarks]; exact hc)
    exact ⟨_, .mark (isMark_of_isPause hp) hnone hparts⟩
  | @write token tokens events hk _ ih =>
    obtain ⟨hfirst, hrest⟩ := List.pairwise_cons.mp ho
    obtain ⟨ht, hn⟩ := hst token List.mem_cons_self
    obtain ⟨n, k, hg, htext⟩ := exists_gap_eq hc hn fun last hl => hb last hl token List.mem_cons_self
    obtain ⟨parts, hparts⟩ := ih (emitter.write token.text (source.resolve token.span)).2
      (before ++ [.gap n k] ++ [.token token]) (fun t hm => hst t (List.mem_cons_of_mem token hm))
      hrest (by rw [hwritten]; intro last hl; exact Option.some.inj hl ▸ hfirst)
      (by rw [hwritten]; rfl)
    exact ⟨_, .write ht hg htext hparts⟩
  | @enter token tokens events level line hk _ ih =>
    obtain ⟨hfirst, hrest⟩ := List.pairwise_cons.mp ho
    obtain ⟨ht, hn⟩ := hst token List.mem_cons_self
    obtain ⟨n, k, hg, htext⟩ := exists_gap_eq hc hn fun last hl => hb last hl token List.mem_cons_self
    obtain ⟨parts, hparts⟩ := ih (emitter.write token.text (source.resolve token.span)).2
      (before ++ [.gap n k] ++ [.token token] ++ [.mark (Event.enter level line).punctuation])
      (fun t hm => hst t (List.mem_cons_of_mem token hm)) hrest
      (by rw [hmarks, hwritten]; intro last hl; exact Option.some.inj hl ▸ hfirst)
      (by rw [hmarks, hwritten]; rfl)
    exact ⟨_, .write ht hg htext (.mark (isMark_enter level line) rfl hparts)⟩
  | @enterOnly token tokens events level line hk hp _ ih =>
    obtain ⟨parts, hparts⟩ := ih { emitter with dirty := true }
      (before ++ [.mark (Event.enter level line).punctuation])
      (fun t hm => hst t (List.mem_cons_of_mem token hm)) (List.pairwise_cons.mp ho).2
      (by rw [hmarks]; exact fun last hl t hm => hb last hl t (List.mem_cons_of_mem token hm))
      (by rw [hmarks]; exact hc)
    exact ⟨_, .mark (isMark_enter level line) rfl hparts⟩

end Emitters

/-! ## Converted texts -/

theorem Weaves.written_sublist {source : Source} {policy : MarkerPolicy} {tokens : List Token}
    {events : List Event} (h : Weaves source policy tokens events) :
    (events.filterMap Event.token?).Sublist tokens := by
  induction h with
  | nil => exact .slnil
  | @pause event tokens events hp _ ih =>
    cases event with
    | write token region => exact hp.elim
    | enter level line => exact hp.elim
    | leave dedent => exact ih
    | separate kind => exact ih
  | write _ _ ih => exact ih.cons_cons _
  | enter _ _ _ _ ih => exact ih.cons_cons _
  | enterOnly _ _ _ _ _ ih => exact ih.cons _

theorem tokensIn_eq (parts : List Part) :
    tokensIn parts = (parts.filter (!·.isGap)).filterMap Part.token? := by
  induction parts with
  | nil => rfl
  | cons part parts ih =>
    cases part with
    | token t => exact congrArg (t :: ·) ih
    | mark text => exact ih
    | gap n k => exact ih

theorem tokensIn_of_shown {parts : List Part} {events : List Event}
    (h : parts.filter (!·.isGap) = events.map Event.part) :
    tokensIn parts = events.filterMap Event.token? := by
  rw [tokensIn_eq, h, List.filterMap_map]
  refine List.filterMap_congr fun event _ => ?_
  cases event <;> rfl

theorem Source.endsAsRead (source : Source) (hs : ∀ piece ∈ pieces source.chars, piece.IsSound)
    {token : Token} (ht : token ∈ tokensAt 0 (pieces source.chars)) :
    EndsAsRead source token ∧ 0 ≤ (source.resolve token.span).start.column := by
  obtain ⟨hedged, hregion⟩ := source.resolve_of_mem_tokensAt hs ht
  have hspan := (inOrder_tokensAt 0 (legible_pieces source.chars hs)).1.2 token ht
  refine ⟨⟨hedged, by rw [hregion]⟩, ?_⟩
  rw [source.resolve_start]
  exact source.position_column_nonneg hspan.1

theorem Laid.eq_nil_of_filter {source : Source} {keeps : Bool} {before parts : List Part}
    (h : Laid source keeps before parts) (hf : parts.filter (!·.isGap) = []) : parts = [] := by
  cases h with
  | nil => rfl
  | mark => simp [Part.isGap] at hf
  | write => simp [Part.isGap] at hf

/-- Nothing is put out exactly where there are no tokens. -/
theorem putsOut_eq_nil_iff {source : Source} {rules : Rules} {trees : List Tree}
    {tokens : List Token} (hsp : Spells trees tokens)
    (hw : Weaves source rules.marker tokens (source.layout rules trees).events)
    {emitter : Emitter} {parts : List Part}
    (h : PutsOut source emitter [] (source.layout rules trees).events parts) :
    textOfParts parts ++ (if parts.isEmpty then [] else ['\n']) = [] ↔ tokens = [] := by
  have hshown := h.shown
  constructor
  · intro hnil
    obtain rfl : parts = [] := by
      cases parts with
      | nil => rfl
      | cons part parts => simp at hnil
    rw [List.filter_nil] at hshown
    rw [List.map_eq_nil_iff.mp hshown.symm] at hw
    cases hw
    rfl
  · rintro rfl
    cases hsp
    have hevents : (source.layout rules []).events = [] := by
      rw [Source.layout, layoutItems]
      rfl
    rw [hevents] at hshown
    rw [h.laid.eq_nil_of_filter hshown]
    rfl

/-- A converted text is made of the tokens that the layout wrote and the punctuation that it put
in, with a gap before each token, and ends in one line end if anything is in it. Every token stands
where its line and its column put it. -/
theorem Source.convert_placement (source : Source) (rules : Rules) {out : List Char}
    (h : (source.convert rules).result = .ok out) :
    ∃ tokens trees parts,
      source.tokens = .ok (tokens ++ [endToken source.chars.length]) ∧
      source.trees = .ok trees ∧
      parts.filter (!·.isGap) = (source.layout rules trees).events.map Event.part ∧
      (tokensIn parts).Sublist tokens ∧
      Placement source rules.preserveBlankLines parts ∧
      out = textOfParts parts ++ (if parts.isEmpty then [] else ['\n']) ∧
      (out = [] ↔ tokens = []) := by
  obtain ⟨trees, ht, hf, rfl⟩ := (source.convert_eq_ok_iff rules out).mp h
  obtain ⟨hs, hsp⟩ := source.spells_trees ht
  have hweaves := weaves_of_layoutItems source rules hsp Scope.fresh hf
  have ho := pairwise_endsBefore source (inOrder_tokensAt 0 (legible_pieces source.chars hs)).1
  obtain ⟨parts, hparts⟩ := exists_putsOut_of_weaves hweaves
    (Emitter.fresh rules.preserveBlankLines) [] (fun token hm => source.endsAsRead hs hm) ho
    (by simp [tokensIn]) rfl
  have hout : (Emitter.fresh rules.preserveBlankLines).output (source.layout rules trees).events =
      textOfParts parts ++ (if parts.isEmpty then [] else ['\n']) := by
    have hdirty := hparts.dirty
    have htext := hparts.text
    unfold Source.layout
    rw [Emitter.output, htext, Emitter.finish, hdirty]
    cases parts <;> rfl
  refine ⟨_, trees, parts, (source.tokens_eq_ok_iff _).mpr ⟨hs, rfl⟩, ht, hparts.shown, ?_,
    placement_of_laid hparts.laid, hout, ?_⟩
  · rw [tokensIn_of_shown hparts.shown]
    exact hweaves.written_sublist
  · rw [hout]
    exact putsOut_eq_nil_iff hsp hweaves hparts

theorem mixedText_placement :
    let rules : Rules := ⟨["match".toList], [], .selector, true⟩
    let out :=
      "if a \x7b\n    b \x7d\n\n\nmatch d \x7b\n    'e => \x7b 'f' \x7d,\n    1 => \x7b 2 \x7d \x7d\ng\n".toList
    (mixedText.convert rules).result = .ok out ∧
      ∃ tokens trees parts,
        mixedText.tokens = .ok (tokens ++ [endToken mixedText.chars.length]) ∧
        mixedText.trees = .ok trees ∧
        parts.filter (!·.isGap) = (mixedText.layout rules trees).events.map Event.part ∧
        (tokensIn parts).Sublist tokens ∧
        Placement mixedText true parts ∧
        out = textOfParts parts ++ (if parts.isEmpty then [] else ['\n']) ∧
        (out = [] ↔ tokens = []) := by
  intro rules out
  have h : (mixedText.convert rules).result = .ok out := by decide +kernel
  exact ⟨h, mixedText.convert_placement rules h⟩

end Offside
