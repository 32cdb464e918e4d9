import Offside.Proofs.ProgramSource

/-!
# The layout of a program

A program is laid out statement by statement. Behind a statement the blocks that it opened may
still be open; they close where the next line starts.

- `Passes`: laying out some items, whatever follows them.
- `Behind`, `Enters`: the state behind a word, and the state before the first word of a statement.
- `Lays`: from the one state to the other, all but the last closing braces are put out.
- `lays_statement`, `lays_block`: every statement and every block lays itself out.
-/
namespace Offside

set_option autoImplicit false

open Layout

/-! ## Passing items -/

/-- Laying out some items puts out a text and leaves a scope and an emitter, whatever follows. -/
def Passes (source : Source) (rules : Rules) (scope : Scope) (emitter : Emitter)
    (items : List Tree) (out : List Char) (scope' : Scope) (emitter' : Emitter) : Prop :=
  ∃ events, (∀ rest, layoutItems source rules scope (items ++ rest) =
      (layoutItems source rules scope' rest).after events) ∧
    emitter.run events = (out, emitter')

variable {source : Source} {rules : Rules} {scope scope₁ scope₂ : Scope}
  {emitter emitter₁ emitter₂ : Emitter} {p : Position} {base : List Level} {c : Nat}

theorem Passes.refl : Passes source rules scope emitter [] [] scope emitter :=
  ⟨[], fun _ => rfl, rfl⟩

theorem Passes.trans {l r : List Tree} {out out' : List Char}
    (h : Passes source rules scope emitter l out scope₁ emitter₁)
    (h' : Passes source rules scope₁ emitter₁ r out' scope₂ emitter₂) :
    Passes source rules scope emitter (l ++ r) (out ++ out') scope₂ emitter₂ := by
  obtain ⟨events, hl, hrun⟩ := h
  obtain ⟨events', hl', hrun'⟩ := h'
  refine ⟨events ++ events', fun rest => ?_, ?_⟩
  · rw [List.append_assoc, hl, hl']
    simp [Trace.after]
  · rw [Emitter.run_append, hrun, hrun']

theorem passes_word {token : Token} (hk : token.kind ≠ .fatArrow) {events : List Event}
    (ha : scope.arrive (source.resolve token.span) = .ok (events, scope₁)) {out : List Char}
    (hrun : emitter.run events = (out, emitter₁)) :
    Passes source rules scope emitter [.leaf token]
      (out ++ (emitter₁.gap (source.resolve token.span).start ++ token.text))
      (scope₁.noteWord rules token)
      { emitter₁ with cursor := some (source.resolve token.span).stop, dirty := true } := by
  have hm : (Tree.leaf token).marker? = none := by simp [Tree.marker?, hk]
  refine ⟨events ++ [.write token (source.resolve token.span)], fun rest => ?_, ?_⟩
  · rw [List.singleton_append, layoutItems_item source rules ha hm, layoutTree]
    simp [Trace.andThen, Trace.after, Tree.note]
  · rw [Emitter.run_append, hrun]
    simp [Emitter.run, Emitter.step, Emitter.write]

theorem run_pauses {events : List Event} (h : ∀ event ∈ events, event.IsPause)
    (hd : emitter.dirty = true) :
    emitter.run events = (events.flatMap Event.punctuation, emitter) := by
  induction events with
  | nil => rfl
  | cons event events ih =>
    have hstep : emitter.step event = (event.punctuation, emitter) := by
      have hpause := h event List.mem_cons_self
      cases event with
      | write token region => exact hpause.elim
      | _ => simp [Emitter.step, Emitter.punct, ← hd]
    rw [Emitter.run, hstep]
    simp only [ih fun e he => h e (List.mem_cons_of_mem event he), List.flatMap_cons]

/-! ## The state behind a word -/

def innermost (blocks : List Level) : Int := (blocks.head?.map Level.column).getD 0

/-- The last word ended at a position, inside some blocks. -/
structure Behind (scope : Scope) (emitter : Emitter) (p : Position) (blocks : List Level) :
    Prop where
  blocks_eq : scope.blocks = blocks
  line : scope.lastLine = some p.line
  cursor : emitter.cursor = some p
  dirty : emitter.dirty = true

theorem gap_eq_text (hc : emitter.cursor = some p) (gap : Gap) :
    emitter.gap (p.after gap.text) = gap.text := by
  cases gap with
  | space =>
    have hp : p.after [' '] = ⟨p.line, p.column + 1⟩ := rfl
    have hone : p.column + 1 - p.column = 1 := by omega
    rw [Gap.text, hp, Emitter.gap, hc]
    simp [Emitter.spaces, hone]
  | wrap column =>
    have hp : p.after (newLine column) = ⟨p.line + 1, column⟩ :=
      Position.after_newline_spaces p column
    have hone : p.line + 1 - p.line = 1 := by omega
    rw [Gap.text, hp, Emitter.gap, hc]
    simp only
    rw [if_pos (by omega), hone]
    cases emitter.preserveBlankLines <;> rfl

/-- A word behind a gap that fits its block only moves the last line met. -/
theorem Behind.arrive (h : Behind scope emitter p base) (hc : innermost base = c) {gap : Gap}
    (hg : gap.Fits c) {region : Region} (hstart : region.start = p.after gap.text)
    (hstop : region.stop.line = region.start.line) :
    scope.arrive region = .ok ([], { scope with lastLine := some region.start.line }) := by
  cases gap with
  | space =>
    have hline : region.start.line = p.line := by rw [hstart]; rfl
    have hsame : { scope with lastLine := some region.start.line } = scope := by
      rw [hline, ← h.line]
    rw [hsame, Scope.arrive, h.line]
    simp only
    rw [if_neg (by omega)]
  | wrap column =>
    have hp : region.start = ⟨p.line + 1, column⟩ :=
      hstart.trans (Position.after_newline_spaces p column)
    have hcolumn : Scope.column { scope with lastLine := some region.stop.line } = c := by
      rw [← hc, ← h.blocks_eq]
      rfl
    have hfits : c < column := hg
    have hline : region.start.line = p.line + 1 := by rw [hp]
    have hright : region.start.column = column := by rw [hp]
    rw [Scope.arrive, h.line]
    simp only
    rw [if_pos (by omega), Scope.startLine]
    simp only
    rw [if_pos (by omega), hstop]

/-! ## Heads -/

theorem noteWord_eq (rules : Rules) (scope : Scope) (token : Token) : ∃ pending,
    scope.noteWord rules token = { scope with pending := pending } := by
  unfold Scope.noteWord
  split
  · exact ⟨_, rfl⟩
  · exact ⟨scope.pending, rfl⟩

theorem isSome_pending_noteWord {token : Token} {word : Word} (hk : token.kind = word.kind)
    (ht : token.text = word.text) :
    (scope.noteWord rules token).pending.isSome =
      (scope.pending.isSome || word.announces rules) := by
  rw [Scope.noteWord, hk, ht]
  split
  · rename_i h
    simp [Word.announces, h.1, h.2]
  · rename_i h
    have hnot : word.announces rules = false := by
      simpa [Word.announces] using h
    rw [hnot, Bool.or_false]

theorem line_after_word (p : Position) (word : Word) : (p.after word.text).line = p.line := by
  rw [p.after_of_no_newline word.text word.line]

theorem stop_line_of_word (word : Word) {token : Token} {start : Position}
    (hr : source.resolve token.span = ⟨start, start.after word.text⟩) :
    (source.resolve token.span).stop.line = (source.resolve token.span).start.line := by
  rw [hr]
  exact line_after_word start word

theorem behind_word (rules : Rules) (reached : Scope) (emitter : Emitter) {token : Token}
    {word : Word} {start : Position}
    (hr : source.resolve token.span = ⟨start, start.after word.text⟩)
    (hb : reached.blocks = base) (hl : reached.lastLine = some start.line) :
    Behind (reached.noteWord rules token)
      { emitter with cursor := some (source.resolve token.span).stop, dirty := true }
      (start.after word.text) base := by
  obtain ⟨pending, hn⟩ := noteWord_eq rules reached token
  rw [hn]
  exact ⟨hb, by rw [line_after_word]; exact hl, by rw [hr], rfl⟩

theorem passes_tail {rest : List (Gap × Leaf)} (hb : Behind scope emitter p base)
    (hc : innermost base = c) (hf : ∀ next ∈ rest, next.1.Fits c) {items : List Tree}
    (hs : Stands source p (rest.map fun next => (next.1.text, next.2.toWord)) items) :
    ∃ scope' emitter',
      Passes source rules scope emitter items
        (textOfWords (rest.map fun next => (next.1.text, next.2.toWord))) scope' emitter' ∧
      Behind scope' emitter'
        (p.after (textOfWords (rest.map fun next => (next.1.text, next.2.toWord)))) base ∧
      scope'.pending.isSome =
        (scope.pending.isSome || rest.any fun next => next.2.announces rules) := by
  induction rest generalizing scope emitter p items with
  | nil =>
    cases hs
    exact ⟨scope, emitter, .refl, hb, by simp⟩
  | cons next rest ih =>
    obtain ⟨gap, leaf⟩ := next
    rw [List.map_cons] at hs
    cases hs with
    | @cons _ _ _ _ items token hk ht hr hs =>
      have hstart : (source.resolve token.span).start = p.after gap.text := by rw [hr]
      have ha := hb.arrive hc (hf (gap, leaf) List.mem_cons_self) hstart
        (stop_line_of_word leaf.toWord hr)
      have harrow : token.kind ≠ .fatArrow := fun he => leaf.notArrow (hk.symm.trans he)
      have hpass : Passes source rules scope emitter _ _ _ _ := passes_word harrow ha rfl
      have hbehind := behind_word rules
        { scope with lastLine := some (source.resolve token.span).start.line } emitter hr
        hb.blocks_eq (by rw [hstart])
      obtain ⟨scope', emitter', hrest, hend, hpending⟩ :=
        ih hbehind (fun n hn => hf n (List.mem_cons_of_mem _ hn)) hs
      refine ⟨scope', emitter', ?_, ?_, ?_⟩
      · have h := hpass.trans hrest
        rw [hstart, gap_eq_text hb.cursor, ht] at h
        simpa using h
      · simpa [Position.after_append] using hend
      · rw [hpending, isSome_pending_noteWord hk ht, List.any_cons, Bool.or_assoc]

/-- Before the first word of a statement: its arrival puts out a text and leaves the blocks that
the statement is in, and no name is noted. -/
def Enters (scope : Scope) (emitter : Emitter) (p : Position) (lead : List Char)
    (base : List Level) (out : List Char) : Prop :=
  ∀ region : Region, region.start = p.after lead → region.stop.line = region.start.line →
    ∃ events reached stepped, scope.arrive region = .ok (events, reached) ∧
      emitter.run events = (out, stepped) ∧ stepped.gap region.start = lead ∧
      reached = ⟨base, none, some region.start.line⟩

theorem passes_head (rules : Rules) {head : Head} {lead out : List Char}
    (he : Enters scope emitter p lead base out) (hc : innermost base = c) (hf : head.Fits c)
    {items : List Tree} (hs : Stands source p ((lead, head.first.toWord) :: head.tail) items) :
    ∃ scope' emitter',
      Passes source rules scope emitter items (out ++ (lead ++ head.text)) scope' emitter' ∧
      Behind scope' emitter' (p.after (lead ++ head.text)) base ∧
      scope'.pending.isSome = head.announces rules := by
  cases hs with
  | @cons _ _ _ _ items token hk ht hr hs =>
    have hstart : (source.resolve token.span).start = p.after lead := by rw [hr]
    obtain ⟨events, reached, stepped, ha, hrun, hgap, hreached⟩ :=
      he _ hstart (stop_line_of_word head.first.toWord hr)
    have harrow : token.kind ≠ .fatArrow := fun h => head.first.notArrow (hk.symm.trans h)
    have hpass : Passes source rules scope emitter _ _ _ _ := passes_word harrow ha hrun
    have hbehind := behind_word rules reached stepped hr (by rw [hreached])
      (by rw [hreached, hstart])
    obtain ⟨scope', emitter', hrest, hend, hpending⟩ := passes_tail hbehind hc hf hs
    refine ⟨scope', emitter', ?_, ?_, ?_⟩
    · have h := hpass.trans hrest
      rw [hgap, ht] at h
      simpa [Head.text_eq, Head.tail] using h
    · simpa [Head.text_eq, Head.tail, Position.after_append] using hend
    · rw [hpending, isSome_pending_noteWord hk ht, hreached]
      simp [Head.announces]

/-! ## Closing and opening blocks -/

def closings (blocks : List Level) : List Char := blocks.flatMap fun _ => blockClosing

/-- What stands between the statements of the innermost of some blocks. -/
def separatorOf (blocks : List Level) : List Char :=
  match blocks with
  | [] => []
  | level :: _ => level.kind.separator

theorem closed_and_left {extra : List Level} (hc : innermost base = c)
    (hright : ∀ d ∈ extra, (c : Int) < d.column) :
    (extra ++ base).takeWhile (fun d => decide (d.column ≠ (c : Int))) = extra ∧
      (extra ++ base).dropWhile (fun d => decide (d.column ≠ (c : Int))) = base := by
  have hne : ∀ d ∈ extra, decide (d.column ≠ (c : Int)) = true := by
    intro d hd
    have := hright d hd
    rw [decide_eq_true_eq]
    omega
  rw [List.takeWhile_append_of_pos hne, List.dropWhile_append_of_pos hne]
  cases base with
  | nil => simp
  | cons d base =>
    have hd : d.column = c := hc
    simp [hd]

theorem mem_columns {extra : List Level} (hb : scope.blocks = extra ++ base)
    (hc : innermost base = c) : (c : Int) ∈ scope.columns := by
  cases base with
  | nil =>
    have hzero : (c : Int) = 0 := hc.symm
    rw [hzero]
    exact List.mem_cons_self
  | cons d base =>
    have hd : d.column = c := hc
    refine List.mem_cons_of_mem 0 (List.mem_reverse.mpr (List.mem_map.mpr ⟨d, ?_, hd⟩))
    rw [hb]
    exact List.mem_append_right extra List.mem_cons_self

theorem le_innermost {extra : List Level} (hc : innermost base = c)
    (hright : ∀ d ∈ extra, (c : Int) < d.column) : (c : Int) ≤ innermost (extra ++ base) := by
  cases extra with
  | nil => exact Int.le_of_eq hc.symm
  | cons d extra =>
    have hd : (c : Int) < d.column := hright d List.mem_cons_self
    exact Int.le_of_lt hd

theorem punctuation_leaves (closed : List Level) (line : Int) :
    (closed.map fun level => Event.leave (some (level, line))).flatMap Event.punctuation =
      closings closed := by
  rw [closings, List.flatMap_map]
  rfl

theorem punctuation_separation (scope : Scope) :
    scope.separation.flatMap Event.punctuation = separatorOf scope.blocks := by
  unfold Scope.separation separatorOf
  cases scope.blocks with
  | nil => rfl
  | cons level outer => simp [Event.punctuation]

/-- A line at the column of an open block closes the blocks inside that one. -/
theorem startLine_of_blocks {extra : List Level} (hb : scope.blocks = extra ++ base)
    (hc : innermost base = c) (hright : ∀ d ∈ extra, (c : Int) < d.column) {region : Region}
    (hcolumn : region.start.column = c) :
    scope.startLine region =
      .ok (extra.map (fun level => .leave (some (level, region.start.line))) ++
        Scope.separation ⟨base, none, scope.lastLine⟩, ⟨base, none, scope.lastLine⟩) := by
  have hle : (c : Int) ≤ scope.column := by
    have hin := le_innermost hc hright
    rw [← hb] at hin
    exact hin
  obtain ⟨hclosed, hleft⟩ := closed_and_left hc hright
  rw [Scope.startLine]
  simp only [hcolumn]
  rw [if_neg (by omega), if_neg (fun hu => hu.2 (mem_columns hb hc)), hb, hclosed, hleft]

/-- Behind a statement the next one of its block enters: the blocks that the statement opened
close, and the block's separator follows. -/
theorem Behind.enters {extra : List Level} (h : Behind scope emitter p (extra ++ base))
    (hc : innermost base = c) (hright : ∀ d ∈ extra, (c : Int) < d.column) :
    Enters scope emitter p (newLine c) base (closings extra ++ separatorOf base) := by
  intro region hstart hstop
  have hp : region.start = ⟨p.line + 1, c⟩ :=
    hstart.trans (Position.after_newline_spaces p c)
  have hline : region.start.line = p.line + 1 := by rw [hp]
  have hcolumn : region.start.column = c := by rw [hp]
  let reached : Scope := { scope with lastLine := some region.stop.line }
  have harrive : scope.arrive region = reached.startLine region := by
    rw [Scope.arrive, h.line]
    simp only
    rw [if_pos (by omega)]
  have hblocks : reached.blocks = extra ++ base := h.blocks_eq
  rw [startLine_of_blocks hblocks hc hright hcolumn] at harrive
  refine ⟨_, _, emitter, harrive, ?_, ?_, ?_⟩
  · rw [run_pauses (Scope.isPause_of_arrive harrive) h.dirty, List.flatMap_append,
      punctuation_leaves, punctuation_separation]
  · rw [hstart]
    exact gap_eq_text h.cursor (.wrap c)
  · rw [← hstop]

/-- The arrow of a statement opens a block at the column of the item behind it. -/
theorem passes_arrow {gap : Gap} {inner : Nat} {token : Token} {body : List Tree}
    {words : List (List Char × Word)} (hm : rules.marker = .always)
    (hb : Behind scope emitter p base) (hc : innermost base = c) (hg : gap.Fits c)
    (hk : token.kind = .fatArrow) (ht : token.text = fatArrow)
    (hr : source.resolve token.span = ⟨p.after gap.text, (p.after gap.text).after fatArrow⟩)
    (hs : Stands source ((p.after gap.text).after fatArrow) words body)
    (hw : ∃ word rest, words = (newLine inner, word) :: rest) :
    ∃ events scope' emitter',
      (∀ rest, layoutItems source rules scope (.leaf token :: (body ++ rest)) =
        (layoutItems source rules scope' (body ++ rest)).after events) ∧
      emitter.run events = (gap.text ++ fatArrow ++ blockOpening, emitter') ∧
      Enters scope' emitter' ((p.after gap.text).after fatArrow) (newLine inner)
        (⟨inner, scope.pending⟩ :: base) [] := by
  obtain ⟨word, rest, rfl⟩ := hw
  cases hs with
  | @cons _ _ _ _ items next hk' ht' hr' hs' =>
    have hstart : (source.resolve token.span).start = p.after gap.text := by rw [hr]
    have ha := hb.arrive hc hg hstart (stop_line_of_word Word.arrow hr)
    have hmarker : (Tree.leaf token).marker? = some token := by simp [Tree.marker?, hk]
    have hnext : (source.resolve next.span).start =
        ⟨((p.after gap.text).after fatArrow).line + 1, inner⟩ := by
      rw [hr']
      exact Position.after_newline_spaces _ inner
    have hkeep (reached : Scope) : reached.keepsMarker rules = true := by
      simp [Scope.keepsMarker, hm]
    refine ⟨[.write token (source.resolve token.span),
        .enter (some ⟨inner, scope.pending⟩) (source.resolve token.span).start.line],
      ⟨⟨inner, scope.pending⟩ :: base, none, some (source.resolve next.span).stop.line⟩,
      { emitter with cursor := some (source.resolve token.span).stop, dirty := true },
      fun rest => ?_, ?_, ?_⟩
    · rw [layoutItems_marker source rules ha hmarker]
      simp only [List.cons_append, List.head?_cons, Option.map_some, Scope.openBlock, hkeep,
        if_true]
      simp only [Tree.span, hnext, hb.blocks_eq]
      rfl
    · simp [Emitter.run, Emitter.step, Emitter.write, Emitter.punct, hstart, gap_eq_text hb.cursor,
        ht, Event.punctuation]
    · intro region hstart' hstop'
      have hsame : (source.resolve next.span).stop.line = region.start.line := by
        rw [stop_line_of_word _ hr', hnext, hstart']
        exact (congrArg Position.line (Position.after_newline_spaces _ inner)).symm
      refine ⟨[], _,
        { emitter with cursor := some (source.resolve token.span).stop, dirty := true },
        ?_, rfl, ?_, rfl⟩
      · rw [Scope.arrive]
        simp only
        rw [if_neg (by omega), hsame]
      · rw [hstart']
        exact gap_eq_text (by rw [hr]) (.wrap inner)

/-! ## Statements and blocks -/

/-- Items are laid out from the state before a statement to the state behind one. All is put out
but the closing braces of the blocks that are still open. -/
def Lays (source : Source) (rules : Rules) (c : Nat) (base : List Level) (p : Position)
    (lead : List Char) (items : List Tree) (full bare : List Char) : Prop :=
  ∀ scope emitter out, Enters scope emitter p lead base out →
    ∃ extra emitted scope' emitter',
      Passes source rules scope emitter items (out ++ (lead ++ emitted)) scope' emitter' ∧
      emitted ++ closings extra = full ∧
      Behind scope' emitter' (p.after (lead ++ bare)) (extra ++ base) ∧
      ∀ d ∈ extra, (c : Int) < d.column

theorem Stands.split {l r : List (List Char × Word)} {items : List Tree}
    (h : Stands source p (l ++ r) items) :
    ∃ a b, items = a ++ b ∧ Stands source p l a ∧ Stands source (p.after (textOfWords l)) r b := by
  induction l generalizing p items with
  | nil => exact ⟨[], items, rfl, .nil p, h⟩
  | cons next l ih =>
    obtain ⟨lead, word⟩ := next
    cases h with
    | @cons _ _ _ _ items token hk ht hr hs =>
      obtain ⟨a, b, rfl, ha, hb⟩ := ih hs
      refine ⟨.leaf token :: a, b, rfl, .cons hk ht hr ha, ?_⟩
      rw [textOfWords_cons, Position.after_append, Position.after_append]
      exact hb

/-- A statement and the rest of its block, with the closing braces of the statement's blocks and
the separator between them. -/
theorem Lays.next (hc : innermost base = c) {lead full full' bare bare' : List Char}
    {l r : List Tree} (hl : Lays source rules c base p lead l full bare)
    (hr : Lays source rules c base (p.after (lead ++ bare)) (newLine c) r full' bare') :
    Lays source rules c base p lead (l ++ r) (full ++ separatorOf base ++ newLine c ++ full')
      (bare ++ newLine c ++ bare') := by
  intro scope emitter out he
  obtain ⟨extra, emitted, scope₁, emitter₁, hpass, hfull, hbehind, hright⟩ := hl _ _ _ he
  obtain ⟨extra', emitted', scope₂, emitter₂, hpass', hfull', hbehind', hright'⟩ :=
    hr _ _ _ (hbehind.enters hc hright)
  refine ⟨extra', full ++ separatorOf base ++ newLine c ++ emitted', scope₂, emitter₂, ?_, ?_, ?_,
    hright'⟩
  · rw [← hfull]
    simpa using hpass.trans hpass'
  · rw [← hfull']
    simp
  · simpa [Position.after_append] using hbehind'

/-- A head and the block that it opens. The brace of that block closes with the blocks inside. -/
theorem Lays.opens (hm : rules.marker = .always) (hc : innermost base = c) {head : Head} {gap : Gap}
    {inner : Nat} (hf : head.Fits c) (hg : gap.Fits c) (hin : c < inner) {lead : List Char}
    {l body : List Tree} {token : Token} {words : List (List Char × Word)}
    (hs : Stands source p ((lead, head.first.toWord) :: head.tail) l)
    (hk : token.kind = .fatArrow) (ht : token.text = fatArrow)
    (hr : source.resolve token.span = ⟨(p.after (lead ++ head.text)).after gap.text,
      ((p.after (lead ++ head.text)).after gap.text).after fatArrow⟩)
    (hb : Stands source (((p.after (lead ++ head.text)).after gap.text).after fatArrow) words body)
    (hw : ∃ word rest, words = (newLine inner, word) :: rest) {full bare : List Char}
    (hbody : ∀ level : Level, level.column = inner →
      level.kind.separator = (Punctuation.full rules).separator head →
      Lays source rules inner (level :: base)
        (((p.after (lead ++ head.text)).after gap.text).after fatArrow) (newLine inner) body
        full bare) :
    Lays source rules c base p lead (l ++ .leaf token :: body)
      (head.text ++ gap.text ++ fatArrow ++ blockOpening ++ newLine inner ++ full ++ blockClosing)
      (head.text ++ gap.text ++ fatArrow ++ newLine inner ++ bare) := by
  intro scope emitter out he
  obtain ⟨scope₁, emitter₁, hpass, hbehind, hpending⟩ := passes_head rules he hc hf hs
  obtain ⟨events, scope₂, emitter₂, hlayout, hrun, henters⟩ :=
    passes_arrow hm hbehind hc hg hk ht hr hb hw
  have hsep : (Level.mk inner scope₁.pending).kind.separator =
      (Punctuation.full rules).separator head := by
    simp only [Punctuation.full, ← hpending]
    cases scope₁.pending <;> rfl
  obtain ⟨extra, emitted, scope₃, emitter₃, ⟨events', hlayout', hrun'⟩, hfull, hbehind', hright⟩ :=
    hbody ⟨inner, scope₁.pending⟩ rfl hsep _ _ _ henters
  have harrow : Passes source rules scope₁ emitter₁ (.leaf token :: body)
      (gap.text ++ fatArrow ++ blockOpening ++ (newLine inner ++ emitted)) scope₃ emitter₃ := by
    refine ⟨events ++ events', fun rest => ?_, ?_⟩
    · rw [List.cons_append, hlayout, hlayout']
      simp [Trace.after]
    · rw [Emitter.run_append, hrun, hrun']
      simp
  refine ⟨extra ++ [⟨inner, scope₁.pending⟩], head.text ++ gap.text ++ fatArrow ++ blockOpening ++
    newLine inner ++ emitted, scope₃, emitter₃, ?_, ?_, ?_, ?_⟩
  · simpa using hpass.trans harrow
  · rw [← hfull]
    simp [closings]
  · simpa [Position.after_append] using hbehind'
  · intro d hd
    rcases List.mem_append.mp hd with hd | hd
    · have := hright d hd
      omega
    · obtain rfl := List.mem_singleton.mp hd
      simp only
      omega

mutual

theorem lays_statement (hm : rules.marker = .always) {c : Nat} {base : List Level}
    (hc : innermost base = c) (statement : Statement) (hf : statement.Fits c) {p : Position}
    {lead : List Char} {items : List Tree} (hs : Stands source p (statement.words lead) items) :
    Lays source rules c base p lead items (statement.text (.full rules))
      (statement.text .bare) := by
  cases statement with
  | plain head =>
    intro scope emitter out he
    rw [Statement.words] at hs
    rw [Statement.Fits] at hf
    obtain ⟨scope', emitter', hpass, hbehind, -⟩ := passes_head rules he hc hf hs
    exact ⟨[], head.text, scope', emitter', hpass, by simp [closings, Statement.text],
      by simpa [Statement.text] using hbehind, by simp⟩
  | opens head gap inner body =>
    rw [Statement.words, ← List.cons_append] at hs
    rw [Statement.Fits] at hf
    obtain ⟨hhead, hgap, hin, hbody⟩ := hf
    obtain ⟨l, r, rfl, hl, hr⟩ := hs.split
    rw [textOfWords_cons, List.append_assoc, ← head.text_eq] at hr
    cases hr with
    | @cons _ _ _ _ items token hk ht hr hb =>
      rw [Statement.text, Statement.text]
      simp only [Punctuation.bare, List.append_nil]
      obtain ⟨word, rest, hw, -⟩ := body.exists_words_eq_cons inner (newLine inner)
      refine Lays.opens hm hc hhead hgap hin hl hk ht hr hb ⟨word, rest, hw⟩
        (fun level hlevel hsep => ?_)
      have hinner : innermost (level :: base) = inner := hlevel
      have h := lays_block hm hinner body hbody hb
      rw [separatorOf, hsep] at h
      exact h
termination_by structural statement

theorem lays_block (hm : rules.marker = .always) {c : Nat} {base : List Level}
    (hc : innermost base = c) (block : Block) (hf : block.Fits c) {p : Position}
    {lead : List Char} {items : List Tree} (hs : Stands source p (block.words c lead) items) :
    Lays source rules c base p lead items (block.text (.full rules) c (separatorOf base))
      (block.text .bare c []) := by
  cases block with
  | last statement =>
    rw [Block.words] at hs
    rw [Block.Fits] at hf
    rw [Block.text, Block.text]
    exact lays_statement hm hc statement hf hs
  | next statement rest =>
    rw [Block.words] at hs
    rw [Block.Fits] at hf
    obtain ⟨l, r, rfl, hl, hr⟩ := hs.split
    rw [statement.textOfWords_words] at hr
    have h := Lays.next hc (lays_statement hm hc statement hf.1 hl) (lays_block hm hc rest hf.2 hr)
    rw [Block.text, Block.text, List.append_nil]
    exact h
termination_by structural block

end

/-! ## Converted programs -/

/-- A program is converted to its text with full punctuation, whatever line ends stand behind. -/
theorem Block.convert (block : Block) (hf : block.Fits 0) {rules : Rules}
    (hm : rules.marker = .always) (name : String) (k : Nat) :
    ((Source.ofText name (block.text .bare 0 [] ++ List.replicate k '\n')).convert rules).result =
      .ok (block.text (.full rules) 0 [] ++ ['\n']) := by
  obtain ⟨tokens, offset, htokens, hleaf, hstands⟩ := block.exists_tokens name k
  have htrees := Source.trees_of_isLeaf _ htokens hleaf
  have henters : Enters Scope.fresh (Emitter.fresh rules.preserveBlankLines) Position.origin [] []
      [] := by
    intro region hstart hstop
    refine ⟨[], _, _, rfl, rfl, ?_, ?_⟩
    · rw [hstart]
      rfl
    · rw [← hstop]
      rfl
  obtain ⟨extra, emitted, scope, emitter, ⟨events, hlayout, hrun⟩, hfull, hbehind, -⟩ :=
    lays_block hm rfl block hf hstands _ _ _ henters
  have hall := hlayout []
  rw [List.append_nil, layoutItems] at hall
  have hclose : emitter.run scope.close = (scope.close.flatMap Event.punctuation, emitter) :=
    run_pauses (fun _ he => Scope.isPause_of_mem_close he) hbehind.dirty
  have hclosings : scope.close.flatMap Event.punctuation = closings extra := by
    rw [Scope.close, hbehind.blocks_eq, List.append_nil, List.flatMap_map]
    rfl
  refine (Source.convert_eq_ok_iff _ _ _).mpr ⟨_, htrees, ?_, ?_⟩
  · rw [Source.layout, hall]
    rfl
  · have htext : block.text (.full rules) 0 [] = emitted ++ closings extra := hfull.symm
    rw [Source.layout, hall, Emitter.output, Trace.after_events, Emitter.run_append, hrun, hclose,
      hclosings, Emitter.finish, if_pos hbehind.dirty, htext]
    rfl

/-! ## A program -/

def letter (c : Char) (h : pieces [c] = [.of (.token .identifier) [c]] ∧ c ≠ '\n') : Leaf where
  kind := .identifier
  text := [c]
  read := h.1
  line := by simpa using h.2.symm
  notArrow := by decide
  notBracket := by decide

def nestedProgram : Block :=
  .next
    (.opens ⟨letter 'a' (by decide +kernel), [(.space, letter 'b' (by decide +kernel))]⟩ .space 2
      (.next
        (.opens ⟨letter 'c' (by decide +kernel), []⟩ .space 4
          (.last (.plain
            ⟨letter 'a' (by decide +kernel), [(.wrap 6, letter 'b' (by decide +kernel))]⟩)))
        (.last (.plain ⟨letter 'd' (by decide +kernel), []⟩))))
    (.last (.plain ⟨letter 'e' (by decide +kernel), []⟩))

theorem nestedProgram_convert :
    let rules : Rules := ⟨[['b']], [], .always, true⟩
    let written := "a b =>\n  c =>\n    a\n      b\n  d\ne\n\n".toList
    let punctuated :=
      "a b => \x7b\n  c => \x7b\n    a\n      b \x7d,\n  d \x7d\ne\n".toList
    nestedProgram.Fits 0 ∧
      ((Source.ofText "nested" written).convert rules).result = .ok punctuated := by
  have hf : nestedProgram.Fits 0 := by
    simp [nestedProgram, Block.Fits, Statement.Fits, Head.Fits, Gap.Fits]
  exact ⟨hf, nestedProgram.convert hf rfl "nested" 2⟩

end Offside
