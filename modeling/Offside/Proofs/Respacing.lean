import Offside.Proofs.Reindenting

/-!
# Texts with other blanks and comments

Two texts with the same words, the same line breaks and the same columns. However many blank lines
and comments stand between the words, both are converted to the same text, or the same is wrong
with them.

- `EmitterTwins`: emitters that stand behind the same tokens of two texts.
- `run_twins`: what they put out for events that are alike is the same.
- `Source.convert_respaced`: the outcome hangs on the words, the line breaks and the columns alone.
-/
namespace Offside

set_option autoImplicit false

open Layout

/-! ## What is put out for two texts -/

/-- Both tokens of a pair start at one column and end at one column. -/
structure SameColumns (source source' : Source) (p : Pair) : Prop where
  start : (source'.resolve p.2.span).start.column = (source.resolve p.1.span).start.column
  stop : (source'.resolve p.2.span).stop.column = (source.resolve p.1.span).stop.column

/-- Two cursors at one column. Of the tokens that remain the same ones start below them. -/
def CursorTwins (source source' : Source) (ps : List Pair) (cursor cursor' : Position) : Prop :=
  cursor'.column = cursor.column ∧
    ∀ p ∈ ps, cursor.line < (source.resolve p.1.span).start.line ↔
      cursor'.line < (source'.resolve p.2.span).start.line

/-- Two emitters that let no blank lines through, behind the same tokens of two texts. -/
structure EmitterTwins (source source' : Source) (ps : List Pair) (emitter emitter' : Emitter) :
    Prop where
  drops : emitter.preserveBlankLines = false
  drops' : emitter'.preserveBlankLines = false
  dirty : emitter'.dirty = emitter.dirty
  cursor : Option.Rel (CursorTwins source source' ps) emitter.cursor emitter'.cursor

section Emitters

variable {source source' : Source} {p : Pair} {ps : List Pair} {emitter emitter' : Emitter}

theorem EmitterTwins.tail (h : EmitterTwins source source' (p :: ps) emitter emitter') :
    EmitterTwins source source' ps emitter emitter' := by
  refine ⟨h.drops, h.drops', h.dirty, ?_⟩
  have hc := h.cursor
  generalize emitter.cursor = cursor, emitter'.cursor = cursor' at hc
  cases hc with
  | none => exact .none
  | some hc => exact .some ⟨hc.1, fun q hq => hc.2 q (List.mem_cons_of_mem p hq)⟩

theorem EmitterTwins.gap_eq (h : EmitterTwins source source' (p :: ps) emitter emitter')
    (hp : SameColumns source source' p) :
    emitter'.gap (source'.resolve p.2.span).start = emitter.gap (source.resolve p.1.span).start := by
  have hc := h.cursor
  unfold Emitter.gap
  rw [h.drops, h.drops', hp.start]
  generalize emitter.cursor = cursor, emitter'.cursor = cursor' at hc
  cases hc with
  | none => rfl
  | some hc =>
    have hlt := hc.2 p List.mem_cons_self
    simp only [hc.1, hlt, Bool.false_eq_true, if_false]

/-- Emitters that stand behind the same tokens put out the same for events that are alike. -/
theorem run_twins {es es' : List Event} (h : Woven source source' ps es es')
    (hf : ps.Pairwise (Follows source source')) (hs : ∀ p ∈ ps, SameColumns source source' p)
    (he : EmitterTwins source source' ps emitter emitter') :
    (emitter'.run es').1 = (emitter.run es).1 ∧
      (emitter'.run es').2.dirty = (emitter.run es).2.dirty := by
  induction h generalizing emitter emitter' with
  | nil => exact ⟨rfl, he.dirty⟩
  | @mark e e' ps es es' ht ht' hp _ ih =>
    have hpunct : EmitterTwins source source' ps (emitter.punct e.punctuation).2
        (emitter'.punct e'.punctuation).2 := ⟨he.drops, he.drops', rfl, he.cursor⟩
    obtain ⟨hrun, hdirty⟩ := ih hf hs hpunct
    simp only [Emitter.run, emitter.step_of_token?_eq_none ht, emitter'.step_of_token?_eq_none ht']
    rw [hrun, hdirty, hp]
    exact ⟨rfl, rfl⟩
  | @write p ps es es' hw _ ih =>
    obtain ⟨hfirst, hrest⟩ := List.pairwise_cons.mp hf
    have hp := hs p List.mem_cons_self
    have hwrite : EmitterTwins source source' ps
        (emitter.write p.1.text (source.resolve p.1.span)).2
        (emitter'.write p.2.text (source'.resolve p.2.span)).2 :=
      ⟨he.drops, he.drops', rfl, .some ⟨hp.stop, fun q hq => (hfirst q hq).lt_iff⟩⟩
    obtain ⟨hrun, hdirty⟩ := ih hrest (fun q hq => hs q (List.mem_cons_of_mem p hq)) hwrite
    simp only [Emitter.run, Emitter.step]
    rw [hrun, hdirty]
    refine ⟨?_, rfl⟩
    simp only [Emitter.write]
    rw [he.gap_eq hp, text_eq_of_word hw]
  | @skip p ps es es' _ ih =>
    exact ih (List.pairwise_cons.mp hf).2 (fun q hq => hs q (List.mem_cons_of_mem p hq)) he.tail

/-- Events that write nothing are put out in the same way if they put in the same. -/
theorem run_of_woven_nil {es es' : List Event} (h : Woven source source' [] es es')
    (emitter : Emitter) : emitter.run es' = emitter.run es := by
  generalize hps : ([] : List Pair) = ps at h
  induction h generalizing emitter with
  | nil => rfl
  | mark ht ht' hp _ ih =>
    simp only [Emitter.run, emitter.step_of_token?_eq_none ht, emitter.step_of_token?_eq_none ht',
      hp, ih _ hps]
  | write => simp at hps
  | skip => simp at hps

theorem output_twins {es es' : List Event} (h : Woven source source' ps es es')
    (hf : ps.Pairwise (Follows source source')) (hs : ∀ p ∈ ps, SameColumns source source' p) :
    (Emitter.fresh false).output es' = (Emitter.fresh false).output es := by
  obtain ⟨hrun, hdirty⟩ := run_twins h hf hs
    (⟨rfl, rfl, rfl, .none⟩ : EmitterTwins _ _ _ (Emitter.fresh false) (Emitter.fresh false))
  rw [Emitter.output, Emitter.output, Emitter.finish, Emitter.finish, hrun, hdirty]

end Emitters

/-! ## Columns of tokens -/

/-- The columns at which tokens start. -/
def startColumns (source : Source) (tokens : List Token) : List Int :=
  tokens.map fun token => (source.resolve token.span).start.column

/-- What a failure says, wherever it points. -/
def CompileFailure.wording (failure : CompileFailure) : List (String × String × List String) :=
  failure.diagnostics.map fun d => (d.code, d.message, d.notes)

section Columns

variable {source source' : Source} {tokens tokens' : List Token} {last last' : Token}

theorem start_column_eq (h : startColumns source tokens = startColumns source' tokens') {p : Pair}
    (hp : p ∈ tokens.zip tokens') :
    (source'.resolve p.2.span).start.column = (source.resolve p.1.span).start.column := by
  have hall : List.Forall₂ (fun a b => (source.resolve a.span).start.column =
      (source'.resolve b.span).start.column) tokens tokens' := forall₂_iff_map_eq.mpr h
  exact (List.forall₂_zip hall hp).symm

/-- Tokens with the same text end at the same column where they start at the same column. -/
theorem sameColumns_of_mem (ht : source.tokens = .ok (tokens ++ [last]))
    (ht' : source'.tokens = .ok (tokens' ++ [last']))
    (hw : tokens.map Token.word = tokens'.map Token.word)
    (hc : startColumns source tokens = startColumns source' tokens') {p : Pair}
    (hp : p ∈ tokens.zip tokens') : SameColumns source source' p := by
  obtain ⟨hs, hl, -⟩ := Source.of_tokens_eq_ok ht
  obtain ⟨hs', hr, -⟩ := Source.of_tokens_eq_ok ht'
  obtain ⟨hml, hmr⟩ := List.of_mem_zip hp
  have hstart := start_column_eq hc hp
  refine ⟨hstart, ?_⟩
  rw [(source.resolve_of_mem_tokensAt hs (hl ▸ hml)).2,
    (source'.resolve_of_mem_tokensAt hs' (hr ▸ hmr)).2, text_eq_of_word ((exists_pairs hw).2.2 p hp)]
  rw [source.resolve_start, source'.resolve_start] at hstart
  exact Position.after_column_congr hstart p.1.text

/-- Where the tokens of twins start at the same columns, so do their items. -/
theorem comparable_of_sameColumns {all : List Pair} (h : Abreast source source' all)
    (hs : ∀ p ∈ all, SameColumns source source' p) {trees trees' : List Tree}
    (ht : Twins trees trees' all) {l l' : List Tree} (hl : ListedBeside trees trees' l l') :
    Comparable source source' Eq l l' := by
  obtain ⟨ts, hlist, hsub⟩ := hl.twins ht
  refine ⟨Eq, by rintro c _ d _ rfl rfl; exact Iff.rfl, rfl, fun _ _ he => he, fun p hp => ?_⟩
  have hzip := mem_zip_of_significant h hlist hsub hp
  obtain ⟨first, hf, _, -, hr, hr'⟩ := regionPair_of_mem_zip h hlist hsub hzip
  rw [hr, hr']
  exact (hs first hf).start.symm

end Columns

/-- Texts with the same words, line breaks and start columns are converted to the same text, or
fail with the same codes, messages and notes. -/
theorem Source.convert_respaced {source source' : Source} (rules : Rules)
    (hdrop : rules.preserveBlankLines = false) {tokens tokens' : List Token} {last last' : Token}
    (ht : source.tokens = .ok (tokens ++ [last])) (ht' : source'.tokens = .ok (tokens' ++ [last']))
    (hw : tokens.map Token.word = tokens'.map Token.word)
    (hb : lineBreaks source tokens = lineBreaks source' tokens')
    (hc : startColumns source tokens = startColumns source' tokens') :
    (source.convert rules).result.mapError CompileFailure.wording =
      (source'.convert rules).result.mapError CompileFailure.wording := by
  obtain ⟨-, -, habreast, -⟩ := exists_abreast ht ht' hw hb
  have hcolumns (p : Pair) (hp : p ∈ tokens.zip tokens') : SameColumns source source' p :=
    sameColumns_of_mem ht ht' hw hc hp
  have hlists (trees trees' : List Tree) (h : source.trees = .ok trees)
      (h' : source'.trees = .ok trees') (l l' : List Tree) (hl : ListedBeside trees trees' l l') :
      Comparable source source' Eq l l' := by
    obtain ⟨_, _, hok, hok', htwins⟩ | ⟨_, _, hno, -⟩ := trees_twins Eq ht ht' hw hb
    · obtain rfl := Except.ok.inj (hok.symm.trans h)
      obtain rfl := Except.ok.inj (hok'.symm.trans h')
      exact comparable_of_sameColumns habreast hcolumns htwins hl
    · exact absurd (h.symm.trans hno) (by simp)
  obtain ⟨trees, trees', h, h', hf, hf', hwoven⟩ | ⟨failure, failure', h, h', hfound⟩ :=
    Source.convert_twins rules ht ht' hw hb hlists
  · rw [(source.convert_eq_ok_iff rules _).mpr ⟨trees, h, hf, rfl⟩,
      (source'.convert_eq_ok_iff rules _).mpr ⟨trees', h', hf', rfl⟩, hdrop,
      output_twins hwoven habreast.follows hcolumns]
  · rw [h, h']
    refine congrArg Except.error (forall₂_iff_map_eq.mp (hfound.imp fun d d' hd => ?_))
    rw [hd.code, hd.message, hd.notes fun _ _ he => he]

def denseText : Source := Source.ofText "dense" "f =>\n  g(a,\n    \"u\nv\")\n  h\n".toList

def spacedText : Source := Source.ofText "spaced"
  "// c\nf => // d\n\n  g(a, /* e\n*/\n    \"u\nv\")   \n\n// i\n  h".toList

theorem spacedText_respaced :
    let rules : Rules := ⟨[], [], .always, false⟩
    let out := "f => \x7b\n  g(a,\n    \"u\nv\");\n  h \x7d\n".toList
    (denseText.convert rules).result = .ok out ∧
      (denseText.convert rules).result.mapError CompileFailure.wording =
        (spacedText.convert rules).result.mapError CompileFailure.wording := by
  intro rules out
  have ht : denseText.tokens =
      .ok (tokensAt 0 (pieces denseText.chars) ++ [endToken denseText.chars.length]) := rfl
  have ht' : spacedText.tokens =
      .ok (tokensAt 0 (pieces spacedText.chars) ++ [endToken spacedText.chars.length]) := rfl
  exact ⟨by decide +kernel, Source.convert_respaced rules rfl ht ht' (by decide +kernel)
    (by decide +kernel) (by decide +kernel)⟩

end Offside
