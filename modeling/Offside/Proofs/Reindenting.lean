import Offside.Proofs.LineStarts
import Offside.Proofs.Rereading
import Offside.Proofs.TwinLayouts

/-!
# Texts with other columns

Two texts with the same words and the same line breaks, their columns ordered alike. Both are
converted with the same punctuation, or what is wrong with them is wrong at the same tokens.

- `FindingTwins`: diagnostics that say the same about the same tokens.
- `Source.convert_twins`: texts with the same words and line breaks are converted side by side.
- `AlignedAlike`: columns of the items that count are ordered alike.
- `Source.convert_reindented`: where columns are ordered alike, the same punctuation is put in.
-/
namespace Offside

set_option autoImplicit false

open Layout

/-! ## What is found in two texts -/

/-- Each of two diagnostics points at one place, and these lie from and to the same tokens. -/
def SamePlace (source source' : Source) (all : List Pair) (d d' : Diagnostic) : Prop :=
  ∃ region region', RegionPair source source' all region region' ∧
    d.labels.map Label.region = [region] ∧ d'.labels.map Label.region = [region']

/-- Two diagnostics that say the same about the same tokens. Their notes tell columns, so they are
the same where the columns told are. -/
structure FindingTwins (source source' : Source) (told : Int → Int → Prop) (all : List Pair)
    (d d' : Diagnostic) : Prop where
  code : d'.code = d.code
  message : d'.message = d.message
  notes : (∀ c c', told c c' → c = c') → d'.notes = d.notes
  place : SamePlace source source' all d d'

section Findings

variable {source source' : Source} {told : Int → Int → Prop} {all : List Pair}

theorem FaultPair.code_eq {fault fault' : BracketFault} (h : FaultPair all fault fault') :
    fault'.code = fault.code := by
  cases h <;> rfl

theorem FaultPair.message_eq {fault fault' : BracketFault} (h : FaultPair all fault fault')
    (hw : ∀ p ∈ all, p.1.word = p.2.word) : fault'.message = fault.message := by
  have htext (p : Pair) (hp : p ∈ all) : p.2.text = p.1.text := text_eq_of_word (hw p hp)
  cases h with
  | unclosed hm =>
    dsimp only [BracketFault.message]
    rw [htext _ hm]
  | unopened hm =>
    dsimp only [BracketFault.message]
    rw [htext _ hm]
  | mismatched expected hm =>
    dsimp only [BracketFault.message]
    rw [htext _ hm]

theorem FaultPair.mem {fault fault' : BracketFault} (h : FaultPair all fault fault') :
    (fault.token, fault'.token) ∈ all := by
  cases h with
  | unclosed hm => exact hm
  | unopened hm => exact hm
  | mismatched expected hm => exact hm

theorem FaultPair.finding {fault fault' : BracketFault} (h : FaultPair all fault fault')
    (hw : ∀ p ∈ all, p.1.word = p.2.word) :
    FindingTwins source source' told all (fault.diagnostic source)
      (fault'.diagnostic source') where
  code := h.code_eq
  message := h.message_eq hw
  notes _ := rfl
  place := ⟨_, _, ⟨_, h.mem, _, h.mem, rfl, rfl⟩, rfl, rfl⟩

theorem Layout.FaultTwins.finding {fault fault' : Fault}
    (h : FaultTwins source source' told all fault fault') (file file' : String) :
    FindingTwins source source' told all (fault.diagnostic file) (fault'.diagnostic file') := by
  cases h with
  | repetition hr => exact ⟨rfl, rfl, fun _ => rfl, _, _, hr, rfl, rfl⟩
  | unknownColumn hr hc =>
    refine ⟨rfl, rfl, fun heq => ?_, _, _, hr, rfl, rfl⟩
    obtain rfl := List.forall₂_eq_eq_eq ▸ hc.imp heq
    rfl

end Findings

/-! ## Converting side by side -/

section Conversions

variable {source source' : Source} (rules : Rules) {told : Int → Int → Prop}
  {tokens tokens' : List Token} {last last' : Token}

theorem exists_abreast (ht : source.tokens = .ok (tokens ++ [last]))
    (ht' : source'.tokens = .ok (tokens' ++ [last']))
    (hw : tokens.map Token.word = tokens'.map Token.word)
    (hb : lineBreaks source tokens = lineBreaks source' tokens') :
    last.kind = .endOfText ∧ last'.kind = .endOfText ∧
      Abreast source source' (tokens.zip tokens') ∧
      ∀ p ∈ tokens.zip tokens', p.1.word = p.2.word ∧ p.1.IsSpelled := by
  obtain ⟨hs, rfl, rfl⟩ := Source.of_tokens_eq_ok ht
  obtain ⟨hs', rfl, rfl⟩ := Source.of_tokens_eq_ok ht'
  obtain ⟨hl, hr, hall⟩ := exists_pairs hw
  refine ⟨rfl, rfl, abreast_of_lineBreaks hs hs' hl hr hall (by rw [hl, hr]; exact hb),
    fun p hp => ⟨hall p hp, ?_⟩⟩
  exact isSpelled_tokensAt 0 (legible_pieces source.chars hs) p.1 (List.of_mem_zip hp).1

/-- The brackets of texts with the same words are matched alike, or the same is wrong with them. -/
theorem trees_twins (told : Int → Int → Prop) (ht : source.tokens = .ok (tokens ++ [last]))
    (ht' : source'.tokens = .ok (tokens' ++ [last']))
    (hw : tokens.map Token.word = tokens'.map Token.word)
    (hb : lineBreaks source tokens = lineBreaks source' tokens') :
    (∃ trees trees', source.trees = .ok trees ∧ source'.trees = .ok trees' ∧
        Twins trees trees' (tokens.zip tokens')) ∨
      ∃ ds ds', source.trees = .error ds ∧ source'.trees = .error ds' ∧
        List.Forall₂ (FindingTwins source source' told (tokens.zip tokens')) ds ds' := by
  obtain ⟨hlast, hlast', -, hall⟩ := exists_abreast ht ht' hw hb
  obtain ⟨hl, hr, hwords⟩ := exists_pairs hw
  obtain ⟨hfaults, htwins⟩ := twins_assemble (fun p hp => ⟨hp, hall p hp⟩) hlast hlast'
    (.nil : FrameTwins (tokens.zip tokens') [] [] []) .nil
  rw [hl, hr] at hfaults htwins
  unfold Source.trees Source.treesOf
  simp only [ht, ht']
  cases hf : (assemble [] [] (tokens ++ [last])).faults with
  | nil =>
    rw [hf] at hfaults
    rw [List.forall₂_nil_left_iff.mp hfaults]
    exact .inl ⟨_, _, rfl, rfl, by simpa using htwins hf⟩
  | cons fault faults =>
    rw [hf] at hfaults
    generalize (assemble [] [] (tokens' ++ [last'])).faults = faults' at hfaults
    cases hfaults with
    | cons hfault hrest =>
      refine .inr ⟨_, _, rfl, rfl, ?_⟩
      rw [List.forall₂_map_left_iff, List.forall₂_map_right_iff]
      exact (List.Forall₂.cons hfault hrest).imp fun _ _ h => h.finding hwords

/-- Texts with the same words and line breaks are converted side by side: either their layouts show
the same, or the same is found in them. -/
theorem Source.convert_twins (ht : source.tokens = .ok (tokens ++ [last]))
    (ht' : source'.tokens = .ok (tokens' ++ [last']))
    (hw : tokens.map Token.word = tokens'.map Token.word)
    (hb : lineBreaks source tokens = lineBreaks source' tokens')
    (hc : ∀ trees trees', source.trees = .ok trees → source'.trees = .ok trees' →
      ∀ l l', ListedBeside trees trees' l l' → Comparable source source' told l l') :
    (∃ trees trees', source.trees = .ok trees ∧ source'.trees = .ok trees' ∧
        (source.layout rules trees).fault = none ∧ (source'.layout rules trees').fault = none ∧
        Woven source source' (tokens.zip tokens') (source.layout rules trees).events
          (source'.layout rules trees').events) ∨
      ∃ failure failure', (source.convert rules).result = .error failure ∧
        (source'.convert rules).result = .error failure' ∧
        List.Forall₂ (FindingTwins source source' told (tokens.zip tokens'))
          failure.diagnostics failure'.diagnostics := by
  obtain ⟨-, -, habreast, -⟩ := exists_abreast ht ht' hw hb
  obtain ⟨trees, trees', htrees, htrees', htwins⟩ | ⟨ds, ds', htrees, htrees', hds⟩ :=
    trees_twins told ht ht' hw hb
  · obtain ⟨hf, hf', hwoven⟩ | ⟨fault, fault', hf, hf', hfault⟩ :=
      layout_twins rules habreast htwins (hc trees trees' htrees htrees')
    · exact .inl ⟨trees, trees', htrees, htrees', hf, hf', hwoven⟩
    · refine .inr ⟨_, _, source.convert_of_fault rules htrees hf,
        source'.convert_of_fault rules htrees' hf', ?_⟩
      exact .cons (hfault.finding _ _) .nil
  · exact .inr ⟨_, _, source.convert_of_error rules htrees, source'.convert_of_error rules htrees',
      hds⟩

end Conversions

/-! ## Columns ordered alike -/

/-- The columns of the significant items of two lists compare the same way, and the same items
stand at column zero. -/
def AlignedAlike (source source' : Source) (items items' : List Tree) : Prop :=
  ∀ p ∈ (significant source items).zip (significant source' items'),
    ((source.resolve p.1.span).start.column = 0 ↔ (source'.resolve p.2.span).start.column = 0) ∧
      ∀ q ∈ (significant source items).zip (significant source' items'),
        compare (source.resolve p.1.span).start.column (source.resolve q.1.span).start.column =
          compare (source'.resolve p.2.span).start.column (source'.resolve q.2.span).start.column

theorem mem_of_mem_significant {source : Source} {items : List Tree} {tree : Tree}
    (h : tree ∈ significant source items) : tree ∈ items := by
  induction items with
  | nil => simp [significant] at h
  | cons a items ih =>
    cases items with
    | nil => simp [significant] at h
    | cons b rest =>
      rw [significant] at h
      split at h
      · rcases List.mem_cons.mp h with rfl | h
        · exact List.mem_cons_of_mem a List.mem_cons_self
        · exact List.mem_cons_of_mem a (ih h)
      · exact List.mem_cons_of_mem a (ih h)

theorem Layout.ListedBeside.listedIn {trees trees' l l' : List Tree} (h : ListedBeside trees trees' l l') :
    ListedIn trees l ∧ ListedIn trees' l' := by
  induction h with
  | whole => exact ⟨.whole, .whole⟩
  | inside _ hm ih =>
    obtain ⟨hl, hr⟩ := List.of_mem_zip hm
    exact ⟨.inside ih.1 hl, .inside ih.2 hr⟩

theorem comparable_of_alignedAlike {source source' : Source} {items items' : List Tree}
    (hn : ∀ tree ∈ items, 0 ≤ (source.resolve tree.span).start.column)
    (hn' : ∀ tree ∈ items', 0 ≤ (source'.resolve tree.span).start.column)
    (h : AlignedAlike source source' items items') :
    Comparable source source' (fun _ _ => True) items items' := by
  let pairs := (significant source items).zip (significant source' items')
  have hpos (p : Tree × Tree) (hp : p ∈ pairs) :
      0 ≤ (source.resolve p.1.span).start.column ∧ 0 ≤ (source'.resolve p.2.span).start.column := by
    obtain ⟨hl, hr⟩ := List.of_mem_zip hp
    exact ⟨hn _ (mem_of_mem_significant hl), hn' _ (mem_of_mem_significant hr)⟩
  refine ⟨fun c c' => c = 0 ∧ c' = 0 ∨ ∃ p ∈ pairs, c = (source.resolve p.1.span).start.column ∧
    c' = (source'.resolve p.2.span).start.column, ?_, .inl ⟨rfl, rfl⟩, fun _ _ _ => True.intro,
    fun p hp => .inr ⟨p, hp, rfl, rfl⟩⟩
  rintro c c' d d' (⟨rfl, rfl⟩ | ⟨p, hp, rfl, rfl⟩) (⟨rfl, rfl⟩ | ⟨q, hq, rfl, rfl⟩)
  · exact Iff.rfl
  · have hzero := (h q hq).1
    have hq0 := hpos q hq
    omega
  · have hp0 := hpos p hp
    omega
  · have hcompare := (h p hp).2 q hq
    rw [← Int.compare_eq_lt, ← Int.compare_eq_lt, hcompare]

/-- Where the columns of two texts with the same words and line breaks are ordered alike, both are
written as the same tokens with the same punctuation between them; or neither is converted, and
diagnostics with the same codes point at the same tokens. -/
theorem Source.convert_reindented {source source' : Source} (rules : Rules)
    {tokens tokens' : List Token} {last last' : Token}
    (ht : source.tokens = .ok (tokens ++ [last])) (ht' : source'.tokens = .ok (tokens' ++ [last']))
    (hw : tokens.map Token.word = tokens'.map Token.word)
    (hb : lineBreaks source tokens = lineBreaks source' tokens')
    (ha : ∀ trees trees', source.trees = .ok trees → source'.trees = .ok trees' →
      ∀ l l', ListedBeside trees trees' l l' → AlignedAlike source source' l l') :
    (∃ out out' trees trees', (source.convert rules).result = .ok out ∧
        (source'.convert rules).result = .ok out' ∧
        source.trees = .ok trees ∧ source'.trees = .ok trees' ∧
        (source.layout rules trees).events.map Event.outline =
          (source'.layout rules trees').events.map Event.outline) ∨
      ∃ failure failure', (source.convert rules).result = .error failure ∧
        (source'.convert rules).result = .error failure' ∧
        List.Forall₂ (fun d d' => d'.code = d.code ∧
          SamePlace source source' (tokens.zip tokens') d d')
          failure.diagnostics failure'.diagnostics := by
  have hc (trees trees' : List Tree) (h : source.trees = .ok trees)
      (h' : source'.trees = .ok trees') (l l' : List Tree)
      (hl : ListedBeside trees trees' l l') : Comparable source source' (fun _ _ => True) l l' := by
    obtain ⟨hin, hin'⟩ := hl.listedIn
    exact comparable_of_alignedAlike
      (fun tree hm => ((source.items_in_order h hin).2 tree hm).2)
      (fun tree hm => ((source'.items_in_order h' hin').2 tree hm).2)
      (ha trees trees' h h' l l' hl)
  obtain ⟨trees, trees', h, h', hf, hf', hwoven⟩ | ⟨failure, failure', h, h', hfound⟩ :=
    Source.convert_twins rules ht ht' hw hb hc
  · exact .inl ⟨_, _, trees, trees', (source.convert_eq_ok_iff rules _).mpr ⟨trees, h, hf, rfl⟩,
      (source'.convert_eq_ok_iff rules _).mpr ⟨trees', h', hf', rfl⟩, h, h', hwoven.outline⟩
  · exact .inr ⟨failure, failure', h, h', hfound.imp fun _ _ hd => ⟨hd.code, hd.place⟩⟩

def narrowText : Source := Source.ofText "narrow" "f =>\n  (a\n   b)\n  h\nk\n".toList

def wideText : Source := Source.ofText "wide" "f =>\n     (a\n b)\n     h\nk\n".toList

/-- What stands in the brackets of both texts, and where. -/
def bracketed (a b : Span) : List Tree :=
  [.leaf ⟨.identifier, ['a'], a⟩, .leaf ⟨.identifier, ['b'], b⟩]

def blockWithBrackets (f arrow o a b c h k : Span) : List Tree :=
  [.leaf ⟨.identifier, ['f'], f⟩, .leaf ⟨.fatArrow, fatArrow, arrow⟩,
    .group .paren o c (bracketed a b), .leaf ⟨.identifier, ['h'], h⟩,
    .leaf ⟨.identifier, ['k'], k⟩]

theorem trees_narrowText : narrowText.trees = .ok (blockWithBrackets ⟨0, 1⟩ ⟨2, 4⟩ ⟨7, 8⟩ ⟨8, 9⟩
    ⟨13, 14⟩ ⟨14, 15⟩ ⟨18, 19⟩ ⟨20, 21⟩) := rfl

theorem trees_wideText : wideText.trees = .ok (blockWithBrackets ⟨0, 1⟩ ⟨2, 4⟩ ⟨10, 11⟩ ⟨11, 12⟩
    ⟨14, 15⟩ ⟨15, 16⟩ ⟨22, 23⟩ ⟨24, 25⟩) := rfl

theorem listedBeside_blockWithBrackets {f arrow o a b c h k f' arrow' o' a' b' c' h' k' : Span}
    {l l' : List Tree} (hl : ListedBeside (blockWithBrackets f arrow o a b c h k)
      (blockWithBrackets f' arrow' o' a' b' c' h' k') l l') :
    l = blockWithBrackets f arrow o a b c h k ∧
        l' = blockWithBrackets f' arrow' o' a' b' c' h' k' ∨
      l = bracketed a b ∧ l' = bracketed a' b' := by
  induction hl with
  | whole => exact .inl ⟨rfl, rfl⟩
  | inside _ hm ih =>
    rcases ih with ⟨rfl, rfl⟩ | ⟨rfl, rfl⟩
    · simp only [blockWithBrackets, List.zip_cons_cons, List.zip_nil_right, List.mem_cons,
        Prod.mk.injEq, reduceCtorEq, Tree.group.injEq, List.not_mem_nil, and_self, false_or,
        or_false] at hm
      obtain ⟨⟨-, -, -, rfl⟩, -, -, -, rfl⟩ := hm
      exact .inr ⟨rfl, rfl⟩
    · simp [bracketed] at hm

theorem wideText_reindented :
    let rules : Rules := ⟨[], [], .always, false⟩
    (narrowText.convert rules).result = .ok "f => \x7b\n  (a\n   b);\n  h \x7d\nk\n".toList ∧
      (wideText.convert rules).result =
        .ok "f => \x7b\n     (a\n b);\n     h \x7d\nk\n".toList ∧
      ∃ trees trees', narrowText.trees = .ok trees ∧ wideText.trees = .ok trees' ∧
        (narrowText.layout rules trees).events.map Event.outline =
          (wideText.layout rules trees').events.map Event.outline := by
  intro rules
  have hnarrow : (narrowText.convert rules).result =
      .ok "f => \x7b\n  (a\n   b);\n  h \x7d\nk\n".toList := by decide +kernel
  have ht : narrowText.tokens =
      .ok (tokensAt 0 (pieces narrowText.chars) ++ [endToken narrowText.chars.length]) := rfl
  have ht' : wideText.tokens =
      .ok (tokensAt 0 (pieces wideText.chars) ++ [endToken wideText.chars.length]) := rfl
  have ha (trees trees' : List Tree) (h : narrowText.trees = .ok trees)
      (h' : wideText.trees = .ok trees') (l l' : List Tree) (hl : ListedBeside trees trees' l l') :
      AlignedAlike narrowText wideText l l' := by
    obtain rfl := Except.ok.inj (trees_narrowText.symm.trans h)
    obtain rfl := Except.ok.inj (trees_wideText.symm.trans h')
    unfold AlignedAlike
    obtain ⟨rfl, rfl⟩ | ⟨rfl, rfl⟩ := listedBeside_blockWithBrackets hl
    · decide +kernel
    · decide +kernel
  refine ⟨hnarrow, by decide +kernel, ?_⟩
  obtain ⟨_, _, trees, trees', -, -, h⟩ | ⟨failure, _, hfailed, -⟩ :=
    Source.convert_reindented rules ht ht' (by decide +kernel) (by decide +kernel) ha
  · exact ⟨trees, trees', h⟩
  · exact absurd (hnarrow.symm.trans hfailed) (by simp)

end Offside
