import Offside.Proofs.Bracing
import Offside.Proofs.Placement
import Offside.Proofs.Repetitions
import Offside.Proofs.TreeJoin

/-!
# The trees of a converted text

A converted text is read again: its brackets match, and its trees are those of the source with the
blocks put in.

- `shownOf`: the trees that are to be read where a text with its blocks is written.
- `Source.convert_braced`: the trees of a converted text.
-/
namespace Offside

set_option autoImplicit false

open Layout Braced

/-! ## What is shown -/

/-- The place of what has none in the source. -/
def nowhere : Span := ⟨0, 0⟩

def separatorToken (level : Level) : Token := ⟨.operator, level.kind.separator, nowhere⟩

namespace Layout

/-- The tokens that are to be read where an event is written. -/
def Event.tokens : Event → List Token
  | .write written _ => [written]
  | .enter _ _ => [openingToken .brace nowhere]
  | .leave _ => [closingToken .brace nowhere]
  | .separate kind => kind.separator.map fun c => ⟨.operator, [c], nowhere⟩

theorem Event.map_word_tokens (event : Event) : event.tokens.map Token.word = event.words := by
  cases event with
  | separate kind => cases kind <;> rfl
  | _ => rfl

theorem Event.tokens_separate (level : Level) :
    (Event.separate level.kind).tokens = [separatorToken level] := by
  obtain ⟨column, keyword⟩ := level
  cases keyword <;> rfl

end Layout

namespace Braced

mutual

/-- The trees that are to be read where a text with its blocks is written. -/
def shown : Braced → List Tree
  | token written => [.leaf written]
  | group delimiter opening closing inner => [.group delimiter opening closing (shownOf inner)]
  | block arrow kept _ _ inner =>
    (if kept then [.leaf arrow] else []) ++ [.group .brace nowhere nowhere (shownOf inner)]
  | separator level => [.leaf (separatorToken level)]
termination_by structural braced => braced

def shownOf : List Braced → List Tree
  | [] => []
  | braced :: rest => braced.shown ++ shownOf rest
termination_by structural braces => braces

end

mutual

theorem repetitionFree_items : ∀ braced : Braced, RepetitionFree braced.items
  | token written => .leaf written .nil
  | group delimiter opening closing inner =>
    .group delimiter opening closing (repetitionFree_itemsOf inner) .nil
  | block arrow _ _ _ inner => .leaf arrow (repetitionFree_itemsOf inner)
  | separator _ => .nil

theorem repetitionFree_itemsOf : ∀ braces : List Braced, RepetitionFree (itemsOf braces)
  | [] => .nil
  | braced :: rest => (repetitionFree_items braced).append (repetitionFree_itemsOf rest)

end

variable (source : Source)

mutual

/-- What is shown is spelled by the tokens of the events. -/
theorem spells_shown : ∀ (braced : Braced) {tokens : List Token}, Spells braced.items tokens →
    Spells braced.shown ((braced.events source).flatMap Event.tokens)
  | token written, _, h => by
    cases h with
    | leaf hl _ => exact .leaf hl .nil
  | group delimiter opening closing inner, _, h => by
    cases h with
    | group _ _ _ hi _ =>
      have hinner := spells_shownOf inner hi
      simpa [events, shown, Event.tokens] using
        Spells.group delimiter opening closing hinner .nil
  | block arrow kept level dedent inner, _, h => by
    cases h with
    | leaf hl hi =>
      have hinner := spells_shownOf inner hi
      have hgroup := Spells.group .brace nowhere nowhere hinner .nil
      cases kept with
      | true => simpa [events, shown, Event.tokens] using Spells.leaf hl hgroup
      | false => simpa [events, shown, Event.tokens] using hgroup
  | separator level, _, _ => by
    have hl : (separatorToken level).IsLeaf := ⟨nofun, nofun, nofun⟩
    rw [events, List.flatMap_singleton, Event.tokens_separate]
    exact .leaf hl .nil

theorem spells_shownOf : ∀ (braces : List Braced) {tokens : List Token},
    Spells (itemsOf braces) tokens →
    Spells (shownOf braces) ((eventsOf source braces).flatMap Event.tokens)
  | [], _, _ => .nil
  | braced :: rest, _, h => by
    obtain ⟨ts, us, -, hfirst, hrest⟩ := h.of_append
    rw [shownOf, eventsOf, List.flatMap_append]
    exact (spells_shown braced hfirst).append (spells_shownOf rest hrest)

end

/-! ## Nothing put in makes a repetition -/

theorem isRepeat_separatorToken (level : Level) : (separatorToken level).isRepeat = false := by
  obtain ⟨column, keyword⟩ := level
  cases keyword <;> rfl

theorem isDollar_separatorToken (level : Level) : (separatorToken level).isDollar = false := by
  obtain ⟨column, keyword⟩ := level
  cases keyword <;> rfl

/-- A token that is shown first is one of the source, a separator, or an arrow before its block. -/
theorem shownOf_eq_leaf_cons {braces : List Braced} {first : Token} {trees : List Tree}
    (h : shownOf braces = .leaf first :: trees) :
    (∃ rest, braces = .token first :: rest ∧ trees = shownOf rest) ∨
      (∃ level rest, braces = .separator level :: rest ∧ first = separatorToken level ∧
        trees = shownOf rest) ∨
      ∃ rest inner more, itemsOf braces = .leaf first :: rest ∧
        trees = .group .brace nowhere nowhere inner :: more := by
  cases braces with
  | nil => simp [shownOf] at h
  | cons braced rest =>
    cases braced with
    | token written =>
      obtain ⟨hfirst, rfl⟩ := List.cons.inj h
      obtain rfl := Tree.leaf.inj hfirst
      exact .inl ⟨rest, rfl, rfl⟩
    | group d o c inner => simp [shownOf, shown] at h
    | separator level =>
      obtain ⟨hfirst, rfl⟩ := List.cons.inj h
      obtain rfl := Tree.leaf.inj hfirst
      exact .inr (.inl ⟨level, rest, rfl, rfl, rfl⟩)
    | block arrow kept level dedent inner =>
      cases kept with
      | false => simp [shownOf, shown] at h
      | true =>
        obtain ⟨hfirst, rfl⟩ := List.cons.inj h
        obtain rfl := Tree.leaf.inj hfirst
        exact .inr (.inr ⟨_, _, _, rfl, rfl⟩)

/-- An operator that is shown first stands first in the source. -/
theorem exists_of_isRepeat {braces : List Braced} {operator : Token} {trees : List Tree}
    (h : shownOf braces = .leaf operator :: trees) (ho : operator.isRepeat = true) :
    ∃ rest, itemsOf braces = .leaf operator :: rest := by
  obtain ⟨rest, rfl, -⟩ | ⟨level, rest, -, rfl, -⟩ | ⟨rest, _, _, hitems, -⟩ :=
    shownOf_eq_leaf_cons h
  · exact ⟨_, rfl⟩
  · simp [isRepeat_separatorToken] at ho
  · exact ⟨rest, hitems⟩

theorem repeats_itemsOf {braces : List Braced} (h : Repeats (shownOf braces)) :
    Repeats (itemsOf braces) := by
  generalize hshown : shownOf braces = shown at h
  cases h with
  | plain ho trees =>
    obtain ⟨rest, hitems⟩ := exists_of_isRepeat hshown ho
    rw [hitems]
    exact .plain ho rest
  | @parted separator operator ho trees =>
    obtain ⟨rest, rfl, hrest⟩ | ⟨level, rest, rfl, -, hrest⟩ | ⟨_, _, _, -, hrest⟩ :=
      shownOf_eq_leaf_cons hshown
    · obtain ⟨more, hitems⟩ := exists_of_isRepeat hrest.symm ho
      rw [itemsOf, hitems]
      exact .parted separator ho more
    · obtain ⟨more, hitems⟩ := exists_of_isRepeat hrest.symm ho
      rw [itemsOf, hitems]
      exact .plain ho more
    · simp at hrest

theorem repetition?_shownOf {dollar : Token} {braces : List Braced}
    (h : Tree.repetition? (.leaf dollar) (itemsOf braces) = none) :
    Tree.repetition? (.leaf dollar) (shownOf braces) = none := by
  rw [← Option.not_isSome_iff_eq_none, repetition?_isSome_iff] at h ⊢
  rintro ⟨hd, o, c, inner, rest, hshown, hrest⟩
  cases braces with
  | nil => simp [shownOf] at hshown
  | cons braced more =>
    cases braced with
    | token written => simp [shownOf, shown] at hshown
    | separator level => simp [shownOf, shown] at hshown
    | block arrow kept level dedent inner => cases kept <;> simp [shownOf, shown] at hshown
    | group d opening closing content =>
      simp only [shownOf, shown, List.singleton_append, List.cons.injEq, Tree.group.injEq] at hshown
      obtain ⟨⟨rfl, -⟩, rfl⟩ := hshown
      exact h ⟨hd, opening, closing, _, _, rfl, repeats_itemsOf hrest⟩

/-- No repetition begins in what is shown where none begins in the source. -/
theorem settled_shownOf : ∀ {braces : List Braced}, Settled (itemsOf braces) →
    Settled (shownOf braces)
  | [], _ => .nil
  | .token written :: rest, h => by
    cases h with
    | leaf hr h => exact .leaf (repetition?_shownOf hr) (settled_shownOf h)
  | .group d o c inner :: rest, h => by
    cases h with
    | group _ _ _ hi h => exact .group d o c (settled_shownOf hi) (settled_shownOf h)
  | .block arrow kept level dedent inner :: rest, h => by
    cases h with
    | leaf _ h =>
      obtain ⟨hi, hrest⟩ := h.of_append
      have hgroup : Settled (.group .brace nowhere nowhere (shownOf inner) :: shownOf rest) :=
        .group .brace nowhere nowhere (settled_shownOf hi) (settled_shownOf hrest)
      cases kept with
      | false => exact hgroup
      | true => exact .leaf rfl hgroup
  | .separator level :: rest, h => by
    refine .leaf ?_ (settled_shownOf h)
    rw [← Option.not_isSome_iff_eq_none, repetition?_isSome_iff, isDollar_separatorToken]
    simp

end Braced

/-! ## Reading a converted text -/

namespace Layout

def Event.isEnter : Event → Bool
  | .enter _ _ => true
  | _ => false

/-- As many blocks open as there are arrows. -/
theorem countP_isEnter {source : Source} {policy : MarkerPolicy} {tokens : List Token}
    {events : List Event} (h : Weaves source policy tokens events) :
    events.countP Event.isEnter = tokens.countP (·.kind = .fatArrow) := by
  induction h with
  | nil => rfl
  | @pause event tokens events hp _ ih =>
    cases event with
    | write token region => exact hp.elim
    | enter level line => exact hp.elim
    | leave dedent => simpa [Event.isEnter] using ih
    | separate kind => simpa [Event.isEnter] using ih
  | write hk _ ih => simpa [List.countP_cons, Event.isEnter, hk] using ih
  | enter level line hk _ ih => simpa [List.countP_cons, Event.isEnter, hk] using ih
  | enterOnly level line hk _ _ ih => simpa [List.countP_cons, Event.isEnter, hk] using ih

theorem isSpelled_of_weaves {source : Source} {policy : MarkerPolicy} {tokens : List Token}
    {events : List Event} (h : Weaves source policy tokens events)
    (hs : ∀ token ∈ tokens, token.IsSpelled) :
    ∀ token ∈ events.flatMap Event.tokens, token.IsSpelled := by
  intro token hm
  obtain ⟨event, he, hm⟩ := List.mem_flatMap.mp hm
  cases event with
  | write written region =>
    obtain rfl : token = written := by simpa [Event.tokens] using hm
    exact hs token (h.written_sublist.subset (List.mem_filterMap.mpr ⟨_, he, rfl⟩))
  | enter level line =>
    obtain rfl : token = openingToken .brace nowhere := by simpa [Event.tokens] using hm
    exact .inr (.inl ⟨rfl, _, rfl, rfl⟩)
  | leave dedent =>
    obtain rfl : token = closingToken .brace nowhere := by simpa [Event.tokens] using hm
    exact .inr (.inr (.inl ⟨rfl, _, rfl, rfl⟩))
  | separate kind =>
    obtain ⟨c, -, rfl⟩ := List.mem_map.mp hm
    exact .inl rfl

end Layout

/-- In the trees of a source without repetitions none begins. -/
theorem Source.settled_trees (source : Source) {trees : List Tree} (ht : source.trees = .ok trees)
    (hf : RepetitionFree trees) : Settled trees := by
  obtain ⟨tokens, htokens, hno, rfl⟩ := (source.trees_eq_ok_iff trees).mp ht
  obtain ⟨hs, rfl⟩ := (source.tokens_eq_ok_iff tokens).mp htokens
  obtain ⟨raw, hraw⟩ := exists_nests (isMarked_tokensAt hs) rfl hno
  rw [hraw.assemble_eq_gather rfl] at hf ⊢
  obtain ⟨hgather, hsettled⟩ := hraw.settled hf
  rwa [hgather]

/-- What weaves the tokens of a source is read again: each token that is read has the word of the
one that was to be read there. -/
theorem Source.exists_written (source : Source) {policy : MarkerPolicy} {events : List Event}
    (hs : ∀ piece ∈ pieces source.chars, piece.IsSound)
    (hw : Weaves source policy (tokensAt 0 (pieces source.chars)) events) (emitter : Emitter)
    (name : String) :
    ∃ pairs : List Pair, pairs.map Prod.fst = events.flatMap Event.tokens ∧
      (Source.ofText name (emitter.output events)).tokens =
        .ok (pairs.map Prod.snd ++ [endToken (emitter.output events).length]) ∧
      ∀ p ∈ pairs, p.1.word = p.2.word := by
  obtain ⟨qs, hq, -⟩ := exists_readsAs_of_weaves hw emitter (legible_pieces source.chars hs) rfl
  have htokens := Source.tokens_of_legible name hq.legible hq.sound
  rw [hq.text_eq] at htokens
  have hwords : (events.flatMap Event.tokens).map Token.word = (tokensAt 0 qs).map Token.word := by
    rw [map_word_tokensAt, hq.words_eq, List.map_flatMap]
    exact List.flatMap_congr fun event _ => event.map_word_tokens
  obtain ⟨hfst, hsnd, hword⟩ := exists_pairs hwords
  exact ⟨_, hfst, by rw [hsnd]; exact htokens, hword⟩

/-- Tokens with the words of what is shown are assembled into twins of it. -/
theorem Twins.repetitionFree {trees trees' : List Tree} {ps : List Pair}
    (h : Twins trees trees' ps) (hf : RepetitionFree trees) : RepetitionFree trees' := by
  induction h with
  | nil => exact .nil
  | leaf hw _ ih =>
    cases hf with
    | leaf _ hf => exact .leaf _ (ih hf)
  | group d o o' c c' _ _ ihi ih =>
    cases hf with
    | group _ _ _ hi hf => exact .group d o' c' (ihi hi) (ih hf)
  | repetition => cases hf

theorem twins_of_spells {shown : List Tree} {pairs : List Pair}
    (hsp : Spells shown (pairs.map Prod.fst)) (hsettled : Settled shown)
    (hspelled : ∀ token ∈ pairs.map Prod.fst, token.IsSpelled)
    (hword : ∀ p ∈ pairs, p.1.word = p.2.word) {last : Token} (hl : last.kind = .endOfText) :
    (assemble [] [] (pairs.map Prod.snd ++ [last])).faults = [] ∧
      Twins shown (assemble [] [] (pairs.map Prod.snd ++ [last])).trees pairs := by
  have hpairs (p : Pair) (hp : p ∈ pairs) : p ∈ pairs ∧ p.1.word = p.2.word ∧ p.1.IsSpelled :=
    ⟨hp, hword p hp, hspelled p.1 (List.mem_map_of_mem hp)⟩
  obtain ⟨hfaults, htwins⟩ := twins_assemble hpairs hl hl .nil .nil
  have hshown : assemble [] [] (pairs.map Prod.fst ++ [last]) = ⟨[], shown⟩ := by
    rw [(hsp.nests hsettled).assemble_eq_gather hl, hsettled.gather_eq]
  rw [hshown] at hfaults htwins
  exact ⟨List.forall₂_nil_left_iff.mp hfaults, by simpa using htwins rfl⟩

/-- The brackets of a converted text match. Its trees are those of the source with a block put in
behind every arrow and separators into the blocks, and without some of the arrows: the source is
left where all this is taken back. -/
theorem Source.convert_braced (source : Source) (rules : Rules) {out : List Char}
    (h : (source.convert rules).result = .ok out) (name : String) :
    ∃ tokens trees braces written pairs,
      source.tokens = .ok (tokens ++ [endToken source.chars.length]) ∧
      source.trees = .ok trees ∧
      (source.layout rules trees).events = eventsOf source braces ∧
      itemsOf braces = trees ∧
      (source.layout rules trees).events.countP Event.isEnter =
        tokens.countP (·.kind = .fatArrow) ∧
      pairs.map Prod.fst = (source.layout rules trees).events.flatMap Event.tokens ∧
      (Source.ofText name out).tokens = .ok (pairs.map Prod.snd ++ [endToken out.length]) ∧
      (Source.ofText name out).trees = .ok written ∧
      Twins (shownOf braces) written pairs ∧
      RepetitionFree written := by
  obtain ⟨trees, ht, hf, rfl⟩ := (source.convert_eq_ok_iff rules out).mp h
  obtain ⟨hs, hsp⟩ := source.spells_trees ht
  have hw := weaves_of_layoutItems source rules hsp Scope.fresh hf
  obtain ⟨braces, hevents, rfl, -, -⟩ := exists_braces source rules hsp hf
  have hfree : RepetitionFree (itemsOf braces) := Braced.repetitionFree_itemsOf braces
  have hsettled := Braced.settled_shownOf (source.settled_trees ht hfree)
  obtain ⟨pairs, hfst, htokens, hword⟩ :=
    source.exists_written hs hw (Emitter.fresh rules.preserveBlankLines) name
  have hshown := Braced.spells_shownOf source braces hsp
  rw [← hevents, ← hfst] at hshown
  have hspelled := isSpelled_of_weaves hw
    (isSpelled_tokensAt 0 (legible_pieces source.chars hs))
  have hlast : (endToken ((Emitter.fresh rules.preserveBlankLines).output
      (source.layout rules (itemsOf braces)).events).length).kind = .endOfText := rfl
  obtain ⟨hno, htwins⟩ := twins_of_spells hshown hsettled (hfst ▸ hspelled) hword hlast
  exact ⟨_, _, braces, _, pairs, (source.tokens_eq_ok_iff _).mpr ⟨hs, rfl⟩, ht, hevents, rfl,
    countP_isEnter hw, hfst, htokens, (Source.trees_eq_ok_iff _ _).mpr ⟨_, htokens, hno, rfl⟩,
    htwins, htwins.repetitionFree hsettled.repetitionFree⟩

theorem bracedText_braced :
    let rules : Rules := ⟨["match".toList], [], .selector, false⟩
    let out :=
      ("a \x7b\n    match b \x7b\n        1 => \x7b (c \x7b \x7d   ) \x7d,\n" ++
        "        2 => \x7b 3 \x7d \x7d;\n    d \x7b \x7d \x7d\n").toList
    (bracedText.convert rules).result = .ok out ∧
      ∃ tokens trees braces written pairs,
        bracedText.tokens = .ok (tokens ++ [endToken bracedText.chars.length]) ∧
        bracedText.trees = .ok trees ∧
        (bracedText.layout rules trees).events = eventsOf bracedText braces ∧
        itemsOf braces = trees ∧
        (bracedText.layout rules trees).events.countP Event.isEnter =
          tokens.countP (·.kind = .fatArrow) ∧
        pairs.map Prod.fst = (bracedText.layout rules trees).events.flatMap Event.tokens ∧
        (Source.ofText "out" out).tokens = .ok (pairs.map Prod.snd ++ [endToken out.length]) ∧
        (Source.ofText "out" out).trees = .ok written ∧
        Twins (shownOf braces) written pairs ∧
        RepetitionFree written := by
  intro rules out
  have h : (bracedText.convert rules).result = .ok out := by decide +kernel
  exact ⟨h, bracedText.convert_braced rules h "out"⟩

end Offside
