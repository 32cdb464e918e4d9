import Offside.Proofs.LayoutJoin
import Offside.Proofs.LineJoin
import Offside.Proofs.OutputJoin
import Offside.Proofs.Respacing
import Offside.Proofs.TreeJoin

/-!
# Converting joined texts

Two texts are joined by a line end, and the second starts at the first column. Each is converted as
it is alone: no block, keyword, line or cursor of the first reaches into the second.

- `Moved`: the same word in another text, some lines further down.
- `Below`: trees of one text and the same trees some lines further down in another.
- `Joined.exists_trees`: the trees of both texts stand one behind the other in the whole.
- `Source.convert_joined`: what the whole is converted to.
-/
namespace Offside

set_option autoImplicit false

open Layout

/-! ## Trees further down -/

/-- The tokens of a pair are the same word, the second some lines further down. -/
structure Moved (source source' : Source) (n : Nat) (p : Pair) : Prop where
  word : p.1.word = p.2.word
  region : source'.resolve p.2.span = (source.resolve p.1.span).below n

/-- Trees of a text, and the same trees some lines further down in another text. -/
structure Below (source source' : Source) (n : Nat) (all : List Pair) (trees trees' : List Tree) :
    Prop where
  moved : ∀ p ∈ all, Moved source source' n p
  abreast : Abreast source source' all
  twins : Twins trees trees' all

section Trees

variable {source source' : Source} {n : Nat} {all : List Pair} {trees trees' : List Tree}

theorem Moved.sameColumns {p : Pair} (h : Moved source source' n p) :
    SameColumns source source' p :=
  ⟨by rw [h.region]; rfl, by rw [h.region]; rfl⟩

theorem abreast_of_moved (hs : ∀ piece ∈ pieces source.chars, piece.IsSound)
    (hmem : ∀ p ∈ all, p.1 ∈ tokensAt 0 (pieces source.chars))
    (ho : InOrder (all.map Prod.fst)) (ho' : InOrder (all.map Prod.snd))
    (hm : ∀ p ∈ all, Moved source source' n p) : Abreast source source' all := by
  have hheight (p : Pair) (hp : p ∈ all) : SameHeight source source' p := by
    have hstop := stop_line_of_mem_tokensAt hs (hmem p hp)
    refine ⟨p.1.text.count '\n', hstop, ?_⟩
    rw [(hm p hp).region]
    simp only [Region.below, Position.below]
    omega
  have hle : all.Pairwise fun p q =>
      (source.resolve p.1.span).stop.line ≤ (source.resolve q.1.span).start.line :=
    List.pairwise_map.mp (stop_line_le source ho)
  refine ⟨ho, ho', hheight, hle.imp_of_mem fun {p q} hp hq hpq => ?_⟩
  have hstop : (source'.resolve p.2.span).stop.line = (source.resolve p.1.span).stop.line + n := by
    rw [(hm p hp).region]
    rfl
  have hstart :
      (source'.resolve q.2.span).start.line = (source.resolve q.1.span).start.line + n := by
    rw [(hm q hq).region]
    rfl
  exact ⟨hpq, by omega, by omega⟩

/-- Where the words of a text stand some lines further down in another, so do its trees. -/
theorem below_assemble (elsewhere : Token → Token)
    (he : ∀ token, (elsewhere token).word = token.word) (ht : source.trees = .ok trees)
    (ho : InOrder ((tokensAt 0 (pieces source.chars)).map elsewhere))
    (hr : ∀ token ∈ tokensAt 0 (pieces source.chars),
      source'.resolve (elsewhere token).span = (source.resolve token.span).below n)
    {last : Token} (hl : last.kind = .endOfText) :
    let moved := assemble [] [] ((tokensAt 0 (pieces source.chars)).map elsewhere ++ [last])
    moved.faults = [] ∧ Below source source' n
      ((tokensAt 0 (pieces source.chars)).map fun token => (token, elsewhere token)) trees
      moved.trees := by
  obtain ⟨_, htokens, hno, rfl⟩ := (source.trees_eq_ok_iff trees).mp ht
  obtain ⟨hs, rfl⟩ := (source.tokens_eq_ok_iff _).mp htokens
  have hlegible := legible_pieces source.chars hs
  obtain ⟨hno', htwins⟩ :=
    twins_assemble_map elsewhere he (isSpelled_tokensAt 0 hlegible) rfl hl hno
  have hmem (p : Pair)
      (hp : p ∈ (tokensAt 0 (pieces source.chars)).map fun token => (token, elsewhere token)) :
      p.1 ∈ tokensAt 0 (pieces source.chars) ∧ Moved source source' n p := by
    obtain ⟨token, hm, rfl⟩ := List.mem_map.mp hp
    exact ⟨hm, (he token).symm, hr token hm⟩
  refine ⟨hno', fun p hp => (hmem p hp).2, ?_, htwins⟩
  refine abreast_of_moved hs (fun p hp => (hmem p hp).1) ?_ ?_ fun p hp => (hmem p hp).2
  · simpa [Function.comp_def] using (inOrder_tokensAt 0 hlegible).1
  · simpa [Function.comp_def] using ho

theorem Below.resolve_item (h : Below source source' n all trees trees') {p : Tree × Tree}
    (hp : p ∈ trees.zip trees') :
    source'.resolve p.2.span = (source.resolve p.1.span).below n := by
  obtain ⟨first, hf, last, hl, hr, hr'⟩ :=
    regionPair_of_mem_zip h.abreast h.twins (List.Sublist.refl all) hp
  rw [hr', hr, (h.moved first hf).region, (h.moved last hl).region]
  rfl

/-- Trees further down are laid out as they are, and the same is put out for them. -/
theorem Below.layout (h : Below source source' n all trees trees') (rules : Rules)
    (hf : (source.layout rules trees).fault = none) :
    (source'.layout rules trees').fault = none ∧
      (Emitter.fresh false).output (source'.layout rules trees').events =
        (Emitter.fresh false).output (source.layout rules trees).events := by
  have hcolumns (p : Pair) (hp : p ∈ all) : SameColumns source source' p :=
    (h.moved p hp).sameColumns
  obtain ⟨-, hf', hwoven⟩ | ⟨fault, _, hfault, -⟩ := layout_twins rules h.abreast h.twins
    fun l l' hl => comparable_of_sameColumns h.abreast hcolumns h.twins hl
  · exact ⟨hf', output_twins hwoven h.abreast.follows hcolumns⟩
  · exact absurd (hf.symm.trans hfault) (by simp)

end Trees

/-! ## Trees of the whole -/

namespace Joined

variable {first second whole : Source}

/-- The trees of both texts stand one behind the other in the whole. -/
theorem exists_trees (h : Joined first second whole) {trees more : List Tree}
    (ht : first.trees = .ok trees) (ht' : second.trees = .ok more)
    (hd : ∀ token ∈ tokensAt 0 (pieces first.chars), token.isDollar = false) :
    ∃ more', whole.trees = .ok (trees ++ more') ∧
      Below first whole 0 ((tokensAt 0 (pieces first.chars)).map fun token => (token, token))
        trees trees ∧
      Below second whole (height first)
        ((tokensAt 0 (pieces second.chars)).map fun token => (token, behind first token))
        more more' ∧
      Spells more' ((tokensAt 0 (pieces second.chars)).map (behind first)) := by
  obtain ⟨_, htokens, hno, rfl⟩ := (first.trees_eq_ok_iff trees).mp ht
  obtain ⟨hs, rfl⟩ := (first.tokens_eq_ok_iff _).mp htokens
  obtain ⟨hs', -⟩ := second.spells_trees ht'
  have hwhole := h.tokensAt_whole hs
  have hsound := h.isSound_whole hs hs'
  have ho := (inOrder_tokensAt 0 (legible_pieces whole.chars hsound)).1
  have hmarked := Source.isMarked_tokensAt hsound
  rw [hwhole] at ho hmarked
  have hbehind (token : Token) (hm : token ∈ (tokensAt 0 (pieces second.chars)).map (behind first)) :
      token.IsMarked := hmarked token (List.mem_append_right _ hm)
  let last := endToken whole.chars.length
  obtain ⟨hno', hbelow⟩ := below_assemble (behind first) (fun _ => rfl) ht'
    (ho.sublist (List.sublist_append_right _ _)) (fun token hm => h.resolve_second hs' hm)
    (rfl : last.kind = .endOfText)
  have hspells := spells_of_assemble hbehind (rfl : last.kind = .endOfText) hno'
  obtain ⟨-, hfirst⟩ := below_assemble (fun token => token) (fun _ => rfl) ht
    (by simpa using ho.sublist (List.sublist_append_left _ _))
    (fun token hm => (h.resolve_first hs hm).trans (Region.below_zero _).symm)
    (rfl : (endToken first.chars.length).kind = .endOfText)
  rw [List.map_id'] at hfirst
  have hjoined := assemble_joined
    (fun token hm => ⟨hmarked token (List.mem_append_left _ hm), hd token hm⟩) hbehind rfl
    (rfl : last.kind = .endOfText) hno hno'
  have hwholetokens : whole.tokens = .ok (tokensAt 0 (pieces first.chars) ++
      ((tokensAt 0 (pieces second.chars)).map (behind first) ++ [last])) := by
    refine (whole.tokens_eq_ok_iff _).mpr ⟨hsound, ?_⟩
    rw [hwhole, List.append_assoc]
  have hwholetrees := (whole.trees_eq_ok_iff _).mpr ⟨_, hwholetokens, by rw [hjoined], rfl⟩
  rw [hjoined] at hwholetrees
  exact ⟨_, hwholetrees, hfirst, hbelow, hspells⟩

end Joined

/-! ## Converting the whole -/

theorem mem_zip_self {α : Type} {l : List α} {a : α} (h : a ∈ l) : (a, a) ∈ l.zip l := by
  induction l with
  | nil => simp at h
  | cons b l ih =>
    rw [List.zip_cons_cons]
    rcases List.mem_cons.mp h with rfl | h
    · exact List.mem_cons_self
    · exact List.mem_cons_of_mem _ (ih h)

namespace Joined

variable {first second whole : Source} {trees items items' : List Tree} {rules : Rules}
  (h : Joined first second whole) (hs : ∀ piece ∈ pieces first.chars, piece.IsSound)
  (hs' : ∀ piece ∈ pieces second.chars, piece.IsSound)

include hs in
/-- The items of the first text stand where they stood, above the second. -/
theorem resolve_item_first
    (hb : Below first whole 0 ((tokensAt 0 (pieces first.chars)).map fun token => (token, token))
      trees trees) {tree : Tree} (hm : tree ∈ trees) :
    whole.resolve tree.span = first.resolve tree.span ∧
      (first.resolve tree.span).stop.line < height first := by
  have hzip := mem_zip_self hm
  obtain ⟨_, -, last, hl, hr, -⟩ :=
    regionPair_of_mem_zip hb.abreast hb.twins (List.Sublist.refl _) hzip
  obtain ⟨token, ht, rfl⟩ := List.mem_map.mp hl
  refine ⟨(hb.resolve_item hzip).trans (Region.below_zero _), ?_⟩
  rw [hr]
  exact stop_line_lt hs ht

include h hs' in
/-- The first item of the second text starts at the first column if its first token does, below
the first text. -/
theorem resolve_head_second
    (hb : Below second whole (height first)
      ((tokensAt 0 (pieces second.chars)).map fun token => (token, behind first token))
      items items')
    (hc : ∀ token ∈ (tokensAt 0 (pieces second.chars)).head?,
      (second.resolve token.span).start.column = 0) :
    ∀ tree ∈ items'.head?, (whole.resolve tree.span).start.column = 0 ∧
      height first ≤ (whole.resolve tree.span).stop.line := by
  intro tree ht
  have htwins := hb.twins
  cases items' with
  | nil => simp at ht
  | cons head' rest' =>
    obtain rfl : head' = tree := by simpa using ht
    cases items with
    | nil => cases htwins
    | cons head rest =>
      obtain ⟨p, hp, q, hq, -, hr⟩ := hb.abreast.exists_region htwins (List.Sublist.refl _)
      rw [List.head?_map] at hp
      obtain ⟨first', hfirst, rfl⟩ := Option.map_eq_some_iff.mp hp
      obtain ⟨last, hlast, rfl⟩ := List.mem_map.mp hq
      rw [hr]
      refine ⟨?_, (h.height_le_line hs' hlast).2⟩
      rw [h.resolve_second hs' (List.mem_of_mem_head? hfirst)]
      exact hc first' hfirst

include h hs hs' in
/-- Behind the items of the first text all its blocks close, and the items of the second are laid
out as they are alone. -/
theorem exists_layout (ht : first.trees = .ok trees)
    (hb : Below first whole 0 ((tokensAt 0 (pieces first.chars)).map fun token => (token, token))
      trees trees)
    (hb' : Below second whole (height first)
      ((tokensAt 0 (pieces second.chars)).map fun token => (token, behind first token))
      items items')
    (hf : (whole.layout rules trees).fault = none)
    (hlast : ∀ token ∈ (tokensAt 0 (pieces first.chars)).getLast?, token.kind ≠ .fatArrow)
    (hi : Indented first trees)
    (hc : ∀ token ∈ (tokensAt 0 (pieces second.chars)).head?,
      (second.resolve token.span).start.column = 0) :
    ∃ events close leaves, (whole.layout rules trees).events = events ++ close ∧
      Woven whole whole [] close leaves ∧
      whole.layout rules (trees ++ items') =
        (whole.layout rules items').after (events ++ leaves) := by
  have hitem (tree : Tree) (hm : tree ∈ trees) := resolve_item_first hs hb hm
  have hindented : Indented whole trees := by
    refine List.IsChain.imp_of_mem_imp (fun marker next _ hm hcolumn => ?_) hi
    rwa [(hitem next hm).1]
  have hcolumn (tree : Tree) (hm : tree ∈ trees) :
      0 ≤ (whole.resolve tree.span).start.column := by
    rw [(hitem tree hm).1]
    exact ((first.items_in_order ht .whole).2 tree hm).2
  have hline (tree : Tree) (hm : tree ∈ trees) :
      (whole.resolve tree.span).stop.line < (height first : Int) := by
    rw [(hitem tree hm).1]
    exact (hitem tree hm).2
  exact layout_joined hf (marker?_getLast? (first.spells_trees ht).2 hlast) hindented hcolumn hline
    (h.resolve_head_second hs' hb' hc)

include h hs in
/-- Behind the first text an emitter rests above the second. -/
theorem rests_first (hspells : Spells trees (tokensAt 0 (pieces first.chars)))
    (hf : (whole.layout rules trees).fault = none)
    (hlast : ∀ token ∈ (tokensAt 0 (pieces first.chars)).getLast?, token.kind ≠ .fatArrow) :
    ((Emitter.fresh false).run (whole.layout rules trees).events).2.Rests (height first) := by
  have hweaves := weaves_of_layoutItems whole rules hspells Scope.fresh hf
  refine rests_of_weaves hweaves hlast (fun token hm => ?_) fun hnil => ?_
  · rw [h.resolve_first hs hm]
    exact stop_line_lt hs hm
  · rw [hnil] at hspells
    cases hspells
    rfl

include h hs' in
/-- The second text is laid out from its first token on, which starts a line below the first. -/
theorem head?_events_second
    (hspells : Spells items' ((tokensAt 0 (pieces second.chars)).map (behind first)))
    (hfirst : ∀ token ∈ (tokensAt 0 (pieces second.chars)).head?,
      (second.resolve token.span).start.column = 0 ∧ token.kind ≠ .fatArrow)
    (hf : (whole.layout rules items').fault = none) :
    ∀ event ∈ (whole.layout rules items').events.head?, ∃ token region,
      event = .write token region ∧ region.start.column = 0 ∧
        (height first : Int) ≤ region.start.line := by
  have hkind : ∀ token ∈ ((tokensAt 0 (pieces second.chars)).map (behind first)).head?,
      token.kind ≠ .fatArrow := by
    intro token ht
    rw [List.head?_map] at ht
    obtain ⟨token', ht', rfl⟩ := Option.map_eq_some_iff.mp ht
    exact (hfirst token' ht').2
  intro event he
  rw [Source.layout, head?_layoutItems hspells hkind hf, List.head?_map] at he
  obtain ⟨token', ht', rfl⟩ := Option.map_eq_some_iff.mp he
  obtain ⟨token, ht, rfl⟩ := Option.map_eq_some_iff.mp ht'
  have hmem := List.mem_of_mem_head? ht
  refine ⟨_, _, rfl, ?_, (h.height_le_line hs' hmem).1⟩
  rw [h.resolve_second hs' hmem]
  exact (hfirst token ht).1

end Joined

/-- Two texts of which the second starts at the first column are converted together to what each of
them is converted to alone, if no arrow of the first is followed by an item at the first column. -/
theorem Source.convert_joined {first second whole : Source} (rules : Rules)
    (hdrop : rules.preserveBlankLines = false) (hj : Joined first second whole)
    {out more : List Char} (h : (first.convert rules).result = .ok out)
    (h' : (second.convert rules).result = .ok more) {tokens tokens' : List Token}
    {last last' : Token} (ht : first.tokens = .ok (tokens ++ [last]))
    (ht' : second.tokens = .ok (tokens' ++ [last']))
    (hlast : ∀ token ∈ tokens.getLast?, token.kind ≠ .fatArrow)
    (hdollar : ∀ token ∈ tokens, token.isDollar = false)
    (hindent : ∀ trees, first.trees = .ok trees → Indented first trees)
    (hfirst : ∀ token ∈ tokens'.head?, (second.resolve token.span).start.column = 0 ∧
      token.kind ≠ .fatArrow) :
    (whole.convert rules).result = .ok (out ++ more) := by
  obtain ⟨hs, rfl, rfl⟩ := Source.of_tokens_eq_ok ht
  obtain ⟨hs', rfl, rfl⟩ := Source.of_tokens_eq_ok ht'
  obtain ⟨trees, htrees, hf, rfl⟩ := (first.convert_eq_ok_iff rules out).mp h
  obtain ⟨items, hitems, hf', rfl⟩ := (second.convert_eq_ok_iff rules more).mp h'
  obtain ⟨-, hspells⟩ := first.spells_trees htrees
  obtain ⟨items', hwhole, hbelow, hbelow', hspells'⟩ := hj.exists_trees htrees hitems hdollar
  obtain ⟨hfault, hout⟩ := hbelow.layout rules hf
  obtain ⟨hfault', hout'⟩ := hbelow'.layout rules hf'
  obtain ⟨events, close, leaves, hevents, hmarks, hlayout⟩ :=
    hj.exists_layout hs hs' htrees hbelow hbelow' hfault hlast (hindent trees htrees)
      fun token hm => (hfirst token hm).1
  have hrests := hj.rests_first hs hspells hfault hlast
  have hstarts := hj.head?_events_second hs' hspells' hfirst hfault'
  refine (whole.convert_eq_ok_iff rules _).mpr ⟨_, hwhole, ?_, ?_⟩
  · rw [hlayout]
    exact hfault'
  · have hrun : (Emitter.fresh false).run (events ++ leaves) =
        (Emitter.fresh false).run (whole.layout rules trees).events := by
      rw [hevents, Emitter.run_append, Emitter.run_append, run_of_woven_nil hmarks]
    rw [hdrop, ← hout, ← hout', hlayout, Trace.after_events, Emitter.output_append, hrun,
      Emitter.output_anew hrests hstarts, ← List.append_assoc]
    rfl

def upperText : Source := Source.ofText "upper"
  "match a =>\n  b =>\n    (c\nd)\n  e => f // g".toList

def lowerText : Source := Source.ofText "lower" "\n// h\nstruct k =>\n    l: m\nn".toList

theorem upperText_joined_lowerText :
    let rules : Rules := ⟨["match".toList], ["struct".toList], .selector, false⟩
    let out := "match a \x7b\n  b => \x7b\n    (c\nd) \x7d,\n  e => \x7b f \x7d \x7d\n".toList
    let more := "struct k \x7b\n    l: m \x7d\nn\n".toList
    let whole := Source.ofText "whole" (upperText.chars ++ '\n' :: lowerText.chars)
    (upperText.convert rules).result = .ok out ∧ (lowerText.convert rules).result = .ok more ∧
      (whole.convert rules).result = .ok (out ++ more) := by
  intro rules out more whole
  have hj : Joined upperText lowerText whole := rfl
  have hupper : (upperText.convert rules).result = .ok out := by decide +kernel
  have hlower : (lowerText.convert rules).result = .ok more := by decide +kernel
  have ht : upperText.tokens =
      .ok (tokensAt 0 (pieces upperText.chars) ++ [endToken upperText.chars.length]) := rfl
  have ht' : lowerText.tokens =
      .ok (tokensAt 0 (pieces lowerText.chars) ++ [endToken lowerText.chars.length]) := rfl
  have hindent (trees : List Tree) (h : upperText.trees = .ok trees) :
      Indented upperText trees := by
    have hall : Indented upperText (upperText.trees.toOption.getD []) := by decide +kernel
    rwa [h] at hall
  exact ⟨hupper, hlower, Source.convert_joined rules rfl hj hupper hlower ht ht'
    (by decide +kernel) (by decide +kernel) hindent (by decide +kernel)⟩

end Offside
