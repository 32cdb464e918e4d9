import Offside.Proofs.Repetitions
import Offside.Proofs.Rereading
import Offside.Proofs.Turns

/-!
# Layouts without arrows

Without an arrow no block opens, so no line can close one or be separated from another. All that a
layout does is to write the tokens, and all that can stop it is a repetition.

- `writes`: the events that write tokens where they stand.
- `Scope.arrive_of_no_blocks`: without blocks an item changes nothing but the last line.
- `WritesOrStops`: a trace that only writes, or stops at a repetition.
- `layoutItems_arrowless`: the layout of trees without arrows.
- `Source.convert_cases_of_arrowless`: how a source without arrows is converted.
-/
namespace Offside

set_option autoImplicit false

namespace Layout

variable {source : Source} {rules : Rules}

/-- Tokens are written where they stand, and nothing between them. -/
def writes (source : Source) (tokens : List Token) : List Event :=
  tokens.map fun token => .write token (source.resolve token.span)

theorem writes_cons (source : Source) (token : Token) (tokens : List Token) :
    writes source (token :: tokens) =
      .write token (source.resolve token.span) :: writes source tokens := rfl

theorem writes_append (source : Source) (ts us : List Token) :
    writes source (ts ++ us) = writes source ts ++ writes source us := List.map_append

/-- Without open blocks a line is never refused, and it closes and separates nothing. -/
theorem Scope.startLine_of_no_blocks {scope : Scope} {region : Region} (h : scope.blocks = [])
    (h0 : 0 ≤ region.start.column) :
    ∃ reached, scope.startLine region = .ok ([], reached) ∧ reached.blocks = [] := by
  have hcolumn : scope.column = 0 := by
    rw [column, h]
    rfl
  unfold startLine
  dsimp only
  rw [hcolumn]
  split_ifs with hright hleft
  · exact ⟨scope, rfl, h⟩
  · omega
  · rw [h]
    exact ⟨_, rfl, rfl⟩

theorem Scope.arrive_of_no_blocks {scope : Scope} {region : Region} (h : scope.blocks = [])
    (h0 : 0 ≤ region.start.column) :
    ∃ reached, scope.arrive region = .ok ([], reached) ∧ reached.blocks = [] := by
  unfold arrive
  cases scope.lastLine with
  | none => exact ⟨_, rfl, h⟩
  | some line =>
    dsimp only
    split_ifs
    · exact startLine_of_no_blocks h h0
    · exact ⟨scope, rfl, h⟩

/-- An item that is no arrow, where no block is open. -/
theorem layoutItems_of_no_blocks {scope : Scope} (h : scope.blocks = []) (tree : Tree)
    (rest : List Tree) (h0 : 0 ≤ (source.position tree.span.lo).column)
    (hm : tree.marker? = none) : ∃ reached : Scope, reached.blocks = [] ∧
      layoutItems source rules scope (tree :: rest) =
        (layoutTree source rules tree).andThen (layoutItems source rules reached rest) := by
  obtain ⟨reached, ha, hreached⟩ := Scope.arrive_of_no_blocks h
    (show 0 ≤ (source.resolve tree.span).start.column by rwa [source.resolve_start])
  refine ⟨tree.note rules reached, by rw [blocks_note, hreached], ?_⟩
  rw [layoutItems_item source rules ha hm]
  rfl

/-- The trace of trees and their tokens: it writes the tokens and nothing else, or the trees hold a
repetition that stops it. -/
def WritesOrStops (source : Source) (trees : List Tree) (tokens : List Token) (trace : Trace) :
    Prop :=
  (RepetitionFree trees ∧ trace = ⟨writes source tokens, none⟩) ∨
    (¬ RepetitionFree trees ∧ ∃ region, trace.fault = some (.repetition region))

/-- A tree that writes its tokens leaves the outcome to what stands behind it. -/
theorem WritesOrStops.cons {tree : Tree} {trees : List Tree} {ts us : List Token}
    {first rest : Trace} (hiff : RepetitionFree (tree :: trees) ↔ RepetitionFree trees)
    (ht : first = ⟨writes source ts, none⟩) (h : WritesOrStops source trees us rest) :
    WritesOrStops source (tree :: trees) (ts ++ us) (first.andThen rest) := by
  rw [ht]
  obtain ⟨hfree, rfl⟩ | ⟨hno, region, hfault⟩ := h
  · refine .inl ⟨hiff.mpr hfree, ?_⟩
    rw [writes_append]
    rfl
  · exact .inr ⟨fun hall => hno (hiff.mp hall), region, hfault⟩

/-- A group writes its brackets around what its trees write, or it stops where they do. -/
theorem WritesOrStops.group {d : Delimiter} {o c : Span} {inner trees : List Tree}
    {inside us : List Token} {rest : Trace}
    (hi : WritesOrStops source inner inside (layoutItems source rules Scope.fresh inner))
    (h : WritesOrStops source trees us rest) :
    WritesOrStops source (.group d o c inner :: trees)
      (openingToken d o :: (inside ++ closingToken d c :: us))
      ((layoutTree source rules (.group d o c inner)).andThen rest) := by
  obtain ⟨hfree, hinner⟩ | ⟨hnot, region, hfault⟩ := hi
  · have hgroup : layoutTree source rules (.group d o c inner) =
        ⟨writes source (openingToken d o :: (inside ++ [closingToken d c])), none⟩ := by
      rw [layoutTree, hinner, writes_cons, writes_append]
      rfl
    have hiff : RepetitionFree (.group d o c inner :: trees) ↔ RepetitionFree trees :=
      RepetitionFree.group_iff.trans (and_iff_right hfree)
    have hall := h.cons hiff hgroup
    rwa [List.cons_append, List.append_assoc] at hall
  · refine .inr ⟨fun hall => hnot (RepetitionFree.group_iff.mp hall).1, region, ?_⟩
    rw [layoutTree]
    simp [Trace.andThen, Trace.after, hfault]

/-- Without arrows a layout writes every token and nothing else, or it stops at a repetition. -/
theorem layoutItems_arrowless {trees : List Tree} {tokens : List Token} (h : Spells trees tokens)
    (hno : ∀ token ∈ tokens, token.kind ≠ .fatArrow)
    (h0 : ∀ token ∈ tokens, 0 ≤ (source.position token.span.lo).column) {scope : Scope}
    (hscope : scope.blocks = []) :
    WritesOrStops source trees tokens (layoutItems source rules scope trees) := by
  induction h generalizing scope with
  | nil =>
    refine .inl ⟨.nil, ?_⟩
    rw [layoutItems, Scope.close, hscope]
    rfl
  | @leaf token trees tokens hl h ih =>
    have hk : token.kind ≠ .fatArrow := hno token List.mem_cons_self
    have hm : (Tree.leaf token).marker? = none := by simp [Tree.marker?, hk]
    obtain ⟨reached, hreached, hlayout⟩ :=
      layoutItems_of_no_blocks hscope (.leaf token) trees (h0 token List.mem_cons_self) hm
    have hleaf : layoutTree source rules (.leaf token) = ⟨writes source [token], none⟩ := by
      rw [layoutTree]
      rfl
    rw [hlayout]
    exact .cons RepetitionFree.leaf_iff hleaf (ih (fun t ht => hno t (List.mem_cons_of_mem token ht))
      (fun t ht => h0 t (List.mem_cons_of_mem token ht)) hreached)
  | @group d o c inner trees inside tokens hi h ihi ih =>
    obtain ⟨hinside, hbehind⟩ :=
      sublist_of_group (openingToken d o) (closingToken d c) inside tokens
    obtain ⟨reached, hreached, hlayout⟩ := layoutItems_of_no_blocks hscope (.group d o c inner)
      trees (h0 (openingToken d o) List.mem_cons_self) rfl
    rw [hlayout]
    exact .group (ihi (fun t ht => hno t (hinside.subset ht)) (fun t ht => h0 t (hinside.subset ht))
      (show Scope.fresh.blocks = [] from rfl)) (ih (fun t ht => hno t (hbehind.subset ht))
      (fun t ht => h0 t (hbehind.subset ht)) hreached)
  | @repetition dollar operator separator o c inner trees inside tokens hd ho hs hi h ihi ih =>
    obtain ⟨reached, hreached, hlayout⟩ := layoutItems_of_no_blocks hscope
      (.repetition dollar.span c inner separator operator) trees (h0 dollar List.mem_cons_self) rfl
    rw [hlayout, layoutTree]
    refine .inr ⟨?_, _, rfl⟩
    intro hall
    cases hall

end Layout

open Layout

/-- A source without arrows is converted to its tokens alone, or there is a repetition in it. -/
theorem Source.convert_cases_of_arrowless {source : Source} {tokens : List Token} {last : Token}
    (ht : source.tokens = .ok (tokens ++ [last])) (hb : WellMatched (brackets tokens))
    (hno : ∀ token ∈ tokens, token.kind ≠ .fatArrow) (rules : Rules) :
    (¬ HoldsRepetition tokens ∧ (source.convert rules).result =
        .ok ((Emitter.fresh rules.preserveBlankLines).output (writes source tokens))) ∨
      (HoldsRepetition tokens ∧ ∃ d, (source.convert rules).result = .error (.layout d) ∧
        d.code = "E201") := by
  obtain ⟨hs, rfl, rfl⟩ := source.of_tokens_eq_ok ht
  have hread := text_ne_nil_of_mem_tokensAt 0 (legible_pieces source.chars hs)
  obtain ⟨raw, hraw⟩ := (exists_nests_iff (isMarked_tokensAt hs)).mpr hb
  have htrees : source.trees = .ok (Tree.gather raw) := by
    simp only [trees, ht]
    exact source.treesOf_of_nests hraw rfl
  have h0 : ∀ token ∈ tokensAt 0 (pieces source.chars),
      0 ≤ (source.position token.span.lo).column := fun token hm =>
    source.position_column_nonneg
      ((inOrder_tokensAt 0 (legible_pieces source.chars hs)).1.2 token hm).1
  have hiff := hraw.repetitionFree_iff fun token hm _ => hread token hm
  have hlayout : WritesOrStops source _ _ (source.layout rules (Tree.gather raw)) :=
    layoutItems_arrowless hraw.spells.gather hno h0 (show Scope.fresh.blocks = [] from rfl)
  obtain ⟨hfree, hlayout⟩ | ⟨hrepeats, region, hfault⟩ := hlayout
  · refine .inl ⟨hiff.mp hfree, (source.convert_eq_ok_iff rules _).mpr ⟨_, htrees, ?_, ?_⟩⟩
    · rw [hlayout]
    · rw [hlayout]
  · exact .inr ⟨not_not.mp fun h => hrepeats (hiff.mpr h), _,
      source.convert_of_fault rules htrees hfault, rfl⟩

end Offside
