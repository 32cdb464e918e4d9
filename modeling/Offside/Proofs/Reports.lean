import Offside.Proofs.Lookups
import Offside.Proofs.Rereading
import Offside.Proofs.Tiling

/-!
# What a failed conversion reports

A conversion gives a text, or it fails for one of three reasons: its tokens, its brackets or its
layout. Each failure reports something, of one kind only, and each report points into the text.

- `Span.Inside`, `Diagnostic.PointsInto`: reports that point at characters of the text.
- `CompileFailure.Reports`: the three kinds of failures.
- `Layout.exists_tree_of_fault`: a layout stops at an item of the text.
- `Source.convert_error_cases`: where a conversion fails.
- `Source.convert_reports`: every conversion gives a text or such a failure, and no lookup fails on
  the way.
-/
namespace Offside

set_option autoImplicit false

open Layout

/-! ## Reports -/

/-- A stretch of a text that holds at least one character. -/
def Span.Inside (span : Span) (length : Nat) : Prop :=
  0 ≤ span.lo ∧ span.lo < span.hi ∧ span.hi ≤ length

/-- A diagnostic with one label, at characters of the source. -/
def Diagnostic.PointsInto (source : Source) (diagnostic : Diagnostic) : Prop :=
  ∃ span message, Span.Inside span source.chars.length ∧
    diagnostic.labels = [⟨source.name, source.resolve span, message⟩]

/-- What a failure reports: at least one thing about tokens, or at least one about brackets, or one
about the layout. -/
inductive CompileFailure.Reports (source : Source) : CompileFailure → Prop
  | tokens {diagnostics : List Diagnostic} (hne : diagnostics ≠ [])
      (hp : ∀ d ∈ diagnostics, d.PointsInto source)
      (hc : ∀ d ∈ diagnostics, d.code ∈ ["E100", "E101", "E102", "E103", "E104", "E105"]) :
      Reports source (.rejected diagnostics)
  | brackets {diagnostics : List Diagnostic} (hne : diagnostics ≠ [])
      (hp : ∀ d ∈ diagnostics, d.PointsInto source)
      (hc : ∀ d ∈ diagnostics, d.code ∈ ["E110", "E111", "E112"]) :
      Reports source (.rejected diagnostics)
  | layout {diagnostic : Diagnostic} (hp : diagnostic.PointsInto source)
      (hc : diagnostic.code ∈ ["E200", "E201"]) : Reports source (.layout diagnostic)

/-! ## Tokens and brackets -/

theorem Lexeme.Fault.code_mem (fault : Lexeme.Fault) :
    fault.code ∈ ["E100", "E101", "E102", "E103", "E104", "E105"] := by
  cases fault <;> simp [code]

theorem BracketFault.code_mem (fault : BracketFault) : fault.code ∈ ["E110", "E111", "E112"] := by
  cases fault <;> simp [code]

/-- A fault of tokens is about a tile, and points at its first character. -/
theorem Source.exists_tile_of_tokens {source : Source} {diagnostics : List Diagnostic}
    (h : source.tokens = .error diagnostics) {d : Diagnostic} (hd : d ∈ diagnostics) :
    ∃ tile ∈ tiles source.chars, ∃ fault, tile.piece.lexeme = .fault fault ∧
      d = .errorAt source.name (source.resolve ⟨tile.start, tile.start + 1⟩) fault.code
        fault.message "" [] := by
  unfold tokens at h
  split at h
  · simp at h
  · obtain rfl := Except.error.inj h
    obtain ⟨tile, ht, hd⟩ := List.mem_filterMap.mp hd
    exact ⟨tile, ht, Tile.diagnostic?_eq_some hd⟩

theorem Source.reports_of_tokens {source : Source} {diagnostics : List Diagnostic}
    (h : source.tokens = .error diagnostics) :
    CompileFailure.Reports source (.rejected diagnostics) := by
  refine .tokens ?_ (fun d hd => ?_) fun d hd => ?_
  · unfold tokens at h
    split at h
    · simp at h
    · rename_i hne
      obtain rfl := Except.error.inj h
      exact hne
  · obtain ⟨tile, ht, fault, -, rfl⟩ := exists_tile_of_tokens h hd
    obtain ⟨before, c, rest, hsplit, rfl, -⟩ := Tile.exists_start ht
    refine ⟨_, _, ⟨?_, ?_, ?_⟩, rfl⟩
    · exact Int.natCast_nonneg _
    · simp only
      omega
    · simp only [hsplit, List.length_append, List.length_cons]
      omega
  · obtain ⟨tile, -, fault, -, rfl⟩ := exists_tile_of_tokens h hd
    exact fault.code_mem

/-- A fault of brackets is about a token. -/
theorem Source.exists_token_of_treesOf {source : Source} {tokens : List Token}
    {diagnostics : List Diagnostic} (ht : source.tokens = .ok tokens)
    (h : source.treesOf tokens = .error diagnostics) {d : Diagnostic} (hd : d ∈ diagnostics) :
    ∃ fault : BracketFault, d = fault.diagnostic source ∧
      fault.token ∈ tokensAt 0 (pieces source.chars) := by
  obtain ⟨-, rfl⟩ := (source.tokens_eq_ok_iff tokens).mp ht
  unfold treesOf at h
  split at h
  · simp at h
  · obtain rfl := Except.error.inj h
    obtain ⟨fault, hf, rfl⟩ := List.mem_map.mp hd
    obtain hmem | ⟨frame, hframe, -⟩ := token_of_mem_faults rfl hf
    · exact ⟨fault, rfl, hmem⟩
    · simp at hframe

theorem Source.reports_of_treesOf {source : Source} {tokens : List Token}
    {diagnostics : List Diagnostic} (ht : source.tokens = .ok tokens)
    (h : source.treesOf tokens = .error diagnostics) :
    CompileFailure.Reports source (.rejected diagnostics) := by
  obtain ⟨hs, -⟩ := (source.tokens_eq_ok_iff tokens).mp ht
  refine .brackets ?_ (fun d hd => ?_) fun d hd => ?_
  · unfold treesOf at h
    split at h
    · simp at h
    · rename_i hne
      obtain rfl := Except.error.inj h
      simpa using hne
  · obtain ⟨fault, rfl, hmem⟩ := exists_token_of_treesOf ht h hd
    exact ⟨_, _, span_of_mem_tokensAt hs hmem, rfl⟩
  · obtain ⟨fault, rfl, -⟩ := exists_token_of_treesOf ht h hd
    exact fault.code_mem

/-! ## Layout -/

namespace Layout

def Fault.region : Fault → Region
  | .unknownColumn region _ => region
  | .repetition region => region

theorem Fault.code_mem (fault : Fault) (file : String) :
    (fault.diagnostic file).code ∈ ["E200", "E201"] := by
  cases fault <;> simp [diagnostic, Diagnostic.errorAt]

theorem Fault.exists_label (fault : Fault) (file : String) :
    ∃ message, (fault.diagnostic file).labels = [⟨file, fault.region, message⟩] := by
  cases fault
  · exact ⟨_, rfl⟩
  · exact ⟨_, rfl⟩

theorem Scope.region_of_arrive {scope : Scope} {region : Region} {fault : Fault}
    (h : scope.arrive region = .error fault) : fault.region = region := by
  unfold arrive at h
  split at h
  · simp at h
  · split at h
    · unfold startLine at h
      simp only at h
      split_ifs at h
      obtain rfl := Except.error.inj h
      rfl
    · simp at h

variable {source : Source} {rules : Rules}

theorem Trace.fault_andThen {first second : Trace} {fault : Fault}
    (h : (first.andThen second).fault = some fault) :
    first.fault = some fault ∨ second.fault = some fault := by
  unfold andThen at h
  cases hf : first.fault with
  | none => exact .inr (by simpa [hf] using h)
  | some other => exact .inl (by simpa [hf] using h)

/-- A layout stops at its first item, inside it, or behind it. -/
theorem fault_layoutItems_cons {scope : Scope} {tree : Tree} {rest : List Tree} {fault : Fault}
    (h : (layoutItems source rules scope (tree :: rest)).fault = some fault) :
    fault.region = source.resolve tree.span ∨ (layoutTree source rules tree).fault = some fault ∨
      ∃ behind, (layoutItems source rules behind rest).fault = some fault := by
  cases ha : scope.arrive (source.resolve tree.span) with
  | error other =>
    rw [layoutItems_fault source rules ha] at h
    obtain rfl := Option.some.inj h
    exact .inl (Scope.region_of_arrive ha)
  | ok found =>
    obtain ⟨events, reached⟩ := found
    cases hm : tree.marker? with
    | some marker =>
      rw [layoutItems_marker source rules ha hm] at h
      exact .inr (.inr ⟨_, h⟩)
    | none =>
      rw [layoutItems_item source rules ha hm, Trace.after_fault] at h
      obtain h | h := Trace.fault_andThen h
      · exact .inr (.inl h)
      · exact .inr (.inr ⟨_, h⟩)

theorem fault_layoutTree_group {delimiter : Delimiter} {opening closing : Span}
    {inner : List Tree} :
    (layoutTree source rules (.group delimiter opening closing inner)).fault =
      (layoutItems source rules Scope.fresh inner).fault := by
  rw [layoutTree, Trace.after_fault, Trace.andThen]
  cases hf : (layoutItems source rules Scope.fresh inner).fault with
  | none => rfl
  | some fault => exact hf

end Layout

theorem Spells.inside {trees : List Tree} {tokens : List Token} (h : Spells trees tokens)
    (ho : InOrder tokens) {length : Nat} (hle : ∀ token ∈ tokens, token.span.hi ≤ length) :
    ∀ tree ∈ trees, tree.span.Inside length := by
  intro tree ht
  obtain ⟨h0, hlt, -⟩ := (h.inOrder ho).2 tree ht
  obtain ⟨ts, htree, hsub⟩ := h.exists_of_mem ht
  obtain ⟨first, -, last, hlast, hspan⟩ := htree.exists_ends
  refine ⟨h0, hlt, ?_⟩
  rw [hspan]
  exact hle last (hsub.subset (List.mem_of_mem_getLast? hlast))

namespace Layout

variable {source : Source} {rules : Rules}

/-- A layout stops at one of the trees it lays out, which may stand inside another. -/
theorem exists_tree_of_fault {trees : List Tree} {tokens : List Token} (h : Spells trees tokens)
    {scope : Scope} {fault : Fault}
    (hf : (layoutItems source rules scope trees).fault = some fault) :
    ∃ tree ts, Spells [tree] ts ∧ ts.Sublist tokens ∧ fault.region = source.resolve tree.span := by
  have hhead {tree : Tree} {rest : List Tree} {all : List Token} (hall : Spells (tree :: rest) all)
      (hregion : fault.region = source.resolve tree.span) :
      ∃ tree ts, Spells [tree] ts ∧ ts.Sublist all ∧ fault.region = source.resolve tree.span := by
    obtain ⟨ts, htree, hsub⟩ := hall.exists_of_mem List.mem_cons_self
    exact ⟨tree, ts, htree, hsub, hregion⟩
  induction h generalizing scope with
  | nil => simp [layoutItems] at hf
  | @leaf token trees tokens hl h ih =>
    obtain hregion | htree | ⟨behind, hrest⟩ := fault_layoutItems_cons hf
    · exact hhead (.leaf hl h) hregion
    · simp [layoutTree] at htree
    · obtain ⟨tree, ts, htree, hsub, hregion⟩ := ih hrest
      exact ⟨tree, ts, htree, hsub.trans (List.sublist_cons_self token tokens), hregion⟩
  | @group d o c inner trees inside tokens hi h ihi ih =>
    obtain ⟨hinside, hbehind⟩ :=
      sublist_of_group (openingToken d o) (closingToken d c) inside tokens
    obtain hregion | htree | ⟨behind, hrest⟩ := fault_layoutItems_cons hf
    · exact hhead (.group d o c hi h) hregion
    · rw [fault_layoutTree_group] at htree
      obtain ⟨tree, ts, htree, hsub, hregion⟩ := ihi htree
      exact ⟨tree, ts, htree, hsub.trans hinside, hregion⟩
    · obtain ⟨tree, ts, htree, hsub, hregion⟩ := ih hrest
      exact ⟨tree, ts, htree, hsub.trans hbehind, hregion⟩
  | @repetition dollar operator separator o c inner trees inside tokens hd hop hs hi h ihi ih =>
    have hbehind := sublist_of_repetition dollar (openingToken .paren o) (closingToken .paren c)
      operator inside separator.toList tokens
    obtain hregion | htree | ⟨behind, hrest⟩ := fault_layoutItems_cons hf
    · exact hhead (.repetition o c hd hop hs hi h) hregion
    · rw [layoutTree, Option.some.injEq] at htree
      subst htree
      exact hhead (.repetition o c hd hop hs hi h) rfl
    · obtain ⟨tree, ts, htree, hsub, hregion⟩ := ih hrest
      exact ⟨tree, ts, htree, hsub.trans hbehind, hregion⟩

end Layout

theorem Source.reports_of_layout {source : Source} {rules : Rules} {trees : List Tree}
    (ht : source.trees = .ok trees) {fault : Layout.Fault}
    (hf : (source.layout rules trees).fault = some fault) :
    CompileFailure.Reports source (.layout (fault.diagnostic source.name)) := by
  obtain ⟨hs, hsp⟩ := source.spells_trees ht
  have ho := (inOrder_tokensAt 0 (legible_pieces source.chars hs)).1
  have hle : ∀ token ∈ tokensAt 0 (pieces source.chars), token.span.hi ≤ source.chars.length :=
    fun token hm => (source.span_of_mem_tokensAt hs hm).2.2
  obtain ⟨tree, ts, htree, hsub, hregion⟩ := exists_tree_of_fault hsp hf
  have hinside := htree.inside (ho.sublist hsub) (fun token ht => hle token (hsub.subset ht)) tree
    List.mem_cons_self
  obtain ⟨message, hlabels⟩ := fault.exists_label source.name
  exact .layout ⟨tree.span, message, hinside, by rw [hlabels, hregion]⟩
    (fault.code_mem source.name)

/-! ## Conversions -/

/-- A conversion fails where the tokens, the brackets or the layout do. -/
theorem Source.convert_error_cases {source : Source} {rules : Rules} {failure : CompileFailure}
    (h : (source.convert rules).result = .error failure) :
    (∃ diagnostics, source.tokens = .error diagnostics ∧ failure = .rejected diagnostics) ∨
      (∃ tokens diagnostics, source.tokens = .ok tokens ∧
        source.treesOf tokens = .error diagnostics ∧ failure = .rejected diagnostics) ∨
      ∃ trees fault, source.trees = .ok trees ∧
        (source.layout rules trees).fault = some fault ∧
        failure = .layout (fault.diagnostic source.name) := by
  cases ht : source.trees with
  | error diagnostics =>
    rw [source.convert_of_error rules ht] at h
    obtain rfl := Except.error.inj h
    unfold trees at ht
    cases htokens : source.tokens with
    | error faults =>
      rw [htokens] at ht
      obtain rfl := Except.error.inj ht
      exact .inl ⟨_, rfl, rfl⟩
    | ok tokens =>
      rw [htokens] at ht
      exact .inr (.inl ⟨_, _, rfl, ht, rfl⟩)
  | ok trees =>
    cases hf : (source.layout rules trees).fault with
    | none =>
      have hok := (source.convert_eq_ok_iff rules _).mpr ⟨trees, ht, hf, rfl⟩
      cases hok.symm.trans h
    | some fault =>
      rw [source.convert_of_fault rules ht hf] at h
      exact .inr (.inr ⟨trees, fault, rfl, hf, (Except.error.inj h).symm⟩)

/-- Every conversion finds all that it looks up, and it gives a text or a failure that reports
something of one kind, at characters of the source. -/
theorem Source.convert_reports (source : Source) (rules : Rules) :
    source.convert? rules = some (source.convert rules) ∧
      ((∃ out, (source.convert rules).result = .ok out) ∨
        ∃ failure, (source.convert rules).result = .error failure ∧ failure.Reports source) := by
  refine ⟨source.convert?_eq rules, ?_⟩
  cases h : (source.convert rules).result with
  | ok out => exact .inl ⟨out, rfl⟩
  | error failure =>
    refine .inr ⟨failure, rfl, ?_⟩
    obtain ⟨_, ht, rfl⟩ | ⟨_, _, ht, hf, rfl⟩ | ⟨_, _, ht, hf, rfl⟩ := convert_error_cases h
    · exact reports_of_tokens ht
    · exact reports_of_treesOf ht hf
    · exact reports_of_layout ht hf

end Offside
