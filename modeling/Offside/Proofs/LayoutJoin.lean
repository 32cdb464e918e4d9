import Mathlib.Data.List.Chain
import Mathlib.Data.List.TakeWhile
import Offside.Proofs.TwinLayouts

/-!
# Layouts of joined lists

Items are laid out, and more items follow them. Where the first of these stands at the first column
of a later line, it closes the blocks that the end of the list would have closed, and nothing else
of what stands before it is left.

- `Indented`: items whose arrows are not followed by an item at the first column.
- `Scope.Above`: a scope whose blocks all stand right of the first column, above a line.
- `exists_left`: what is laid out of some items, whatever follows them, and the scope behind them.
- `layoutItems_anew`: items at the first column are laid out as from the start.
-/
namespace Offside.Layout

set_option autoImplicit false

variable {source : Source} {rules : Rules}

/-- No arrow of a list is followed by an item that starts at the first column. -/
def Indented (source : Source) (items : List Tree) : Prop :=
  items.IsChain fun marker next =>
    marker.marker?.isSome = true → (source.resolve next.span).start.column ≠ 0

instance (source : Source) (items : List Tree) : Decidable (Indented source items) :=
  inferInstanceAs (Decidable (List.IsChain _ items))

/-! ## Scopes above a line -/

namespace Scope

/-- All blocks stand right of the first column, and the items met ended above a line. -/
structure Above (n : Int) (scope : Scope) : Prop where
  right : ∀ d ∈ scope.blocks, 0 < d.column
  line : ∀ line ∈ scope.lastLine, line < n
  untouched : scope.lastLine = none → scope = fresh

variable {n : Int} {scope reached : Scope} {region : Region} {events : List Event}

theorem above_fresh (n : Int) : fresh.Above n :=
  ⟨by simp [fresh], by simp [fresh], fun _ => rfl⟩

theorem Above.arrive (h : scope.Above n) (hline : region.stop.line < n)
    (ha : scope.arrive region = .ok (events, reached)) : reached.Above n := by
  have hlast (blocks : List Level) (pending : Option (List Char))
      (hr : ∀ d ∈ blocks, 0 < d.column) : Above n ⟨blocks, pending, some region.stop.line⟩ :=
    ⟨hr, by simpa using hline, by simp⟩
  obtain ⟨-, -, rfl⟩ | ⟨_, -, -, -, rfl⟩ | ⟨_, -, -, hs⟩ := arrive_cases ha
  · exact hlast _ _ h.right
  · exact h
  · obtain ⟨-, -, rfl⟩ | ⟨-, -, rfl, -⟩ := startLine_cases hs
    · exact hlast _ _ h.right
    · exact hlast _ _ fun d hd => h.right d ((List.dropWhile_sublist _).subset hd)

theorem Above.openBlock (h : scope.Above n) (marker : Token) {next : Region}
    (hc : 0 < next.start.column) (hline : next.stop.line < n) :
    (scope.openBlock rules marker region (some next)).2.Above n := by
  refine ⟨fun d hd => ?_, by simpa [Scope.openBlock] using hline, by simp [Scope.openBlock]⟩
  rcases List.mem_cons.mp hd with rfl | hd
  · exact hc
  · exact h.right d hd

theorem Above.note (h : scope.Above n) (hm : scope.lastLine ≠ none) (tree : Tree) :
    (tree.note rules scope).Above n := by
  have hlast : (tree.note rules scope).lastLine = scope.lastLine := lastLine_note tree scope
  refine ⟨fun d hd => h.right d ?_, fun line hl => h.line line (hlast ▸ hl), fun hnone => ?_⟩
  · rwa [blocks_note] at hd
  · exact absurd (hlast.symm.trans hnone) hm

theorem lastLine_ne_none_of_arrive (ha : scope.arrive region = .ok (events, reached)) :
    reached.lastLine ≠ none := by
  obtain ⟨-, -, rfl⟩ | ⟨line, hl, -, -, rfl⟩ | ⟨_, -, -, hs⟩ := arrive_cases ha
  · simp
  · simp [hl]
  · obtain ⟨-, -, rfl⟩ | ⟨-, -, rfl, -⟩ := startLine_cases hs <;> simp

/-- An item at the first column of a later line closes all blocks, and nothing else is left of
the scope. -/
theorem Above.arrive_first_column (h : scope.Above n) (hc : region.start.column = 0)
    (hline : n ≤ region.stop.line) :
    scope.arrive region =
      .ok (scope.blocks.map fun d => .leave (some (d, region.start.line)),
        ⟨[], none, some region.stop.line⟩) := by
  cases hl : scope.lastLine with
  | none =>
    rw [h.untouched hl]
    rfl
  | some line =>
    have hlt := h.line line hl
    have hnonneg : ¬ Scope.column { scope with lastLine := some region.stop.line } < 0 := by
      unfold Scope.column
      cases hb : scope.blocks with
      | nil => simp
      | cons d outer =>
        have hd := h.right d (by simp [hb])
        simp only [List.head?_cons, Option.map_some, Option.getD_some]
        omega
    have hne : ∀ d ∈ scope.blocks, decide (d.column ≠ 0) = true := by
      intro d hd
      have hright := h.right d hd
      simp only [decide_eq_true_eq]
      omega
    rw [Scope.arrive, hl]
    simp only
    rw [if_pos (by omega), startLine]
    simp only [hc]
    rw [if_neg hnonneg, if_neg (by simp [columns]), List.takeWhile_eq_self_iff.mpr hne,
      List.dropWhile_eq_nil_iff.mpr hne]
    simp [separation]

end Scope

/-! ## Items before others -/

variable {n : Int} {scope : Scope} {items : List Tree}

/-- Items do not end with an arrow if their tokens do not. -/
theorem marker?_getLast? {tokens : List Token} (h : Spells items tokens)
    (hk : ∀ token ∈ tokens.getLast?, token.kind ≠ .fatArrow) :
    ∀ tree ∈ items.getLast?, tree.marker? = none := by
  intro tree ht
  obtain ⟨front, rfl⟩ := List.getLast?_eq_some_iff.mp ht
  obtain ⟨ts, us, rfl, -, hlast⟩ := h.of_append
  cases hlast with
  | @leaf token _ _ hl hnil =>
    cases hnil
    have harrow : token.kind ≠ .fatArrow := hk token (by simp)
    rw [Tree.marker?, if_neg harrow]
  | group => rfl
  | repetition => rfl

/-- An item is laid out in the same way whatever follows it, if behind an arrow the same follows. -/
theorem exists_left_item (h : scope.Above n) {tree : Tree} {rest : List Tree}
    (hf : (layoutItems source rules scope (tree :: rest)).fault = none)
    (hline : (source.resolve tree.span).stop.line < n)
    (hnext : tree.marker?.isSome = true → ∃ next ∈ rest.head?,
      0 < (source.resolve next.span).start.column ∧ (source.resolve next.span).stop.line < n) :
    ∃ events left, left.Above n ∧
      ∀ more, (tree.marker?.isSome = true → more.head? = rest.head?) →
        layoutItems source rules scope (tree :: more) =
          (layoutItems source rules left more).after events := by
  obtain ⟨events, reached, ha⟩ := exists_arrive_of_fault_eq_none source rules hf
  have hreached := h.arrive hline ha
  cases hm : tree.marker? with
  | some marker =>
    obtain ⟨next, hhead, hcolumn, hnextline⟩ := hnext (by rw [hm]; rfl)
    let opened := reached.openBlock rules marker (source.resolve tree.span)
      (some (source.resolve next.span))
    refine ⟨events ++ opened.1, opened.2, hreached.openBlock marker hcolumn hnextline,
      fun more hmore => ?_⟩
    have hmorehead : more.head? = some next := (hmore rfl).trans hhead
    rw [layoutItems_marker source rules ha hm, hmorehead]
    simp [Trace.after, opened]
  | none =>
    rw [layoutItems_item source rules ha hm] at hf
    obtain ⟨htree, -⟩ := Trace.andThen_fault_eq_none.mp hf
    refine ⟨events ++ (layoutTree source rules tree).events, tree.note rules reached,
      hreached.note (Scope.lastLine_ne_none_of_arrive ha) tree, fun more _ => ?_⟩
    rw [layoutItems_item source rules ha hm, Trace.andThen, htree]
    simp [Trace.after]

/-- Some items are laid out in the same way whatever follows them, and leave a scope above the same
line. -/
theorem exists_left (h : scope.Above n) (hf : (layoutItems source rules scope items).fault = none)
    (hend : ∀ tree ∈ items.getLast?, tree.marker? = none) (hi : Indented source items)
    (hn : ∀ tree ∈ items, 0 ≤ (source.resolve tree.span).start.column)
    (hline : ∀ tree ∈ items, (source.resolve tree.span).stop.line < n) :
    ∃ events left, left.Above n ∧ ∀ rest, layoutItems source rules scope (items ++ rest) =
      (layoutItems source rules left rest).after events := by
  induction items generalizing scope with
  | nil => exact ⟨[], scope, h, fun _ => rfl⟩
  | cons tree items ih =>
    have hcons : tree.marker?.isSome = true → ∃ next more, items = next :: more := by
      intro hm
      cases items with
      | nil => simp [hend tree rfl] at hm
      | cons next more => exact ⟨next, more, rfl⟩
    have hnext (hm : tree.marker?.isSome = true) : ∃ next ∈ items.head?,
        0 < (source.resolve next.span).start.column ∧ (source.resolve next.span).stop.line < n := by
      obtain ⟨next, more, rfl⟩ := hcons hm
      have hmem : next ∈ tree :: next :: more := by simp
      have hcolumn := (List.isChain_cons_cons.mp hi).1 hm
      have hnonneg := hn next hmem
      exact ⟨next, rfl, by omega, hline next hmem⟩
    obtain ⟨events, left, hleft, hitem⟩ :=
      exists_left_item h hf (hline tree List.mem_cons_self) hnext
    rw [hitem items fun _ => rfl, Trace.after_fault] at hf
    have hend' : ∀ t ∈ items.getLast?, t.marker? = none := by
      intro t ht
      refine hend t ?_
      rw [List.getLast?_cons, Option.mem_def.mp ht]
      rfl
    obtain ⟨events', last, hlast, hrest⟩ := ih hleft hf hend' (List.IsChain.tail hi)
      (fun t ht => hn t (List.mem_cons_of_mem tree ht))
      fun t ht => hline t (List.mem_cons_of_mem tree ht)
    refine ⟨events ++ events', last, hlast, fun rest => ?_⟩
    have hhead (hm : tree.marker?.isSome = true) : (items ++ rest).head? = items.head? := by
      obtain ⟨next, more, rfl⟩ := hcons hm
      rfl
    rw [List.cons_append, hitem _ hhead, hrest]
    simp [Trace.after]

/-! ## Items behind others -/

variable (rules) in
/-- Items at the first column of a later line are laid out as from the start, behind the closing of
all blocks that are open. -/
theorem layoutItems_anew (h : scope.Above n)
    (hfirst : ∀ tree ∈ items.head?, (source.resolve tree.span).start.column = 0 ∧
      n ≤ (source.resolve tree.span).stop.line) :
    ∃ leaves, Woven source source [] scope.close leaves ∧
      layoutItems source rules scope items =
        (layoutItems source rules Scope.fresh items).after leaves := by
  have hsame : List.Forall₂ (LevelTwins Eq) scope.blocks scope.blocks :=
    List.forall₂_same.mpr fun _ _ => ⟨rfl, rfl⟩
  cases items with
  | nil =>
    refine ⟨scope.close, woven_leaves source source hsame _ _ (fun _ => ⟨_, rfl⟩)
      fun _ => ⟨_, rfl⟩, ?_⟩
    simp [layoutItems, Scope.fresh, Scope.close, Trace.after]
  | cons tree items =>
    obtain ⟨hcolumn, hline⟩ := hfirst tree rfl
    have harrive := h.arrive_first_column hcolumn hline
    have hfresh := (Scope.above_fresh n).arrive_first_column hcolumn hline
    refine ⟨_, woven_leaves source source hsame _
      (fun d => .leave (some (d, (source.resolve tree.span).start.line))) (fun _ => ⟨_, rfl⟩)
      fun _ => ⟨_, rfl⟩, ?_⟩
    cases hm : tree.marker? with
    | some marker =>
      rw [layoutItems_marker source rules harrive hm, layoutItems_marker source rules hfresh hm]
      rfl
    | none =>
      rw [layoutItems_item source rules harrive hm, layoutItems_item source rules hfresh hm]
      rfl

/-- Behind items that are laid out without a fault, items at the first column of a later line are
laid out as they are alone. Before them the same blocks close as at the end of the first. -/
theorem layout_joined {trees more : List Tree} (hf : (source.layout rules trees).fault = none)
    (hend : ∀ tree ∈ trees.getLast?, tree.marker? = none) (hi : Indented source trees)
    (hn : ∀ tree ∈ trees, 0 ≤ (source.resolve tree.span).start.column)
    (hline : ∀ tree ∈ trees, (source.resolve tree.span).stop.line < n)
    (hfirst : ∀ tree ∈ more.head?, (source.resolve tree.span).start.column = 0 ∧
      n ≤ (source.resolve tree.span).stop.line) :
    ∃ events close leaves, (source.layout rules trees).events = events ++ close ∧
      Woven source source [] close leaves ∧
      source.layout rules (trees ++ more) =
        (source.layout rules more).after (events ++ leaves) := by
  obtain ⟨events, left, habove, hrest⟩ :=
    exists_left (Scope.above_fresh n) hf hend hi hn hline
  obtain ⟨leaves, hleaves, hanew⟩ := layoutItems_anew rules habove hfirst
  refine ⟨events, left.close, leaves, ?_, hleaves, ?_⟩
  · have halone := hrest []
    rw [List.append_nil] at halone
    rw [Source.layout, halone, layoutItems]
    rfl
  · rw [Source.layout, hrest, hanew, Source.layout]
    simp [Trace.after]

end Offside.Layout
