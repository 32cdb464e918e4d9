import Mathlib.Data.List.Forall2
import Offside.Proofs.Rereading
import Offside.Proofs.Turns

/-!
# One text under two sets of rules

Keywords, the policy of the arrows and the blank lines say how a text is punctuated, not where. A
layout under other rules opens and closes the same blocks before the same tokens and stops at the
same fault.

- `SameShape`: scopes with blocks at the same columns, whatever announced them.
- `Kin`, `Reruled`: events that differ in which separator is put in, or in an arrow.
- `layoutItems_reruled`: the traces of a list under two sets of rules.
- `SeparatorAt`: the places of the separators in an output.
- `Source.convert_reruled`: both conversions fail alike, or both outputs hold the same.
-/
namespace Offside

set_option autoImplicit false

open Layout

namespace Layout

/-! ## Scopes under two sets of rules -/

/-- Scopes whose blocks stand at the same columns and that have met the same line. What the blocks
are, and which keyword is pending, may differ. -/
structure SameShape (scope scope' : Scope) : Prop where
  columns : scope'.blocks.map Level.column = scope.blocks.map Level.column
  lastLine : scope'.lastLine = scope.lastLine

namespace SameShape

variable {scope scope' : Scope}

theorem refl (scope : Scope) : SameShape scope scope := ⟨rfl, rfl⟩

theorem column_eq (h : SameShape scope scope') : scope'.column = scope.column := by
  have hh := congrArg List.head? h.columns
  rw [List.head?_map, List.head?_map] at hh
  rw [Scope.column, hh, Scope.column]

theorem columns_eq (h : SameShape scope scope') : scope'.columns = scope.columns := by
  rw [Scope.columns, h.columns, Scope.columns]

theorem setLastLine (h : SameShape scope scope') (line : Option Int) :
    SameShape { scope with lastLine := line } { scope' with lastLine := line } :=
  ⟨h.columns, rfl⟩

theorem note (h : SameShape scope scope') (rules rules' : Rules) (tree : Tree) :
    SameShape (tree.note rules scope) (tree.note rules' scope') := by
  refine ⟨?_, ?_⟩
  · rw [blocks_note, blocks_note, h.columns]
  · rw [lastLine_note, lastLine_note, h.lastLine]

end SameShape

/-! ## Events under two sets of rules -/

/-- Events that do the same but for the kind of a block: which separator is put in between its
entries, and what is told of it. -/
inductive Kin : Event → Event → Prop
  | write (token : Token) (region : Region) : Kin (.write token region) (.write token region)
  | enter (level level' : Option Level) (line : Int) : Kin (.enter level line) (.enter level' line)
  | leave (dedent dedent' : Option (Level × Int)) : Kin (.leave dedent) (.leave dedent')
  | separate (level level' : Level) : Kin (.separate level.kind) (.separate level'.kind)

/-- Events under two policies. An arrow is left out on one side only if the policy of that side
leaves arrows out. -/
inductive Reruled (policy policy' : MarkerPolicy) : List Event → List Event → Prop
  | nil : Reruled policy policy' [] []
  | both {e e' : Event} {es es' : List Event} (hk : Kin e e') (h : Reruled policy policy' es es') :
      Reruled policy policy' (e :: es) (e' :: es')
  | first {token : Token} {region : Region} {es es' : List Event} (hk : token.kind = .fatArrow)
      (hp : policy' = .selector) (h : Reruled policy policy' es es') :
      Reruled policy policy' (.write token region :: es) es'
  | second {token : Token} {region : Region} {es es' : List Event} (hk : token.kind = .fatArrow)
      (hp : policy = .selector) (h : Reruled policy policy' es es') :
      Reruled policy policy' es (.write token region :: es')

namespace Reruled

variable {policy policy' : MarkerPolicy} {es es' fs fs' : List Event}

theorem of_kin (h : List.Forall₂ Kin es es') : Reruled policy policy' es es' := by
  induction h with
  | nil => exact .nil
  | cons hk _ ih => exact .both hk ih

theorem append (h : Reruled policy policy' es es') (h' : Reruled policy policy' fs fs') :
    Reruled policy policy' (es ++ fs) (es' ++ fs') := by
  induction h with
  | nil => exact h'
  | both hk _ ih => exact .both hk ih
  | first hk hp _ ih => exact .first hk hp ih
  | second hk hp _ ih => exact .second hk hp ih

/-- Where both policies keep all arrows, the events are kin one by one. -/
theorem kin_of_always (h : Reruled policy policy' es es') (hp : policy = .always)
    (hp' : policy' = .always) : List.Forall₂ Kin es es' := by
  induction h with
  | nil => exact .nil
  | both hk _ ih => exact .cons hk ih
  | first _ hs => simp [hp'] at hs
  | second _ hs => simp [hp] at hs

end Reruled

/-! ## Steps under two sets of rules -/

section Steps

variable {scope scope' : Scope}

theorem kin_leaves {blocks blocks' : List Level}
    (h : blocks'.map Level.column = blocks.map Level.column) (told told' : Level → Option (Level × Int)) :
    List.Forall₂ Kin (blocks.map fun level => .leave (told level))
      (blocks'.map fun level => .leave (told' level)) := by
  induction blocks generalizing blocks' with
  | nil =>
    obtain rfl : blocks' = [] := by simpa using h
    exact .nil
  | cons level blocks ih =>
    cases blocks' with
    | nil => simp at h
    | cons level' blocks' => exact .cons (.leave _ _) (ih (List.cons.inj h).2)

theorem kin_separation (h : SameShape scope scope') :
    List.Forall₂ Kin scope.separation scope'.separation := by
  have hc := h.columns
  unfold Scope.separation
  generalize scope.blocks = blocks, scope'.blocks = blocks' at hc
  cases blocks with
  | nil =>
    obtain rfl : blocks' = [] := by simpa using hc
    exact .nil
  | cons level blocks =>
    cases blocks' with
    | nil => simp at hc
    | cons level' blocks' => exact .cons (.separate level level') .nil

/-- The same blocks stand right of a column. -/
theorem columns_cut {blocks blocks' : List Level}
    (h : blocks'.map Level.column = blocks.map Level.column) (column : Int) :
    (blocks'.takeWhile (·.column ≠ column)).map Level.column =
        (blocks.takeWhile (·.column ≠ column)).map Level.column ∧
      (blocks'.dropWhile (·.column ≠ column)).map Level.column =
        (blocks.dropWhile (·.column ≠ column)).map Level.column := by
  have htake := congrArg (List.takeWhile (· ≠ column)) h
  have hdrop := congrArg (List.dropWhile (· ≠ column)) h
  rw [List.takeWhile_map, List.takeWhile_map] at htake
  rw [List.dropWhile_map, List.dropWhile_map] at hdrop
  exact ⟨htake, hdrop⟩

/-- The start of a line does the same in both scopes, or meets the same fault. -/
theorem startLine_sameShape (h : SameShape scope scope') (region : Region) :
    (∃ fault, scope.startLine region = .error fault ∧ scope'.startLine region = .error fault) ∨
      ∃ events events' reached reached', scope.startLine region = .ok (events, reached) ∧
        scope'.startLine region = .ok (events', reached') ∧
        List.Forall₂ Kin events events' ∧ SameShape reached reached' := by
  unfold Scope.startLine
  simp only [h.column_eq, h.columns_eq]
  by_cases hright : scope.column < region.start.column
  · simp only [if_pos hright]
    exact .inr ⟨[], [], scope, scope', rfl, rfl, .nil, h⟩
  simp only [if_neg hright]
  by_cases hunknown : region.start.column < scope.column ∧ region.start.column ∉ scope.columns
  · simp only [if_pos hunknown]
    exact .inl ⟨_, rfl, rfl⟩
  · simp only [if_neg hunknown]
    obtain ⟨hclosed, hkept⟩ := columns_cut h.columns region.start.column
    have hleft : SameShape
        ⟨scope.blocks.dropWhile (·.column ≠ region.start.column), none, scope.lastLine⟩
        ⟨scope'.blocks.dropWhile (·.column ≠ region.start.column), none, scope'.lastLine⟩ :=
      ⟨hkept, h.lastLine⟩
    refine .inr ⟨_, _, _, _, rfl, rfl, ?_, hleft⟩
    exact List.rel_append (kin_leaves hclosed _ _) (kin_separation hleft)

theorem arrive_sameShape (h : SameShape scope scope') (region : Region) :
    (∃ fault, scope.arrive region = .error fault ∧ scope'.arrive region = .error fault) ∨
      ∃ events events' reached reached', scope.arrive region = .ok (events, reached) ∧
        scope'.arrive region = .ok (events', reached') ∧
        List.Forall₂ Kin events events' ∧ SameShape reached reached' := by
  have hset := h.setLastLine (some region.stop.line)
  unfold Scope.arrive
  rw [h.lastLine]
  cases scope.lastLine with
  | none => exact .inr ⟨[], [], _, _, rfl, rfl, .nil, hset⟩
  | some line =>
    by_cases hnew : line < region.stop.line
    · simp only [if_pos hnew]
      exact startLine_sameShape hset region
    · simp only [if_neg hnew]
      exact .inr ⟨[], [], scope, scope', rfl, rfl, .nil, h⟩

/-- An arrow opens a block at the same column. It is written or left out by either policy. -/
theorem openBlock_sameShape (h : SameShape scope scope') (rules rules' : Rules) {marker : Token}
    (hk : marker.kind = .fatArrow) (region : Region) (following : Option Region) :
    let opened := scope.openBlock rules marker region following
    let opened' := scope'.openBlock rules' marker region following
    Reruled rules.marker rules'.marker opened.1 opened'.1 ∧ SameShape opened.2 opened'.2 := by
  have hselector {rules : Rules} {scope : Scope} (hkeep : scope.keepsMarker rules = false) :
      rules.marker = .selector := by
    cases hm : rules.marker with
    | always => simp [Scope.keepsMarker, hm] at hkeep
    | selector => rfl
  have hwritten {events events' : List Event}
      (he : Reruled rules.marker rules'.marker events events') :
      Reruled rules.marker rules'.marker
        ((if scope.keepsMarker rules then [.write marker region] else []) ++ events)
        ((if scope'.keepsMarker rules' then [.write marker region] else []) ++ events') := by
    cases hl : scope.keepsMarker rules with
    | true =>
      cases hr : scope'.keepsMarker rules' with
      | true => exact .both (.write marker region) he
      | false => exact .first hk (hselector hr) he
    | false =>
      cases hr : scope'.keepsMarker rules' with
      | true => exact .second hk (hselector hl) he
      | false => exact he
  unfold Scope.openBlock
  cases following with
  | none => exact ⟨hwritten (.both (.enter _ _ _) (.both (.leave _ _) .nil)), h⟩
  | some next =>
    refine ⟨hwritten (.both (.enter _ _ _) .nil), ?_, rfl⟩
    exact congrArg (next.start.column :: ·) h.columns

end Steps

/-! ## Layouts under two sets of rules -/

/-- Traces that end in the same fault or in none, with events that differ only as rules may say. -/
structure ReruledTraces (policy policy' : MarkerPolicy) (trace trace' : Trace) : Prop where
  fault : trace'.fault = trace.fault
  events : Reruled policy policy' trace.events trace'.events

section Traces

variable {policy policy' : MarkerPolicy} {first first' second second' : Trace}

theorem ReruledTraces.after {es es' : List Event} (he : Reruled policy policy' es es')
    (h : ReruledTraces policy policy' first first') :
    ReruledTraces policy policy' (first.after es) (first'.after es') :=
  ⟨h.fault, he.append h.events⟩

theorem ReruledTraces.andThen (h : ReruledTraces policy policy' first first')
    (h' : ReruledTraces policy policy' second second') :
    ReruledTraces policy policy' (first.andThen second) (first'.andThen second') := by
  unfold Trace.andThen
  rw [h.fault]
  cases first.fault with
  | some fault => exact h
  | none => exact h'.after h.events

end Traces

/-- The traces of a list of items under two sets of rules. -/
theorem layoutItems_reruled (source : Source) (rules rules' : Rules) {items : List Tree}
    {tokens : List Token} (hsp : Spells items tokens) {scope scope' : Scope}
    (h : SameShape scope scope') :
    ReruledTraces rules.marker rules'.marker (layoutItems source rules scope items)
      (layoutItems source rules' scope' items) := by
  have hitem {tree : Tree} {rest : List Tree} (hm : tree.marker? = none) {scope scope' : Scope}
      (h : SameShape scope scope')
      (htree : ReruledTraces rules.marker rules'.marker (layoutTree source rules tree)
        (layoutTree source rules' tree))
      (hrest : ∀ left left', SameShape left left' → ReruledTraces rules.marker rules'.marker
        (layoutItems source rules left rest) (layoutItems source rules' left' rest)) :
      ReruledTraces rules.marker rules'.marker (layoutItems source rules scope (tree :: rest))
        (layoutItems source rules' scope' (tree :: rest)) := by
    obtain ⟨fault, ha, ha'⟩ | ⟨events, events', reached, reached', ha, ha', hkin, hreached⟩ :=
      arrive_sameShape h (source.resolve tree.span)
    · rw [layoutItems_fault source rules ha, layoutItems_fault source rules' ha']
      exact ⟨rfl, .nil⟩
    · rw [layoutItems_item source rules ha hm, layoutItems_item source rules' ha' hm]
      exact (htree.andThen (hrest _ _ (hreached.note rules rules' tree))).after (.of_kin hkin)
  induction hsp generalizing scope scope' with
  | nil =>
    rw [layoutItems, layoutItems]
    exact ⟨rfl, .of_kin (kin_leaves h.columns (fun _ => none) fun _ => none)⟩
  | @leaf token trees tokens _ _ ih =>
    by_cases hk : token.kind = .fatArrow
    · have hm : (Tree.leaf token).marker? = some token := by simp [Tree.marker?, hk]
      obtain ⟨fault, ha, ha'⟩ | ⟨events, events', reached, reached', ha, ha', hkin, hreached⟩ :=
        arrive_sameShape h (source.resolve (Tree.leaf token).span)
      · rw [layoutItems_fault source rules ha, layoutItems_fault source rules' ha']
        exact ⟨rfl, .nil⟩
      · rw [layoutItems_marker source rules ha hm, layoutItems_marker source rules' ha' hm]
        obtain ⟨hopened, hleft⟩ := openBlock_sameShape hreached rules rules' hk
          (source.resolve (Tree.leaf token).span)
          (trees.head?.map fun next => source.resolve next.span)
        exact ((ih hleft).after hopened).after (.of_kin hkin)
    · refine hitem (by simp [Tree.marker?, hk]) h ?_ fun _ _ hleft => ih hleft
      rw [layoutTree, layoutTree]
      exact ⟨rfl, .both (.write _ _) .nil⟩
  | @group d o c inner trees inside tokens _ _ ihi ih =>
    refine hitem rfl h ?_ fun _ _ hleft => ih hleft
    have hclose : ReruledTraces rules.marker rules'.marker
        ⟨[.write (closingToken d c) (source.resolve c)], none⟩
        ⟨[.write (closingToken d c) (source.resolve c)], none⟩ := ⟨rfl, .both (.write _ _) .nil⟩
    rw [layoutTree, layoutTree]
    exact ((ihi (.refl Scope.fresh)).andThen hclose).after (.both (.write _ _) .nil)
  | @repetition dollar operator separator o c inner trees inside tokens _ _ _ _ _ _ ih =>
    refine hitem rfl h ?_ fun _ _ hleft => ih hleft
    rw [layoutTree, layoutTree]
    exact ⟨rfl, .nil⟩

/-! ## What is shown whatever the rules -/

/-- What an event shows under all rules: the token that it writes, unless that is an arrow, or the
punctuation that it puts in, both separators taken as one. -/
def Event.ruleless? : Event → Option (Option Token × List Char)
  | .write token _ => if token.kind = .fatArrow then none else some (some token, [])
  | .separate kind => if kind = .topLevel then none else some (none, BlockKind.separator .plain)
  | event => some (none, event.punctuation)

theorem Level.kind_ne_topLevel (level : Level) : level.kind ≠ .topLevel := by
  unfold Level.kind
  cases level.keyword <;> simp

theorem Kin.ruleless?_eq {e e' : Event} (h : Kin e e') : e'.ruleless? = e.ruleless? := by
  cases h with
  | write => rfl
  | enter => rfl
  | leave => rfl
  | separate level level' =>
    rw [Event.ruleless?, if_neg level'.kind_ne_topLevel, Event.ruleless?,
      if_neg level.kind_ne_topLevel]

theorem Reruled.ruleless?_eq {policy policy' : MarkerPolicy} {es es' : List Event}
    (h : Reruled policy policy' es es') :
    es'.filterMap Event.ruleless? = es.filterMap Event.ruleless? := by
  have harrow {token : Token} {region : Region} (hk : token.kind = .fatArrow) :
      (Event.write token region).ruleless? = none := by rw [Event.ruleless?, if_pos hk]
  induction h with
  | nil => rfl
  | both hk _ ih => rw [List.filterMap_cons, List.filterMap_cons, hk.ruleless?_eq, ih]
  | first hk _ _ ih => rw [List.filterMap_cons_none (harrow hk), ih]
  | second hk _ _ ih => rw [List.filterMap_cons_none (harrow hk), ih]

/-! ## Outputs under two sets of rules -/

/-- At the given place of its output the emitter puts a separator for one of the events. -/
def SeparatorAt (emitter : Emitter) (events : List Event) (i : Nat) : Prop :=
  ∃ before kind after, events = before ++ .separate kind :: after ∧ kind ≠ .topLevel ∧
    i = (emitter.run before).1.length

section Outputs

variable {es es' : List Event}

theorem SeparatorAt.cons {emitter : Emitter} {event : Event} {i : Nat}
    (h : SeparatorAt (emitter.step event).2 es i) :
    SeparatorAt emitter (event :: es) ((emitter.step event).1.length + i) := by
  obtain ⟨before, kind, after, rfl, hk, rfl⟩ := h
  exact ⟨event :: before, kind, after, rfl, hk, by simp [Emitter.run]⟩

theorem length_separator (level : Level) : level.kind.separator.length = 1 := by
  unfold Level.kind
  cases level.keyword <;> rfl

/-- Kin leave an emitter in one state, and put out the same but for a separator. -/
theorem Kin.step_eq {e e' : Event} (h : Kin e e') (emitter : Emitter) :
    (emitter.step e').2 = (emitter.step e).2 ∧
      ((emitter.step e').1 = (emitter.step e).1 ∨
        (∃ level level', e = .separate (Level.kind level) ∧ e' = .separate (Level.kind level')) ∧
          (emitter.step e).1.length = 1 ∧ (emitter.step e').1.length = 1) := by
  cases h with
  | write => exact ⟨rfl, .inl rfl⟩
  | enter => exact ⟨rfl, .inl rfl⟩
  | leave => exact ⟨rfl, .inl rfl⟩
  | separate level level' =>
    exact ⟨rfl, .inr ⟨⟨level, level', rfl, rfl⟩, length_separator level, length_separator level'⟩⟩

/-- The outputs of kin are equally long, and differ only where separators stand in both. -/
theorem run_kin (h : List.Forall₂ Kin es es') (emitter : Emitter) :
    (emitter.run es').2 = (emitter.run es).2 ∧
      (emitter.run es').1.length = (emitter.run es).1.length ∧
      ∀ i, (emitter.run es).1[i]? ≠ (emitter.run es').1[i]? →
        SeparatorAt emitter es i ∧ SeparatorAt emitter es' i := by
  induction h generalizing emitter with
  | nil => exact ⟨rfl, rfl, fun _ hd => absurd rfl hd⟩
  | @cons e e' es es' hk _ ih =>
    obtain ⟨hstate, htext⟩ := hk.step_eq emitter
    obtain ⟨hlast, hlen, hdiff⟩ := ih (emitter.step e).2
    have hsame : (emitter.step e').1.length = (emitter.step e).1.length := by
      obtain heq | ⟨-, hl, hl'⟩ := htext
      · rw [heq]
      · omega
    simp only [Emitter.run, hstate]
    refine ⟨hlast, by simp only [List.length_append, hsame, hlen], fun i hd => ?_⟩
    by_cases hi : i < (emitter.step e).1.length
    · rw [List.getElem?_append_left hi, List.getElem?_append_left (hsame ▸ hi)] at hd
      obtain heq | ⟨⟨level, level', rfl, rfl⟩, hl, -⟩ := htext
      · exact absurd (by rw [heq]) hd
      · obtain rfl : i = 0 := by omega
        exact ⟨⟨[], _, es, rfl, level.kind_ne_topLevel, rfl⟩, [], _, es', rfl,
          level'.kind_ne_topLevel, rfl⟩
    · rw [List.getElem?_append_right (by omega), List.getElem?_append_right (by omega), hsame] at hd
      obtain ⟨hs, hs'⟩ := hdiff _ hd
      have hplace : i = (emitter.step e).1.length + (i - (emitter.step e).1.length) := by omega
      rw [hplace]
      refine ⟨hs.cons, ?_⟩
      rw [← hstate] at hs'
      exact hsame ▸ hs'.cons

theorem output_kin (h : List.Forall₂ Kin es es') (emitter : Emitter) :
    (emitter.output es').length = (emitter.output es).length ∧
      ∀ i, (emitter.output es)[i]? ≠ (emitter.output es')[i]? →
        SeparatorAt emitter es i ∧ SeparatorAt emitter es' i := by
  obtain ⟨hlast, hlen, hdiff⟩ := run_kin h emitter
  unfold Emitter.output
  rw [hlast]
  refine ⟨by rw [List.length_append, List.length_append, hlen], fun i hd => hdiff i fun heq => hd ?_⟩
  by_cases hi : i < (emitter.run es).1.length
  · rw [List.getElem?_append_left hi, List.getElem?_append_left (hlen ▸ hi), heq]
  · rw [List.getElem?_append_right (by omega), List.getElem?_append_right (by omega), hlen]

end Outputs

end Layout

/-! ## Conversions under two sets of rules -/

/-- Under two sets of rules a text is refused with the same diagnostics, or it is converted under
both. Then the same tokens are written and the same punctuation is put in, arrows and the choice of
the separator apart. Where all arrows are kept and blank lines are treated alike, the outputs are
equally long and differ only where both have a separator. -/
theorem Source.convert_reruled (source : Source) (rules rules' : Rules) :
    (∃ failure, (source.convert rules).result = .error failure ∧
        (source.convert rules').result = .error failure) ∨
      ∃ trees out out', source.trees = .ok trees ∧
        (source.convert rules).result = .ok out ∧ (source.convert rules').result = .ok out' ∧
        (source.layout rules trees).events.filterMap Event.ruleless? =
          (source.layout rules' trees).events.filterMap Event.ruleless? ∧
        (rules.marker = .always → rules'.marker = .always →
          rules.preserveBlankLines = rules'.preserveBlankLines →
          out.length = out'.length ∧ ∀ i, out[i]? ≠ out'[i]? →
            SeparatorAt (Emitter.fresh rules.preserveBlankLines)
                (source.layout rules trees).events i ∧
              SeparatorAt (Emitter.fresh rules'.preserveBlankLines)
                (source.layout rules' trees).events i) := by
  cases ht : source.trees with
  | error diagnostics =>
    exact .inl ⟨_, source.convert_of_error rules ht, source.convert_of_error rules' ht⟩
  | ok trees =>
    have htraces := layoutItems_reruled source rules rules' (source.spells_trees ht).2
      (.refl Scope.fresh)
    have hfault := htraces.fault
    cases hf : (source.layout rules trees).fault with
    | some fault =>
      have hf' : (source.layout rules' trees).fault = some fault := hfault.trans hf
      exact .inl ⟨_, source.convert_of_fault rules ht hf, source.convert_of_fault rules' ht hf'⟩
    | none =>
      have hf' : (source.layout rules' trees).fault = none := hfault.trans hf
      refine .inr ⟨trees, _, _, rfl, (source.convert_eq_ok_iff rules _).mpr ⟨trees, ht, hf, rfl⟩,
        (source.convert_eq_ok_iff rules' _).mpr ⟨trees, ht, hf', rfl⟩,
        htraces.events.ruleless?_eq.symm, fun hp hp' hb => ?_⟩
      have hkin : List.Forall₂ Kin (source.layout rules trees).events
          (source.layout rules' trees).events := htraces.events.kin_of_always hp hp'
      obtain ⟨hlen, hdiff⟩ := output_kin hkin (Emitter.fresh rules.preserveBlankLines)
      rw [← hb]
      exact ⟨hlen.symm, hdiff⟩

def armsText : Source := Source.ofText "arms"
  "match x =>\n    1 =>\n        a\n        b\n    2 => c\n".toList

/-- The arms are parted by another separator, and nothing else changes. -/
theorem armsText_reruled :
    let rules : Rules := ⟨["match".toList], [], .always, false⟩
    let rules' : Rules := ⟨[], ["a".toList], .always, false⟩
    let out := "match x => \x7b\n    1 => \x7b\n        a;\n        b \x7d,\n    2 => \x7b c \x7d \x7d\n"
    let out' := "match x => \x7b\n    1 => \x7b\n        a;\n        b \x7d;\n    2 => \x7b c \x7d \x7d\n"
    let emitter := Emitter.fresh false
    (armsText.convert rules).result = .ok out.toList ∧
      (armsText.convert rules').result = .ok out'.toList ∧
      ∃ trees, armsText.trees = .ok trees ∧
        (armsText.layout rules trees).events.filterMap Event.ruleless? =
          (armsText.layout rules' trees).events.filterMap Event.ruleless? ∧
        ∀ i, out.toList[i]? ≠ out'.toList[i]? →
          SeparatorAt emitter (armsText.layout rules trees).events i ∧
            SeparatorAt emitter (armsText.layout rules' trees).events i := by
  intro rules rules' out out' emitter
  have h : (armsText.convert rules).result = .ok out.toList := by decide +kernel
  have h' : (armsText.convert rules').result = .ok out'.toList := by decide +kernel
  obtain ⟨failure, hno, -⟩ | ⟨trees, found, found', ht, hok, hok', hsame, hdiff⟩ :=
    armsText.convert_reruled rules rules'
  · exact absurd (h.symm.trans hno) (by simp)
  · obtain rfl := Except.ok.inj (h.symm.trans hok)
    obtain rfl := Except.ok.inj (h'.symm.trans hok')
    exact ⟨h, h', trees, ht, hsame, (hdiff rfl rfl rfl).2⟩

end Offside
