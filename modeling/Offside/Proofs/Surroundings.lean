import Offside.Proofs.OutputJoin
import Offside.Proofs.Prefixes

/-!
# Around a group

What stands between two brackets may be anything: outside of them the same is put out.

- `Surroundings`: a list of items with one item left out, at any depth.
- `exists_beside`: what is put out on both sides of a group in its list.
- `exists_around`: what is put out on both sides of a group that is deep inside.
- `Source.layout_refilled`: the text before and behind the content of a group, and the cursor at the
  end, do not depend on the content.
-/
namespace Offside

set_option autoImplicit false

open Layout

/-- A list of items with one item left out, which may be inside a group or a repetition. -/
inductive Surroundings where
  | beside (before after : List Tree)
  | inGroup (before : List Tree) (delimiter : Delimiter) (opening closing : Span)
      (inner : Surroundings) (after : List Tree)
  | inRepetition (before : List Tree) (dollar closing : Span) (inner : Surroundings)
      (separator : Option Token) (operator : Token) (after : List Tree)

/-- The list with an item put in. -/
def Surroundings.fill (item : Tree) : Surroundings → List Tree
  | beside before after => before ++ item :: after
  | inGroup before delimiter opening closing inner after =>
    before ++ .group delimiter opening closing (inner.fill item) :: after
  | inRepetition before dollar closing inner separator operator after =>
    before ++ .repetition dollar closing (inner.fill item) separator operator :: after

namespace Layout

variable (source : Source) (rules : Rules)

/-! ## The events around a group -/

theorem events_layoutTree_group {delimiter : Delimiter} {opening closing : Span}
    {inner : List Tree} (h : (layoutItems source rules Scope.fresh inner).fault = none) :
    (layoutTree source rules (.group delimiter opening closing inner)).events =
      .write (openingToken delimiter opening) (source.resolve opening) ::
        ((layoutItems source rules Scope.fresh inner).events ++
          [.write (closingToken delimiter closing) (source.resolve closing)]) := by
  rw [layoutTree, Trace.after_events, Trace.andThen_events h]
  rfl

/-- Beside a group the same is put out whatever it holds, if all that it holds is laid out. -/
theorem exists_beside (before after : List Tree) (delimiter : Delimiter) (opening closing : Span) :
    ∃ l r : List Event, ∀ inner,
      (source.layout rules (before ++ .group delimiter opening closing inner :: after)).fault =
        none →
      (source.layout rules inner).fault = none ∧
      (source.layout rules (before ++ .group delimiter opening closing inner :: after)).events =
        l ++ .write (openingToken delimiter opening) (source.resolve opening) ::
          ((source.layout rules inner).events ++
            .write (closingToken delimiter closing) (source.resolve closing) :: r) := by
  obtain ⟨first, reached, -, hlayout⟩ := exists_before source rules Scope.fresh before
    (source.resolve ⟨opening.lo, closing.hi⟩)
  refine ⟨first.events, (layoutItems source rules reached after).events, ?_⟩
  intro inner hf
  have hsplit : source.layout rules (before ++ .group delimiter opening closing inner :: after) =
      first.andThen ((layoutTree source rules (.group delimiter opening closing inner)).andThen
        (layoutItems source rules reached after)) :=
    hlayout (.group delimiter opening closing inner) after rfl rfl
  rw [hsplit] at hf ⊢
  obtain ⟨hfirst, hrest⟩ := Trace.andThen_fault_eq_none.mp hf
  obtain ⟨hgroup, -⟩ := Trace.andThen_fault_eq_none.mp hrest
  have hinner : (layoutItems source rules Scope.fresh inner).fault = none := by
    rw [layoutTree, Trace.after_fault] at hgroup
    exact (Trace.andThen_fault_eq_none.mp hgroup).1
  refine ⟨hinner, ?_⟩
  rw [Trace.andThen_events hfirst, Trace.andThen_events hgroup,
    events_layoutTree_group source rules hinner, List.cons_append, List.append_assoc]
  rfl

/-- Around a group, however deep it is, the same is put out whatever it holds. -/
theorem exists_around (surroundings : Surroundings) (delimiter : Delimiter)
    (opening closing : Span) :
    ∃ l r : List Event, ∀ content,
      (source.layout rules
        (surroundings.fill (.group delimiter opening closing content))).fault = none →
      (source.layout rules (surroundings.fill (.group delimiter opening closing content))).events =
        l ++ .write (openingToken delimiter opening) (source.resolve opening) ::
          ((source.layout rules content).events ++
            .write (closingToken delimiter closing) (source.resolve closing) :: r) := by
  induction surroundings with
  | beside before after =>
    obtain ⟨l, r, h⟩ := exists_beside source rules before after delimiter opening closing
    exact ⟨l, r, fun content hf => (h content hf).2⟩
  | inGroup before outer first last inner after ih =>
    obtain ⟨l, r, hinside⟩ := ih
    obtain ⟨l', r', houtside⟩ := exists_beside source rules before after outer first last
    refine ⟨l' ++ .write (openingToken outer first) (source.resolve first) :: l,
      r ++ .write (closingToken outer last) (source.resolve last) :: r', ?_⟩
    intro content hf
    obtain ⟨hf', hevents⟩ := houtside _ hf
    have hcontent := hinside content hf'
    show (source.layout rules (before ++ _ :: after)).events = _
    rw [hevents, hcontent]
    simp only [List.append_assoc, List.cons_append]
  | inRepetition before dollar last inner separator operator after ih =>
    refine ⟨[], [], ?_⟩
    intro content hf
    obtain ⟨first, reached, -, hlayout⟩ := exists_before source rules Scope.fresh before
      (source.resolve ⟨dollar.lo, operator.span.hi⟩)
    have hsplit := hlayout (.repetition dollar last
      (inner.fill (.group delimiter opening closing content)) separator operator) after rfl rfl
    have hnone : (first.andThen _).fault = none := (congrArg Trace.fault hsplit).symm.trans hf
    have hrepetition := (Trace.andThen_fault_eq_none.mp (Trace.andThen_fault_eq_none.mp hnone).2).1
    rw [layoutTree] at hrepetition
    cases hrepetition

end Layout

/-! ## The text around a group -/

/-- Behind the closing bracket of a group nothing is left of what was put out inside it. -/
theorem Emitter.run_refilled (emitter : Emitter) (l inside r : List Event) (opening closing : Token)
    (first last : Region) :
    let front := emitter.run (l ++ [.write opening first])
    let back := Emitter.run ⟨emitter.preserveBlankLines, some last.stop, true⟩ r
    ∃ between, emitter.run (l ++ .write opening first :: (inside ++ .write closing last :: r)) =
      (front.1 ++ (between ++ closing.text ++ back.1), back.2) := by
  intro front back
  let stepped := (front.2.run inside).2
  have hkeeps : stepped.preserveBlankLines = emitter.preserveBlankLines := by
    show ((emitter.run (l ++ [_])).2.run inside).2.preserveBlankLines = _
    rw [(Emitter.run_keeps _ inside).1, (Emitter.run_keeps _ _).1]
  have hwrite : stepped.run (.write closing last :: r) =
      (stepped.gap last.start ++ closing.text ++ back.1, back.2) := by
    rw [Emitter.run, Emitter.step, Emitter.write]
    simp only [hkeeps]
    rfl
  have hinside : front.2.run (inside ++ .write closing last :: r) =
      ((front.2.run inside).1 ++ (stepped.gap last.start ++ closing.text ++ back.1), back.2) := by
    rw [Emitter.run_append, hwrite]
  have hfront := emitter.run_append (l ++ [.write opening first]) (inside ++ .write closing last :: r)
  refine ⟨(front.2.run inside).1 ++ stepped.gap last.start, ?_⟩
  rw [List.append_cons, hfront]
  show (front.1 ++ (front.2.run _).1, (front.2.run _).2) = _
  rw [hinside]
  simp only [List.append_assoc]

/-- Whatever stands between the brackets of a group, if all is laid out without a fault, the same
text is put out up to the opening bracket and from the closing bracket on, and the cursor is the
same at the end. -/
theorem Source.layout_refilled (source : Source) (rules : Rules) (emitter : Emitter)
    (surroundings : Surroundings) (delimiter : Delimiter) (opening closing : Span) :
    ∃ l r front back last,
      (emitter.run (l ++ [.write (openingToken delimiter opening) (source.resolve opening)])).1 =
        front ++ [delimiter.opening] ∧
      Emitter.run ⟨emitter.preserveBlankLines, some (source.resolve closing).stop, true⟩ r =
        (back, last) ∧
      ∀ content,
        (source.layout rules
          (surroundings.fill (.group delimiter opening closing content))).fault = none →
        (source.layout rules
            (surroundings.fill (.group delimiter opening closing content))).events =
          l ++ .write (openingToken delimiter opening) (source.resolve opening) ::
            ((source.layout rules content).events ++
              .write (closingToken delimiter closing) (source.resolve closing) :: r) ∧
        ∃ inside,
          emitter.run (source.layout rules
              (surroundings.fill (.group delimiter opening closing content))).events =
            (front ++ delimiter.opening :: (inside ++ delimiter.closing :: back), last) := by
  obtain ⟨l, r, hevents⟩ := exists_around source rules surroundings delimiter opening closing
  let open' : Event := .write (openingToken delimiter opening) (source.resolve opening)
  have hfront : (emitter.run (l ++ [open'])).1 =
      ((emitter.run l).1 ++ (emitter.run l).2.gap (source.resolve opening).start) ++
        [delimiter.opening] := by
    rw [Emitter.run_append, List.append_assoc]
    show _ ++ ((_ ++ [delimiter.opening]) ++ []) = _
    rw [List.append_nil]
  refine ⟨l, r, _, _, _, hfront, rfl, ?_⟩
  intro content hf
  have heq := hevents content hf
  obtain ⟨inside, hrun⟩ := emitter.run_refilled l (source.layout rules content).events r
    (openingToken delimiter opening) (closingToken delimiter closing) (source.resolve opening)
    (source.resolve closing)
  refine ⟨heq, inside, ?_⟩
  rw [heq, hrun, hfront]
  simp [closingToken]

def boxedText : Source := Source.ofText "boxed" "f =>\n  [(a)]\n  b".toList

/-- The items of the text without its innermost group. -/
def boxed : Surroundings :=
  .inGroup [.leaf ⟨.identifier, ['f'], ⟨0, 1⟩⟩, .leaf ⟨.fatArrow, fatArrow, ⟨2, 4⟩⟩]
    .bracket ⟨7, 8⟩ ⟨11, 12⟩ (.beside [] []) [.leaf ⟨.identifier, ['b'], ⟨15, 16⟩⟩]

/-- In place of the name stand an arrow, which puts in a block, and nothing at all. -/
theorem boxedText_refilled :
    let rules : Rules := ⟨[], [], .always, false⟩
    let items (content : List Tree) := boxed.fill (.group .paren ⟨8, 9⟩ ⟨10, 11⟩ content)
    let arrow : Tree := .leaf ⟨.fatArrow, fatArrow, ⟨9, 11⟩⟩
    (boxedText.layout rules (items [arrow])).fault = none ∧
      (boxedText.layout rules (items [])).fault = none ∧
      ∃ front back last inside inside',
        (Emitter.fresh false).run (boxedText.layout rules (items [arrow])).events =
          (front ++ '(' :: (inside ++ ')' :: back), last) ∧
        (Emitter.fresh false).run (boxedText.layout rules (items [])).events =
          (front ++ '(' :: (inside' ++ ')' :: back), last) := by
  intro rules items arrow
  have hf : (boxedText.layout rules (items [arrow])).fault = none := by decide +kernel
  have hf' : (boxedText.layout rules (items [])).fault = none := by decide +kernel
  obtain ⟨l, r, front, back, last, -, -, hall⟩ := boxedText.layout_refilled rules
    (Emitter.fresh false) boxed .paren ⟨8, 9⟩ ⟨10, 11⟩
  obtain ⟨-, inside, hrun⟩ := hall [arrow] hf
  obtain ⟨-, inside', hrun'⟩ := hall [] hf'
  exact ⟨hf, hf', front, back, last, inside, inside', hrun, hrun'⟩

end Offside
