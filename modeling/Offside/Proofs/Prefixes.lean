import Offside.Proofs.ProgramLayout
import Offside.Proofs.Turns

/-!
# Items before others

What is put out for some items does not depend on what follows them, but that an arrow at their end
looks at the item behind it. Where a list ends, all that is put out for it is the closing of the
blocks that are still open.

- `nest_layoutTree`, `nest_layoutItems`: a tree closes the blocks that are opened in it, and a list
  those that are open before it too.
- `exists_before`: what is put out before an item that is no arrow depends on its region only.
- `exists_ahead`: items of which the last is no arrow are laid out ahead of all that may follow.
- `Source.layout_continued`: a list that goes on starts with what the list puts out.
-/
namespace Offside

set_option autoImplicit false

namespace Layout

/-! ## Traces one behind the other -/

namespace Trace

theorem andThen_of_fault {first : Trace} {fault : Fault} (h : first.fault = some fault)
    (second : Trace) : first.andThen second = first := by
  unfold andThen
  rw [h]

theorem andThen_of_none {first : Trace} (h : first.fault = none) (second : Trace) :
    first.andThen second = second.after first.events := by
  unfold andThen
  rw [h]

theorem andThen_assoc (first second third : Trace) :
    (first.andThen second).andThen third = first.andThen (second.andThen third) := by
  cases hf : first.fault with
  | some fault => rw [andThen_of_fault hf, andThen_of_fault hf, andThen_of_fault hf]
  | none =>
    rw [andThen_of_none hf, andThen_of_none hf]
    cases hs : second.fault with
    | some fault => rw [andThen_of_fault hs, andThen_of_fault (by exact hs)]
    | none =>
      rw [andThen_of_none hs, andThen_of_none (by exact hs)]
      simp [after]

end Trace

/-! ## Blocks that are open -/

theorem nest_frame {inner inner' : List (Option Level)} {events : List Event}
    (h : nest inner events = some inner') (outer : List (Option Level)) :
    nest (inner ++ outer) events = some (inner' ++ outer) := by
  induction events generalizing inner with
  | nil =>
    obtain rfl : inner = inner' := by simpa [nest] using h
    rfl
  | cons event events ih =>
    cases event with
    | write token region => exact ih h
    | separate kind => exact ih h
    | enter level line => exact ih h
    | leave dedent =>
      cases inner with
      | nil => simp [nest] at h
      | cons level inner => exact ih h

theorem nest_close (blocks : List Level) :
    nest (blocks.map some) (blocks.map fun _ => .leave none) = some [] := by
  induction blocks with
  | nil => rfl
  | cons level blocks ih => exact ih

variable (source : Source) (rules : Rules)

/-- What an item puts out leaves those blocks open that the scope behind it holds, if what is inside
the item closes all blocks that it opens. -/
theorem nest_trace {scope reached : Scope} {tree : Tree} {events : List Event}
    (ha : scope.arrive (source.resolve tree.span) = .ok (events, reached))
    (following : Option Region)
    (hi : tree.marker? = none → nest [] (layoutTree source rules tree).events = some []) :
    let departed := reached.depart rules tree (source.resolve tree.span) following
    nest (scope.blocks.map some)
        (Turn.trace source rules ⟨tree, .ok events, departed.1, departed.2⟩).events =
      some (departed.2.blocks.map some) := by
  intro departed
  have harrive := nest_of_arrive ha (List.append_nil _).symm (List.append_nil _).symm
  cases hm : tree.marker? with
  | some marker =>
    obtain ⟨kept, hkept, hdepart⟩ := nest_of_depart rules tree (source.resolve tree.span) following
      (List.append_nil reached.blocks).symm
    rw [List.append_nil] at hkept
    simp only [Turn.trace, hm, Option.isSome_some, if_true]
    rw [nest_append, harrive, Option.bind_some, hdepart, ← hkept]
  | none =>
    have hdeparted : departed = ([], tree.note rules reached) := by
      show reached.depart rules tree _ _ = _
      simp only [Scope.depart, hm]
    have hinside := nest_frame (hi hm) (reached.blocks.map some)
    simp only [Turn.trace, hm, Option.isSome_none, Bool.false_eq_true, if_false,
      Trace.after_events]
    rw [nest_append, harrive, Option.bind_some, hdeparted, blocks_note]
    exact hinside

mutual

/-- A tree closes all blocks that are opened in it. -/
theorem nest_layoutTree (tree : Tree) (hf : (layoutTree source rules tree).fault = none) :
    nest [] (layoutTree source rules tree).events = some [] := by
  cases tree with
  | leaf token =>
    rw [layoutTree]
    rfl
  | group delimiter opening closing inner =>
    rw [layoutTree, Trace.after_fault] at hf
    have hinner := (Trace.andThen_fault_eq_none.mp hf).1
    have hnest := nest_layoutItems Scope.fresh inner hinner
    rw [layoutTree, Trace.after_events, Trace.andThen_events hinner, List.singleton_append, nest,
      nest_append]
    show (nest (Scope.fresh.blocks.map some) _).bind _ = _
    rw [hnest]
    rfl
  | repetition dollar closing inner separator operator =>
    rw [layoutTree] at hf
    cases hf
termination_by structural tree

/-- A list closes all blocks that are opened in it, and those that were open before. -/
theorem nest_layoutItems (scope : Scope) (items : List Tree)
    (hf : (layoutItems source rules scope items).fault = none) :
    nest (scope.blocks.map some) (layoutItems source rules scope items).events = some [] := by
  cases items with
  | nil =>
    rw [layoutItems]
    exact nest_close scope.blocks
  | cons tree rest =>
    obtain ⟨events, reached, ha⟩ := exists_arrive_of_fault_eq_none source rules hf
    rw [layoutItems_ok source rules ha] at hf ⊢
    obtain ⟨htree, hrest⟩ := Trace.andThen_fault_eq_none.mp hf
    have hnest := nest_trace source rules ha (rest.head?.map fun next => source.resolve next.span)
      fun hm => nest_layoutTree tree (by simpa [Turn.trace, hm] using htree)
    rw [Trace.andThen_events htree, nest_append, hnest, Option.bind_some]
    exact nest_layoutItems _ rest hrest
termination_by structural items

end

/-! ## Before an item -/

/-- What is put out before an item that is no arrow, and the scope in which it is met, depend on its
region only. Up to there those blocks are open that the scope holds. -/
theorem exists_before (scope : Scope) (items : List Tree) (region : Region) :
    ∃ (first : Trace) (reached : Scope),
      (first.fault = none →
        nest (scope.blocks.map some) first.events = some (reached.blocks.map some)) ∧
      ∀ tree more, source.resolve tree.span = region → tree.marker? = none →
        layoutItems source rules scope (items ++ tree :: more) =
          first.andThen ((layoutTree source rules tree).andThen
            (layoutItems source rules (tree.note rules reached) more)) := by
  induction items generalizing scope with
  | nil =>
    cases ha : scope.arrive region with
    | error fault =>
      refine ⟨⟨[], some fault⟩, scope, (fun h => nomatch h), ?_⟩
      intro tree more hr hm
      exact layoutItems_fault source rules (by rw [hr]; exact ha)
    | ok found =>
      obtain ⟨events, reached⟩ := found
      refine ⟨⟨events, none⟩, reached, fun _ =>
        nest_of_arrive ha (List.append_nil _).symm (List.append_nil _).symm, ?_⟩
      intro tree more hr hm
      exact layoutItems_item source rules (by rw [hr]; exact ha) hm
  | cons item items ih =>
    cases ha : scope.arrive (source.resolve item.span) with
    | error fault =>
      refine ⟨⟨[], some fault⟩, scope, (fun h => nomatch h), ?_⟩
      intro tree more hr hm
      exact layoutItems_fault source rules ha
    | ok found =>
      obtain ⟨events, reached⟩ := found
      let following := (items.head?.map fun next => source.resolve next.span).getD region
      let departed := reached.depart rules item (source.resolve item.span) (some following)
      let turn : Turn := ⟨item, .ok events, departed.1, departed.2⟩
      obtain ⟨first, last, hnest, hlast⟩ := ih departed.2
      refine ⟨(turn.trace source rules).andThen first, last, ?_, ?_⟩
      · intro h
        obtain ⟨hturn, hfirst⟩ := Trace.andThen_fault_eq_none.mp h
        have hitem := nest_trace source rules ha (some following) fun hm =>
          nest_layoutTree source rules item (by simpa [turn, Turn.trace, hm] using hturn)
        rw [Trace.andThen_events hturn, nest_append]
        show (nest _ (Turn.trace source rules ⟨item, .ok events, departed.1, departed.2⟩).events).bind
          _ = _
        rw [hitem]
        exact hnest hfirst
      · intro tree more hr hm
        have hnext : ((items ++ tree :: more).head?.map fun next => source.resolve next.span) =
            some following := by
          cases items with
          | nil => exact congrArg some hr
          | cons next items => rfl
        rw [List.cons_append, layoutItems_ok source rules ha, hnext, Trace.andThen_assoc]
        exact congrArg (turn.trace source rules).andThen (hlast tree more hr hm)

/-- Items of which the last is no arrow are laid out ahead of all that may follow them, and those
blocks are open behind them that the scope holds in which it is met. -/
theorem exists_ahead (scope : Scope) {items : List Tree}
    (hend : ∀ tree ∈ items.getLast?, tree.marker? = none) :
    ∃ (first : Trace) (left : Scope),
      (first.fault = none →
        nest (scope.blocks.map some) first.events = some (left.blocks.map some)) ∧
      ∀ more, layoutItems source rules scope (items ++ more) =
        first.andThen (layoutItems source rules left more) := by
  rcases List.eq_nil_or_concat items with rfl | ⟨front, last, rfl⟩
  · exact ⟨⟨[], none⟩, scope, fun _ => rfl, fun _ => rfl⟩
  · rw [List.concat_eq_append] at hend ⊢
    have hm : last.marker? = none := hend last List.getLast?_concat
    obtain ⟨first, reached, hnest, hlayout⟩ :=
      exists_before source rules scope front (source.resolve last.span)
    refine ⟨first.andThen (layoutTree source rules last), last.note rules reached, ?_, ?_⟩
    · intro h
      obtain ⟨hfirst, hlast⟩ := Trace.andThen_fault_eq_none.mp h
      have hinside := nest_frame (nest_layoutTree source rules last hlast)
        (reached.blocks.map some)
      rw [Trace.andThen_events hfirst, nest_append, hnest hfirst, blocks_note]
      exact hinside
    · intro more
      rw [List.append_assoc, List.singleton_append, hlayout last more rfl hm, Trace.andThen_assoc]

end Layout

open Layout

/-! ## Lists that go on -/

theorem Emitter.run_close (emitter : Emitter) (blocks : List Level) :
    (emitter.run (blocks.map fun _ => .leave none)).1 = closings blocks := by
  induction blocks generalizing emitter with
  | nil => rfl
  | cons level blocks ih =>
    show blockClosing ++ ((emitter.step (.leave none)).2.run _).1 = _
    rw [ih]
    rfl

theorem Emitter.run_isPrefix (emitter : Emitter) {l r : List Event} (h : l <+: r) :
    (emitter.run l).1 <+: (emitter.run r).1 := by
  obtain ⟨rest, rfl⟩ := h
  rw [Emitter.run_append]
  exact List.prefix_append _ _

/-- Items that follow others change nothing of what is put out for these, unless the last of these
is an arrow. Where the others have a fault, the longer list has it too, behind the same text. Where
they have none, all that they put out but the closing of the blocks that are still open is what the
longer list starts with. -/
theorem Source.layout_continued (source : Source) (rules : Rules) (emitter : Emitter)
    {pre : List Tree} (hend : ∀ tree ∈ pre.getLast?, tree.marker? = none) (post : List Tree) :
    (∀ fault, (source.layout rules pre).fault = some fault →
      (source.layout rules (pre ++ post)).fault = some fault ∧
      emitter.run (source.layout rules (pre ++ post)).events =
        emitter.run (source.layout rules pre).events) ∧
    ((source.layout rules pre).fault = none → ∃ events blocks,
      nest [] events = some (blocks.map some) ∧
      (emitter.run (source.layout rules pre).events).1 =
        (emitter.run events).1 ++ closings blocks ∧
      events <+: (source.layout rules (pre ++ post)).events ∧
      (emitter.run events).1 <+: (emitter.run (source.layout rules (pre ++ post)).events).1) := by
  obtain ⟨first, left, hnest, hlayout⟩ := exists_ahead source rules Scope.fresh hend
  have hpre : source.layout rules pre = first.andThen ⟨left.close, none⟩ := by
    have halone := hlayout []
    rw [List.append_nil, layoutItems] at halone
    exact halone
  have hboth : source.layout rules (pre ++ post) =
      first.andThen (layoutItems source rules left post) := hlayout post
  constructor
  · intro fault hfault
    have hfirst : first.fault = some fault := by
      rw [hpre] at hfault
      cases hf : first.fault with
      | none =>
        rw [Trace.andThen_of_none hf] at hfault
        cases hfault
      | some other => rwa [Trace.andThen_of_fault hf, hf] at hfault
    rw [hboth, hpre, Trace.andThen_of_fault hfirst, Trace.andThen_of_fault hfirst]
    exact ⟨hfirst, rfl⟩
  · intro hnone
    rw [hpre] at hnone
    have hfirst := (Trace.andThen_fault_eq_none.mp hnone).1
    have hstarts : first.events <+: (source.layout rules (pre ++ post)).events := by
      rw [hboth, Trace.andThen_events hfirst]
      exact List.prefix_append _ _
    refine ⟨first.events, left.blocks, hnest hfirst, ?_, hstarts, emitter.run_isPrefix hstarts⟩
    rw [hpre, Trace.andThen_events hfirst, Emitter.run_append]
    exact congrArg (_ ++ ·) (Emitter.run_close _ left.blocks)

def danglingText : Source := Source.ofText "dangling" "m =>\n  (a =>\n    b)\n  c\n d".toList

/-- The last item stands at the column of no block. Before it a block is open behind a group with a
block of its own. -/
theorem danglingText_continued :
    let rules : Rules := ⟨[], [], .always, false⟩
    let items := danglingText.trees.toOption.getD []
    let emitter := Emitter.fresh false
    (∀ tree ∈ (items.take 4).getLast?, tree.marker? = none) ∧
      (danglingText.layout rules (items.take 4)).fault = none ∧
      (danglingText.layout rules (items.take 4 ++ items.drop 4)).fault.isSome = true ∧
      (∃ events blocks, nest [] events = some (blocks.map some) ∧
        (emitter.run (danglingText.layout rules (items.take 4)).events).1 =
          (emitter.run events).1 ++ closings blocks ∧
        (emitter.run events).1 <+:
          (emitter.run (danglingText.layout rules (items.take 4 ++ items.drop 4)).events).1) ∧
      emitter.run (danglingText.layout rules (items ++ items.take 1)).events =
        emitter.run (danglingText.layout rules items).events := by
  intro rules items emitter
  have hend : ∀ tree ∈ (items.take 4).getLast?, tree.marker? = none := by decide +kernel
  have hnone : (danglingText.layout rules (items.take 4)).fault = none := by decide +kernel
  have hend' : ∀ tree ∈ items.getLast?, tree.marker? = none := by decide +kernel
  have hsome : (danglingText.layout rules items).fault.isSome = true := by decide +kernel
  obtain ⟨fault, hfault⟩ := Option.isSome_iff_exists.mp hsome
  obtain ⟨events, blocks, hnest, hrun, -, hstarts⟩ :=
    (danglingText.layout_continued rules emitter hend (items.drop 4)).2 hnone
  refine ⟨hend, hnone, by decide +kernel, ⟨events, blocks, hnest, hrun, hstarts⟩, ?_⟩
  exact ((danglingText.layout_continued rules emitter hend' (items.take 1)).1 fault hfault).2

end Offside
