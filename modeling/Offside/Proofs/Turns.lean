import Offside.Proofs.Weaving

/-!
# The items of a list, turn by turn

The layout of a list takes its items in turn. What an item does to the blocks is told apart from
what is inside it.

- `Turn`, `turns`: the items of a list with what their arrival and their arrows put in.
- `layoutItems_eq_turns`: the layout of a list is what its turns put out, and the open blocks close.
- `exists_of_turns_eq_append`: the turns behind some turns are those of the items that remain.
- `turn_cases`: a turn is one that cannot be reached, or it follows from the scope before it.
- `nest`: the blocks that are open inside a block.
- `nest_puts`: what turns have put in leaves just those blocks open that the scope holds.
-/
namespace Offside.Layout

set_option autoImplicit false

variable (source : Source) (rules : Rules)

/-- What an item does behind itself: an arrow opens a block, and a name may be noted. -/
def Scope.depart (reached : Scope) (tree : Tree) (region : Region) (following : Option Region) :
    List Event × Scope :=
  match tree.marker? with
  | some marker => reached.openBlock rules marker region following
  | none => ([], tree.note rules reached)

/-- One item of a list: what it puts in before it is written, or why it cannot be reached; what it
puts in behind itself; and the scope that it leaves. -/
structure Turn where
  item : Tree
  arrival : Except Fault (List Event)
  opening : List Event
  left : Scope

namespace Turn

def region (turn : Turn) : Region := source.resolve turn.item.span

def puts (turn : Turn) : List Event :=
  match turn.arrival with
  | .error _ => []
  | .ok events => events ++ turn.opening

def trace (turn : Turn) : Trace :=
  match turn.arrival with
  | .error fault => ⟨[], some fault⟩
  | .ok events =>
    if turn.item.marker?.isSome then ⟨events ++ turn.opening, none⟩
    else (layoutTree source rules turn.item).after events

end Turn

/-- The turns of a list of items in a scope, up to one that cannot be reached. -/
def turns (scope : Scope) : List Tree → List Turn
  | [] => []
  | tree :: rest =>
    let region := source.resolve tree.span
    match scope.arrive region with
    | .error fault => [⟨tree, .error fault, [], scope⟩]
    | .ok (events, reached) =>
      let (opening, left) := reached.depart rules tree region
        (rest.head?.map fun next => source.resolve next.span)
      ⟨tree, .ok events, opening, left⟩ :: turns left rest

def lastScope (scope : Scope) : List Turn → Scope
  | [] => scope
  | turn :: rest => lastScope turn.left rest

theorem lastScope_append_cons (scope : Scope) (l r : List Turn) (turn : Turn) :
    lastScope scope (l ++ turn :: r) = lastScope turn.left r := by
  induction l generalizing scope with
  | nil => rfl
  | cons first l ih => exact ih first.left

theorem lastScope_concat (scope : Scope) (l : List Turn) (turn : Turn) :
    lastScope scope (l ++ [turn]) = turn.left :=
  lastScope_append_cons scope l [] turn

/-! ## Turns and traces -/

theorem turns_error {scope : Scope} {tree : Tree} {rest : List Tree} {fault : Fault}
    (ha : scope.arrive (source.resolve tree.span) = .error fault) :
    turns source rules scope (tree :: rest) = [⟨tree, .error fault, [], scope⟩] := by
  simp only [turns, ha]

theorem turns_ok {scope reached : Scope} {tree : Tree} {rest : List Tree} {events : List Event}
    (ha : scope.arrive (source.resolve tree.span) = .ok (events, reached)) :
    turns source rules scope (tree :: rest) =
      let departed := reached.depart rules tree (source.resolve tree.span)
        (rest.head?.map fun next => source.resolve next.span)
      ⟨tree, .ok events, departed.1, departed.2⟩ :: turns source rules departed.2 rest := by
  simp only [turns, ha]

/-- The layout of a list is what its turns put out one after another, and at the end the blocks
that are open close. -/
theorem layoutItems_eq_turns (scope : Scope) (items : List Tree) :
    layoutItems source rules scope items =
      (turns source rules scope items).foldr
        (fun turn trace => (turn.trace source rules).andThen trace)
        ⟨(lastScope scope (turns source rules scope items)).close, none⟩ := by
  induction items generalizing scope with
  | nil => rw [layoutItems, turns, List.foldr_nil, lastScope]
  | cons tree rest ih =>
    cases ha : scope.arrive (source.resolve tree.span) with
    | error fault =>
      rw [layoutItems_fault source rules ha, turns_error source rules ha]
      rfl
    | ok found =>
      obtain ⟨events, reached⟩ := found
      rw [turns_ok source rules ha]
      cases hm : tree.marker? with
      | some marker =>
        rw [layoutItems_marker source rules ha hm]
        simp only [List.foldr_cons, lastScope, Turn.trace, Scope.depart, hm, Option.isSome_some,
          if_true, ih]
        simp [Trace.andThen, Trace.after]
      | none =>
        rw [layoutItems_item source rules ha hm]
        simp only [List.foldr_cons, lastScope, Turn.trace, Scope.depart, hm, Option.isSome_none,
          Bool.false_eq_true, if_false, ih]
        unfold Trace.andThen Trace.after
        cases hf : (layoutTree source rules tree).fault <;> simp [hf]

theorem exists_of_turns_eq_cons {scope : Scope} {items : List Tree} {t : Turn} {r : List Turn}
    (h : turns source rules scope items = t :: r) : ∃ rest, items = t.item :: rest := by
  cases items with
  | nil => simp [turns] at h
  | cons tree rest =>
    cases ha : scope.arrive (source.resolve tree.span) with
    | error fault =>
      rw [turns_error source rules ha, List.cons.injEq] at h
      exact ⟨rest, by rw [← h.1]⟩
    | ok found =>
      rw [turns_ok source rules ha, List.cons.injEq] at h
      exact ⟨rest, by rw [← h.1]⟩

theorem exists_of_turns_eq_cons_append {scope : Scope} {items : List Tree} {first t : Turn}
    {l r : List Turn} (h : turns source rules scope items = first :: (l ++ t :: r)) :
    ∃ rest events reached, items = first.item :: rest ∧
      scope.arrive (first.region source) = .ok (events, reached) ∧
      first.arrival = .ok events ∧
      (reached.depart rules first.item (first.region source)
        (rest.head?.map fun next => source.resolve next.span)).1 = first.opening ∧
      (reached.depart rules first.item (first.region source)
        (rest.head?.map fun next => source.resolve next.span)).2 = first.left ∧
      turns source rules first.left rest = l ++ t :: r := by
  obtain ⟨rest, rfl⟩ := exists_of_turns_eq_cons source rules h
  cases ha : scope.arrive (source.resolve first.item.span) with
  | error fault =>
    rw [turns_error source rules ha] at h
    simp at h
  | ok found =>
    obtain ⟨events, reached⟩ := found
    rw [turns_ok source rules ha, List.cons.injEq] at h
    obtain ⟨hfirst, hrest⟩ := h
    rw [← hfirst]
    exact ⟨rest, events, reached, rfl, ha, rfl, rfl, rfl, hrest⟩

theorem exists_of_turns_eq_append {scope : Scope} {items : List Tree} {l r : List Turn} {t : Turn}
    (h : turns source rules scope items = l ++ t :: r) :
    ∃ rest, items = l.map Turn.item ++ t.item :: rest ∧
      turns source rules (lastScope scope l) (t.item :: rest) = t :: r := by
  induction l generalizing scope items with
  | nil =>
    obtain ⟨rest, rfl⟩ := exists_of_turns_eq_cons source rules h
    exact ⟨rest, rfl, h⟩
  | cons first l ih =>
    obtain ⟨rest, _, _, rfl, _, _, _, _, hrest⟩ := exists_of_turns_eq_cons_append source rules h
    obtain ⟨tail, rfl, hturns⟩ := ih hrest
    exact ⟨tail, rfl, hturns⟩

theorem arrival_of_turns_eq_cons {scope : Scope} {rest : List Tree} {r : List Turn} {t : Turn}
    (h : turns source rules scope (t.item :: rest) = t :: r) :
    t.arrival = (scope.arrive (t.region source)).map Prod.fst := by
  cases ha : scope.arrive (source.resolve t.item.span) with
  | error fault =>
    rw [turns_error source rules ha, List.cons.injEq] at h
    rw [Turn.region, ha, ← h.1]
    rfl
  | ok found =>
    obtain ⟨events, reached⟩ := found
    rw [turns_ok source rules ha, List.cons.injEq] at h
    rw [Turn.region, ha, ← h.1]
    rfl

/-! ## One turn and the others -/

variable {source rules}

variable (source rules) in
/-- The layout of an item that is reached is what its turn puts out, and behind it the rest. -/
theorem layoutItems_ok {scope reached : Scope} {tree : Tree} {rest : List Tree}
    {events : List Event}
    (ha : scope.arrive (source.resolve tree.span) = .ok (events, reached)) :
    layoutItems source rules scope (tree :: rest) =
      let departed := reached.depart rules tree (source.resolve tree.span)
        (rest.head?.map fun next => source.resolve next.span)
      (Turn.trace source rules ⟨tree, .ok events, departed.1, departed.2⟩).andThen
        (layoutItems source rules departed.2 rest) := by
  rw [layoutItems_eq_turns, turns_ok source rules ha, List.foldr_cons, lastScope,
    ← layoutItems_eq_turns]

/-- An item that is reached has its turn, and then those behind it have theirs. -/
theorem exists_turn_cons {scope reached : Scope} {tree : Tree} {rest : List Tree}
    {events : List Event}
    (ha : scope.arrive (source.resolve tree.span) = .ok (events, reached)) :
    ∃ following opening left, reached.depart rules tree (source.resolve tree.span) following =
        (opening, left) ∧
      turns source rules scope (tree :: rest) =
        ⟨tree, .ok events, opening, left⟩ :: turns source rules left rest ∧
      layoutItems source rules scope (tree :: rest) =
        (Turn.trace source rules ⟨tree, .ok events, opening, left⟩).andThen
          (layoutItems source rules left rest) :=
  ⟨rest.head?.map fun next => source.resolve next.span, _, _, rfl,
    turns_ok source rules ha, layoutItems_ok source rules ha⟩

/-- The turn of an item is one that cannot be reached, or it follows from the scope before it. -/
theorem turn_cases {scope : Scope} {items : List Tree} {l r : List Turn} {t : Turn}
    (h : turns source rules scope items = l ++ t :: r) :
    ((∃ fault, t.arrival = .error fault) ∧ t.opening = []) ∨
      ∃ events reached following,
        (lastScope scope l).arrive (t.region source) = .ok (events, reached) ∧
        t.arrival = .ok events ∧
        reached.depart rules t.item (t.region source) following = (t.opening, t.left) := by
  obtain ⟨rest, -, hturns⟩ := exists_of_turns_eq_append source rules h
  cases ha : (lastScope scope l).arrive (source.resolve t.item.span) with
  | error fault =>
    rw [turns_error source rules ha, List.cons.injEq] at hturns
    rw [← hturns.1]
    exact .inl ⟨⟨fault, rfl⟩, rfl⟩
  | ok found =>
    obtain ⟨events, reached⟩ := found
    rw [turns_ok source rules ha, List.cons.injEq] at hturns
    have heq := hturns.1
    exact .inr ⟨events, reached, rest.head?.map fun next : Tree => source.resolve next.span, ha,
      (congrArg Turn.arrival heq).symm,
      Prod.ext (congrArg Turn.opening heq) (congrArg Turn.left heq)⟩

/-- Where the turn of an item puts out everything, the item has been reached. -/
theorem exists_reached_of_trace {scope : Scope} {items : List Tree} {l r : List Turn} {t : Turn}
    (h : turns source rules scope items = l ++ t :: r)
    (hf : (t.trace source rules).fault = none) :
    ∃ events reached following,
      (lastScope scope l).arrive (t.region source) = .ok (events, reached) ∧
      t.arrival = .ok events ∧
      reached.depart rules t.item (t.region source) following = (t.opening, t.left) := by
  obtain ⟨⟨fault, harrival⟩, -⟩ | hreached := turn_cases h
  · simp [Turn.trace, harrival] at hf
  · exact hreached

theorem Turn.mem_trace {tree : Tree} {events opening : List Event} {left : Scope} {event : Event}
    (h : event ∈ (Turn.trace source rules ⟨tree, .ok events, opening, left⟩).events) :
    event ∈ events ∨ event ∈ opening ∨ event ∈ (layoutTree source rules tree).events := by
  unfold Turn.trace at h
  simp only at h
  split at h
  · rcases List.mem_append.mp h with h | h
    · exact .inl h
    · exact .inr (.inl h)
  · rcases List.mem_append.mp h with h | h
    · exact .inl h
    · exact .inr (.inr h)

theorem exists_arrive_of_turns {scope : Scope} {items : List Tree} {l r : List Turn} {p t : Turn}
    (h : turns source rules scope items = l ++ p :: t :: r) :
    ∃ events reached, (lastScope scope l).arrive (p.region source) = .ok (events, reached) ∧
      p.arrival = .ok events ∧
      reached.depart rules p.item (p.region source) (some (t.region source)) =
        (p.opening, p.left) := by
  obtain ⟨rest, -, hturns⟩ := exists_of_turns_eq_append source rules h
  obtain ⟨rest', events, reached, heq, ha, harrival, ho, hd, hrest⟩ :=
    exists_of_turns_eq_cons_append source rules (l := []) hturns
  obtain ⟨tail, rfl⟩ := exists_of_turns_eq_cons source rules hrest
  exact ⟨events, reached, ha, harrival, Prod.ext ho hd⟩

/-! ## The last line met -/

theorem lastLine_of_arrive {scope reached : Scope} {region : Region} {events : List Event}
    (h : scope.arrive region = .ok (events, reached))
    (hle : ∀ line, scope.lastLine = some line → line ≤ region.stop.line) :
    reached.lastLine = some region.stop.line := by
  obtain ⟨-, -, rfl⟩ | ⟨line, hl, hge, -, rfl⟩ | ⟨_, -, -, hs⟩ := Scope.arrive_cases h
  · rfl
  · have := hle line hl
    rw [hl, Option.some.injEq]
    omega
  · obtain ⟨-, -, rfl⟩ | ⟨-, -, rfl, -⟩ := Scope.startLine_cases hs
    · rfl
    · rfl

theorem lastLine_note (tree : Tree) (reached : Scope) :
    (tree.note rules reached).lastLine = reached.lastLine := by
  cases tree with
  | leaf token =>
    simp only [Tree.note, Scope.noteWord]
    split <;> rfl
  | group delimiter opening closing inner => rfl
  | repetition dollar closing inner separator operator => rfl

/-- The line that an item leaves behind is the one on which it ends. Behind an arrow it is the one
on which the item after it ends, so that this item starts no line. -/
theorem lastLine_of_depart {reached : Scope} {region : Region}
    (h : reached.lastLine = some region.stop.line) (tree : Tree) (next : Region) :
    (reached.depart rules tree region (some next)).2.lastLine =
      some (if tree.marker?.isSome then next.stop.line else region.stop.line) := by
  unfold Scope.depart
  cases hm : tree.marker? with
  | some marker => rfl
  | none => simpa [lastLine_note] using h

/-- Before an item that has one before it, the last line met is the one on which that one ended, or
behind an arrow the one on which the item itself ends. -/
theorem lastLine_before {scope : Scope} {items : List Tree}
    (hs : items.Pairwise fun a b =>
      (source.resolve a.span).stop.line ≤ (source.resolve b.span).stop.line)
    (hle : ∀ tree ∈ items.head?, ∀ line, scope.lastLine = some line →
      line ≤ (source.resolve tree.span).stop.line)
    {l r : List Turn} {p t : Turn} (h : turns source rules scope items = l ++ p :: t :: r) :
    p.left.lastLine = some (if p.item.marker?.isSome then (t.region source).stop.line
      else (p.region source).stop.line) := by
  induction l generalizing scope items with
  | nil =>
    obtain ⟨rest, events, reached, rfl, ha, -, -, hd, hrest⟩ :=
      exists_of_turns_eq_cons_append source rules (l := []) h
    obtain ⟨tail, rfl⟩ := exists_of_turns_eq_cons source rules hrest
    rw [← hd]
    exact lastLine_of_depart (lastLine_of_arrive ha (hle p.item rfl)) p.item (t.region source)
  | cons first l ih =>
    obtain ⟨rest, events, reached, rfl, ha, -, -, hd, hrest⟩ :=
      exists_of_turns_eq_cons_append source rules (l := l ++ [p]) (by simpa using h)
    obtain ⟨hfirst, hsorted⟩ := List.pairwise_cons.mp hs
    refine ih hsorted ?_ (by simpa using hrest)
    intro next hnext line hline
    have hreached := lastLine_of_arrive ha (hle first.item rfl)
    rw [← hd, hnext, Option.map_some, lastLine_of_depart hreached, Option.some.injEq] at hline
    have hle' := hfirst next (List.mem_of_mem_head? hnext)
    rw [← hline]
    split
    · exact Int.le_refl _
    · exact hle'

/-! ## Blocks inside a block -/

/-- The blocks that are open inside a block after some events, the innermost first, where the given
ones were open before. There is no answer once the block itself has closed. -/
def nest (inner : List (Option Level)) : List Event → Option (List (Option Level))
  | [] => some inner
  | .write _ _ :: rest => nest inner rest
  | .separate _ :: rest => nest inner rest
  | .enter level _ :: rest => nest (level :: inner) rest
  | .leave _ :: rest =>
    match inner with
    | [] => none
    | _ :: outer => nest outer rest

theorem nest_append (inner : List (Option Level)) (l r : List Event) :
    nest inner (l ++ r) = (nest inner l).bind fun inner => nest inner r := by
  induction l generalizing inner with
  | nil => rfl
  | cons event l ih =>
    cases event with
    | leave dedent =>
      cases inner with
      | nil => rfl
      | cons level outer => exact ih outer
    | write token region => exact ih inner
    | separate kind => exact ih inner
    | enter level line => exact ih (level :: inner)

theorem nest_separation (scope : Scope) (inner : List (Option Level)) :
    nest inner scope.separation = some inner := by
  unfold Scope.separation
  split <;> rfl

theorem nest_leaves {closed left inner base : List Level} {line : Int} {events : List Event}
    {inner' : List (Option Level)} (hb : closed ++ left = inner ++ base)
    (hn : nest (inner.map some)
      (closed.map (fun level => Event.leave (some (level, line))) ++ events) = some inner') :
    ∃ kept, left = kept ++ base ∧ nest (kept.map some) events = some inner' := by
  induction closed generalizing inner with
  | nil => exact ⟨inner, hb, hn⟩
  | cons level closed ih =>
    cases inner with
    | nil => simp [nest] at hn
    | cons level' inner =>
      simp only [List.cons_append, List.cons.injEq] at hb
      exact ih hb.2 hn

theorem nest_arrive {scope reached : Scope} {region : Region} {events : List Event}
    (h : scope.arrive region = .ok (events, reached)) {inner base : List Level}
    (hb : scope.blocks = inner ++ base) {inner' : List (Option Level)}
    (hn : nest (inner.map some) events = some inner') :
    ∃ kept, inner' = kept.map some ∧ reached.blocks = kept ++ base := by
  have hnone (hr : reached.blocks = scope.blocks) (he : events = []) :
      ∃ kept, inner' = kept.map some ∧ reached.blocks = kept ++ base := by
    rw [he, nest, Option.some.injEq] at hn
    exact ⟨inner, hn.symm, hr.trans hb⟩
  obtain ⟨-, he, hr⟩ | ⟨_, -, -, he, hr⟩ | ⟨_, -, -, hs⟩ := Scope.arrive_cases h
  · exact hnone (by rw [hr]) he
  · exact hnone (by rw [hr]) he
  · obtain ⟨-, he, hr⟩ | ⟨-, -, rfl, rfl⟩ := Scope.startLine_cases hs
    · exact hnone (by rw [hr]) he
    · have hsplit := List.takeWhile_append_dropWhile
        (p := fun level : Level => level.column ≠ region.start.column) (l := scope.blocks)
      obtain ⟨kept, hleft, hkept⟩ := nest_leaves (hsplit.trans hb) hn
      rw [nest_separation, Option.some.injEq] at hkept
      exact ⟨kept, hkept.symm, hleft⟩

theorem blocks_note (tree : Tree) (reached : Scope) :
    (tree.note rules reached).blocks = reached.blocks := by
  cases tree with
  | leaf token =>
    simp only [Tree.note, Scope.noteWord]
    split <;> rfl
  | group delimiter opening closing inner => rfl
  | repetition dollar closing inner separator operator => rfl

theorem exists_closed_of_arrive {scope reached : Scope} {region : Region} {events : List Event}
    (h : scope.arrive region = .ok (events, reached)) :
    ∃ closed, scope.blocks = closed ++ reached.blocks := by
  obtain ⟨-, -, rfl⟩ | ⟨_, -, -, -, rfl⟩ | ⟨_, -, -, hs⟩ := Scope.arrive_cases h
  · exact ⟨[], rfl⟩
  · exact ⟨[], rfl⟩
  · obtain ⟨-, -, rfl⟩ | ⟨-, -, rfl, -⟩ := Scope.startLine_cases hs
    · exact ⟨[], rfl⟩
    · exact ⟨_, List.takeWhile_append_dropWhile.symm⟩

/-- Behind an item the same blocks are open as at it, or one more that it has opened. -/
theorem blocks_of_depart (rules : Rules) (reached : Scope) (tree : Tree) (region next : Region) :
    (tree.marker? = none ∧
        (reached.depart rules tree region (some next)).2.blocks = reached.blocks) ∨
      tree.marker?.isSome = true ∧
        (reached.depart rules tree region (some next)).2.blocks =
          ⟨next.start.column, reached.pending⟩ :: reached.blocks ∧
        .enter (some ⟨next.start.column, reached.pending⟩) region.start.line ∈
          (reached.depart rules tree region (some next)).1 := by
  unfold Scope.depart
  cases tree.marker? with
  | none => exact .inl ⟨rfl, blocks_note tree reached⟩
  | some marker => exact .inr ⟨rfl, rfl, by simp [Scope.openBlock]⟩

theorem nest_depart {reached : Scope} {tree : Tree} {region : Region} {following : Option Region}
    {inner base : List Level} (hb : reached.blocks = inner ++ base)
    {inner' : List (Option Level)}
    (hn : nest (inner.map some) (reached.depart rules tree region following).1 = some inner') :
    ∃ kept, inner' = kept.map some ∧
      (reached.depart rules tree region following).2.blocks = kept ++ base := by
  unfold Scope.depart at hn ⊢
  cases hm : tree.marker? with
  | none =>
    simp only [hm, nest, Option.some.injEq] at hn
    exact ⟨inner, hn.symm, (blocks_note tree reached).trans hb⟩
  | some marker =>
    have hwritten (events : List Event) : nest (inner.map some)
        ((if reached.keepsMarker rules then [.write marker region] else []) ++ events) =
          nest (inner.map some) events := by
      split <;> rfl
    cases following with
    | none =>
      simp only [hm, Scope.openBlock] at hn
      rw [hwritten, nest, nest, nest, Option.some.injEq] at hn
      exact ⟨inner, hn.symm, hb⟩
    | some next =>
      simp only [hm, Scope.openBlock] at hn
      rw [hwritten, nest, nest, Option.some.injEq] at hn
      refine ⟨⟨next.start.column, reached.pending⟩ :: inner, hn.symm, ?_⟩
      simp [Scope.openBlock, hb]

/-- The blocks of a scope stay the outer ones as long as the innermost of them does not close. -/
theorem nest_turns {scope : Scope} {items : List Tree} {l r : List Turn} {t : Turn}
    (h : turns source rules scope items = l ++ t :: r) {inner base : List Level}
    (hb : scope.blocks = inner ++ base) {inner' : List (Option Level)}
    (hn : nest (inner.map some) (l.flatMap Turn.puts) = some inner') :
    ∃ kept, inner' = kept.map some ∧ (lastScope scope l).blocks = kept ++ base := by
  induction l generalizing scope items inner with
  | nil =>
    rw [List.flatMap_nil, nest, Option.some.injEq] at hn
    exact ⟨inner, hn.symm, hb⟩
  | cons first l ih =>
    obtain ⟨rest, events, reached, rfl, ha, harrival, ho, hd, hrest⟩ :=
      exists_of_turns_eq_cons_append source rules h
    rw [List.flatMap_cons, nest_append] at hn
    obtain ⟨now, hnow, hlater⟩ := Option.bind_eq_some_iff.mp hn
    rw [Turn.puts, harrival, nest_append] at hnow
    obtain ⟨arrived, harrived, hopened⟩ := Option.bind_eq_some_iff.mp hnow
    obtain ⟨kept, rfl, hreached⟩ := nest_arrive ha hb harrived
    rw [← ho] at hopened
    obtain ⟨kept', rfl, hleft⟩ := nest_depart hreached hopened
    rw [hd] at hleft
    exact ih hrest hleft hlater

/-- The blocks that are open behind a turn are open at a later one too, below those that were opened
in between and are still open. -/
theorem nest_between {scope reached : Scope} {items : List Tree} {l m r : List Turn} {o t : Turn}
    (h : turns source rules scope items = l ++ o :: (m ++ t :: r)) {events : List Event}
    (ha : (lastScope o.left m).arrive (t.region source) = .ok (events, reached))
    {inner : List (Option Level)} (hn : nest [] (m.flatMap Turn.puts ++ events) = some inner) :
    ∃ kept, inner = kept.map some ∧ reached.blocks = kept ++ o.left.blocks := by
  obtain ⟨rest, -, hrest⟩ := exists_of_turns_eq_append source rules h
  obtain ⟨rest', _, _, -, -, -, -, -, hturns⟩ :=
    exists_of_turns_eq_cons_append source rules hrest
  rw [nest_append] at hn
  obtain ⟨mid, hmid, hlast⟩ := Option.bind_eq_some_iff.mp hn
  have hopen : o.left.blocks = [] ++ o.left.blocks := rfl
  obtain ⟨kept, rfl, hkept⟩ := nest_turns hturns hopen hmid
  exact nest_arrive ha hkept hlast

theorem nest_map_leave (closed kept : List Level) (line : Int) (events : List Event) :
    nest ((closed ++ kept).map some)
        (closed.map (fun level => Event.leave (some (level, line))) ++ events) =
      nest (kept.map some) events := by
  induction closed with
  | nil => rfl
  | cons level closed ih => exact ih

/-- The events of an arrival close the blocks that it takes from the scope, and no others. -/
theorem nest_of_arrive {scope reached : Scope} {region : Region} {events : List Event}
    (h : scope.arrive region = .ok (events, reached)) {inner kept base : List Level}
    (hb : scope.blocks = inner ++ base) (hk : reached.blocks = kept ++ base) :
    nest (inner.map some) events = some (kept.map some) := by
  have hstay (hr : reached.blocks = scope.blocks) (he : events = []) :
      nest (inner.map some) events = some (kept.map some) := by
    rw [he, nest, List.append_cancel_right (hb.symm.trans (hr.symm.trans hk))]
  obtain ⟨-, he, hr⟩ | ⟨_, -, -, he, hr⟩ | ⟨_, -, -, hs⟩ := Scope.arrive_cases h
  · exact hstay (by rw [hr]) he
  · exact hstay (by rw [hr]) he
  · obtain ⟨-, he, hr⟩ | ⟨-, -, rfl, rfl⟩ := Scope.startLine_cases hs
    · exact hstay (by rw [hr]) he
    · have hsplit := List.takeWhile_append_dropWhile
        (p := fun level : Level => level.column ≠ region.start.column) (l := scope.blocks)
      simp only at hk
      rw [hk, ← List.append_assoc] at hsplit
      have hinner := List.append_cancel_right (hsplit.trans hb)
      rw [← hinner, nest_map_leave, nest_separation]

variable (rules) in
theorem nest_of_depart {reached : Scope} (tree : Tree) (region : Region)
    (following : Option Region) {inner base : List Level} (hb : reached.blocks = inner ++ base) :
    ∃ kept, (reached.depart rules tree region following).2.blocks = kept ++ base ∧
      nest (inner.map some) (reached.depart rules tree region following).1 =
        some (kept.map some) := by
  unfold Scope.depart
  cases hm : tree.marker? with
  | none => exact ⟨inner, (blocks_note tree reached).trans hb, rfl⟩
  | some marker =>
    have hwritten (events : List Event) : nest (inner.map some)
        ((if reached.keepsMarker rules then [.write marker region] else []) ++ events) =
          nest (inner.map some) events := by
      split <;> rfl
    cases following with
    | none => exact ⟨inner, hb, hwritten _⟩
    | some next =>
      refine ⟨⟨next.start.column, reached.pending⟩ :: inner, ?_, hwritten _⟩
      simp [Scope.openBlock, hb]

/-- What turns have put in leaves just those blocks open that the scope holds. -/
theorem nest_puts {scope : Scope} {items : List Tree} {l r : List Turn} {t : Turn}
    (h : turns source rules scope items = l ++ t :: r) :
    nest (scope.blocks.map some) (l.flatMap Turn.puts) =
      some ((lastScope scope l).blocks.map some) := by
  induction l generalizing scope items with
  | nil => rfl
  | cons first l ih =>
    obtain ⟨rest, events, reached, rfl, ha, harrival, ho, hd, hrest⟩ :=
      exists_of_turns_eq_cons_append source rules h
    have harrived := nest_of_arrive ha (List.append_nil _).symm (List.append_nil _).symm
    obtain ⟨kept, hkept, hdeparted⟩ := nest_of_depart rules first.item
      (first.region source) (rest.head?.map fun next => source.resolve next.span)
      (List.append_nil reached.blocks).symm
    rw [List.append_nil, hd] at hkept
    rw [List.flatMap_cons, nest_append, Turn.puts, harrival, nest_append, harrived,
      Option.bind_some, ← ho, hdeparted, Option.bind_some, ← hkept]
    exact ih hrest

end Offside.Layout
