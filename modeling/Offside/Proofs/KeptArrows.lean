import Offside.Proofs.Announcing
import Offside.Proofs.BracedTrees

/-!
# Which arrows are kept

Whether an arrow is written is decided by the block that it stands in directly: under the policy
that keeps only some, a keyword of a selector must have announced that block.

- `InnermostAt`: an arrow has opened the innermost block that is open at an item.
- `keyword_eq_some_iff`: the keyword of the innermost block.
- `WovenIn`: where the events of a part stand among those of the whole.
- `Source.kept_arrows`: which arrows are read in a converted text.
-/
namespace Offside

set_option autoImplicit false

open Layout

theorem Tree.marker?_eq_some_iff {tree : Tree} {arrow : Token} :
    tree.marker? = some arrow ↔ tree = .leaf arrow ∧ arrow.kind = .fatArrow := by
  cases tree with
  | leaf token =>
    simp only [Tree.marker?, Option.ite_none_right_eq_some, Option.some.injEq, Tree.leaf.injEq]
    constructor
    · rintro ⟨hk, rfl⟩
      exact ⟨rfl, hk⟩
    · rintro ⟨rfl, hk⟩
      exact ⟨hk, rfl⟩
  | group delimiter opening closing inner => simp [Tree.marker?]
  | repetition dollar closing inner separator operator => simp [Tree.marker?]

namespace Layout

variable {source : Source} {rules : Rules}

/-! ## The innermost block -/

/-- An arrow has opened the innermost block that is open at a later item: every block that opened
between them has closed, and that of the arrow has not. -/
def InnermostAt (opener : Turn) (between : List Turn) (turn : Turn) : Prop :=
  opener.item.marker?.isSome = true ∧
    ∃ events, turn.arrival = .ok events ∧
      nest [] (between.flatMap Turn.puts ++ events) = some []

theorem Scope.keepsMarker_iff {scope : Scope} :
    scope.keepsMarker rules = true ↔
      rules.marker = .always ∨ ∃ word ∈ rules.selectors, scope.keyword = some word := by
  unfold Scope.keepsMarker
  cases rules.marker with
  | always => simp
  | selector =>
    cases scope.keyword with
    | none => simp
    | some word => simp

theorem Scope.keyword_eq_some_iff {scope : Scope} {word : List Char} :
    scope.keyword = some word ↔
      ∃ level outer, scope.blocks = level :: outer ∧ level.keyword = some word := by
  unfold Scope.keyword
  cases scope.blocks <;> simp

/-- Every block that is open has been opened by a turn, and the blocks inside it are those that have
opened since and are still open. -/
theorem exists_opener {items : List Tree} {l r : List Turn} {t : Turn}
    (h : turns source rules Scope.fresh items = l ++ t :: r) {inner outer : List Level}
    {level : Level} (hb : (lastScope Scope.fresh l).blocks = inner ++ level :: outer) :
    ∃ front opener between line, l = front ++ opener :: between ∧
      .enter (some level) line ∈ opener.opening ∧
      nest [] (between.flatMap Turn.puts) = some (inner.map some) := by
  induction l using List.reverseRecOn generalizing t r inner with
  | nil => simp [lastScope, Scope.fresh] at hb
  | append_singleton l p ih =>
    rw [lastScope_concat] at hb
    rw [List.append_assoc, List.singleton_append] at h
    obtain ⟨events, reached, ha, harrival, hd⟩ := exists_arrive_of_turns h
    have hearlier {inner' : List Level} (hr : reached.blocks = inner' ++ level :: outer) :
        ∃ front opener between line, l ++ [p] = front ++ opener :: between ∧
          .enter (some level) line ∈ opener.opening ∧
          nest [] (between.flatMap Turn.puts) = some (inner.map some) := by
      obtain ⟨closed, hclosed⟩ := exists_closed_of_arrive ha
      have hscope : (lastScope Scope.fresh l).blocks = (closed ++ inner') ++ level :: outer := by
        rw [hclosed, hr, List.append_assoc]
      obtain ⟨front, opener, between, line, rfl, ho, hnest⟩ := ih h hscope
      obtain ⟨kept, hkept, hopened⟩ := nest_of_depart rules p.item (p.region source)
        (some (t.region source)) hr
      rw [hd] at hkept hopened
      obtain rfl : inner = kept := List.append_cancel_right (hb.symm.trans hkept)
      refine ⟨front, opener, between ++ [p], line, by simp, ho, ?_⟩
      rw [List.flatMap_append, nest_append, hnest, Option.bind_some, List.flatMap_singleton,
        Turn.puts, harrival, nest_append, nest_of_arrive ha hscope hr, Option.bind_some, hopened]
    obtain ⟨-, hleft⟩ | ⟨-, hleft, hopening⟩ :=
      blocks_of_depart rules reached p.item (p.region source) (t.region source)
    · rw [hd, hb] at hleft
      exact hearlier hleft.symm
    · rw [hd, hb] at hleft
      rw [hd] at hopening
      cases inner with
      | nil =>
        obtain ⟨rfl, -⟩ := List.cons.inj hleft
        exact ⟨l, p, [], _, rfl, hopening, rfl⟩
      | cons first inner => exact hearlier (List.cons.inj hleft).2.symm

section Keyword

variable {trees items : List Tree} (ht : source.trees = .ok trees) (hi : ListedIn trees items)

include ht hi

/-- The keyword of the innermost block at an item is the last one before the arrow of that block, in
the statement of the arrow. -/
theorem keyword_eq_some_iff {l r : List Turn} {t : Turn}
    (h : turns source rules Scope.fresh items = l ++ t :: r) {events : List Event}
    {reached : Scope}
    (ha : (lastScope Scope.fresh l).arrive (t.region source) = .ok (events, reached))
    (harrival : t.arrival = .ok events) (word : List Char) :
    reached.keyword = some word ↔
      ∃ front opener between, l = front ++ opener :: between ∧ InnermostAt opener between t ∧
        LastKeyword source rules front opener word := by
  rw [Scope.keyword_eq_some_iff]
  constructor
  · rintro ⟨level, outer, hblocks, hkeyword⟩
    obtain ⟨closed, hclosed⟩ := exists_closed_of_arrive ha
    rw [hblocks] at hclosed
    obtain ⟨front, opener, between, line, rfl, hopening, hnest⟩ := exists_opener h hclosed
    rw [List.append_assoc, List.cons_append] at h
    obtain ⟨hmarker, events', reached', ha', hpending⟩ := exists_reached_of_opening h hopening
    rw [hpending] at hkeyword
    refine ⟨front, opener, between, rfl, ⟨hmarker, events, harrival, ?_⟩,
      (pending_eq_some_iff ht hi h ha' word).mp hkeyword⟩
    rw [nest_append, hnest, Option.bind_some]
    have hreached : reached.blocks = [] ++ _ :: outer := hblocks
    exact nest_of_arrive ha hclosed hreached
  · rintro ⟨front, opener, between, rfl, ⟨hmarker, events', harrival', hnest⟩, hlast⟩
    rw [lastScope_append_cons] at ha
    rw [List.append_assoc, List.cons_append] at h
    obtain rfl : events = events' := Except.ok.inj (harrival.symm.trans harrival')
    obtain ⟨next, after, hnext⟩ : ∃ next after, between ++ t :: r = next :: after := by
      cases between <;> exact ⟨_, _, rfl⟩
    obtain ⟨events', reached', ha', -, hd⟩ := exists_arrive_of_turns (hnext ▸ h)
    have hpending := (pending_eq_some_iff ht hi h ha' word).mpr hlast
    obtain ⟨hnone, -⟩ | ⟨-, hleft, -⟩ :=
      blocks_of_depart rules reached' opener.item (opener.region source) (next.region source)
    · simp [hnone] at hmarker
    rw [hd] at hleft
    obtain ⟨kept, hnil, hreached⟩ := nest_between h ha hnest
    obtain rfl : kept = [] := by simpa using hnil.symm
    rw [List.nil_append, hleft] at hreached
    exact ⟨_, _, hreached, hpending⟩

end Keyword

/-! ## A part of a layout -/

variable (source rules) in
/-- Tokens stand among others, and events that write some of them among events that write some of
the others. -/
def WovenIn (part : List Token) (events : List Event) (tokens : List Token) (all : List Event) :
    Prop :=
  ∃ before behind pre post, tokens = before ++ part ++ behind ∧ all = pre ++ events ++ post ∧
    Weaves source rules.marker before pre ∧ Weaves source rules.marker behind post

namespace WovenIn

variable {part middle tokens : List Token} {events among all : List Event}

theorem refl (tokens : List Token) (events : List Event) :
    WovenIn source rules tokens events tokens events :=
  ⟨[], [], [], [], by simp, by simp, .nil, .nil⟩

theorem trans (h : WovenIn source rules part events middle among)
    (h' : WovenIn source rules middle among tokens all) :
    WovenIn source rules part events tokens all := by
  obtain ⟨b, a, pre, post, rfl, rfl, hb, ha⟩ := h
  obtain ⟨b', a', pre', post', rfl, rfl, hb', ha'⟩ := h'
  exact ⟨b' ++ b, a ++ a', pre' ++ pre, post ++ post', by simp, by simp, hb'.append hb,
    ha.append ha'⟩

/-- A token of the part is written by its events or not at all. -/
theorem mem_written_iff (h : WovenIn source rules part events tokens all) (hn : tokens.Nodup)
    {token : Token} (ht : token ∈ part) :
    token ∈ all.filterMap Event.token? ↔ token ∈ events.filterMap Event.token? := by
  obtain ⟨before, behind, pre, post, rfl, rfl, hb, ha⟩ := h
  obtain ⟨hfront, -, hdisjoint⟩ := List.nodup_append.mp hn
  obtain ⟨-, -, hdisjoint'⟩ := List.nodup_append.mp hfront
  have hpre : token ∉ pre.filterMap Event.token? := fun hm =>
    hdisjoint' token (hb.written_sublist.subset hm) token ht rfl
  have hpost : token ∉ post.filterMap Event.token? := fun hm =>
    hdisjoint token (List.mem_append_right before ht) token (ha.written_sublist.subset hm) rfl
  rw [List.filterMap_append, List.filterMap_append, List.mem_append, List.mem_append]
  simp [hpre, hpost]

end WovenIn

theorem depart_marker {tree : Tree} {marker : Token} (hm : tree.marker? = some marker)
    (reached : Scope) (region : Region) (following : Option Region) :
    reached.depart rules tree region following =
      reached.openBlock rules marker region following := by
  rw [Scope.depart, hm]

/-- The tokens of an item that is no arrow are woven into its layout. -/
theorem weaves_of_layoutTree {tree : Tree} {part : List Token} (hsp : Spells [tree] part)
    (hm : tree.marker? = none) (hf : (layoutTree source rules tree).fault = none) :
    Weaves source rules.marker part (layoutTree source rules tree).events := by
  have hfirst : Scope.fresh.arrive (source.resolve tree.span) =
      .ok ([], ⟨[], none, some (source.resolve tree.span).stop.line⟩) := rfl
  have halone : layoutItems source rules Scope.fresh [tree] = (layoutTree source rules tree).andThen
      (layoutItems source rules (tree.note rules ⟨[], none, _⟩) []) :=
    layoutItems_item source rules hfirst hm
  have hnil : layoutItems source rules
      (tree.note rules ⟨[], none, some (source.resolve tree.span).stop.line⟩) [] = ⟨[], none⟩ := by
    rw [layoutItems, Scope.close, blocks_note, List.map_nil]
  rw [hnil] at halone
  have hboth : (layoutItems source rules Scope.fresh [tree]).fault = none := by
    rw [halone, Trace.andThen_fault_eq_none]
    exact ⟨hf, rfl⟩
  have hwoven := weaves_of_layoutItems source rules hsp Scope.fresh hboth
  rwa [halone, Trace.andThen_events hf, List.append_nil] at hwoven

/-- The tokens of an item are woven into what its turn puts out. -/
theorem weaves_of_trace {scope reached left : Scope} {tree : Tree} {following : Option Region}
    {events opening : List Event} {part : List Token} (hsp : Spells [tree] part)
    (ha : scope.arrive (source.resolve tree.span) = .ok (events, reached))
    (hd : reached.depart rules tree (source.resolve tree.span) following = (opening, left))
    (hf : (Turn.trace source rules ⟨tree, .ok events, opening, left⟩).fault = none) :
    Weaves source rules.marker part
      (Turn.trace source rules ⟨tree, .ok events, opening, left⟩).events := by
  have hpause : Weaves source rules.marker [] events := .of_pauses (Scope.isPause_of_arrive ha)
  cases hm : tree.marker? with
  | none =>
    simp only [Turn.trace, hm, Option.isSome_none, Bool.false_eq_true, if_false,
      Trace.after_events, Trace.after_fault] at hf ⊢
    exact hpause.append (weaves_of_layoutTree hsp hm hf)
  | some marker =>
    obtain ⟨rfl, hk⟩ := Tree.marker?_eq_some_iff.mp hm
    obtain rfl := hsp.leaf_eq
    rw [depart_marker hm] at hd
    have hopening : Weaves source rules.marker [marker] (reached.openBlock rules marker
        (source.resolve (Tree.leaf marker).span) following).1 :=
      Scope.weaves_openBlock reached hk following
    rw [hd] at hopening
    simp only [Turn.trace, hm, Option.isSome_some, if_true]
    exact hpause.append hopening

theorem exists_wovenIn_cons {scope : Scope} {tree : Tree} {rest : List Tree} {tokens : List Token}
    (hsp : Spells (tree :: rest) tokens)
    (hf : (layoutItems source rules scope (tree :: rest)).fault = none) :
    ∃ first part others, turns source rules scope (tree :: rest) =
        first :: turns source rules first.left rest ∧
      first.item = tree ∧ Spells [tree] part ∧ Spells rest others ∧
      (first.trace source rules).fault = none ∧
      (layoutItems source rules first.left rest).fault = none ∧
      WovenIn source rules part (first.trace source rules).events tokens
        (layoutItems source rules scope (tree :: rest)).events ∧
      WovenIn source rules others (layoutItems source rules first.left rest).events tokens
        (layoutItems source rules scope (tree :: rest)).events := by
  obtain ⟨part, others, rfl, hpart, hothers⟩ := hsp.uncons
  obtain ⟨events, reached, ha⟩ := exists_arrive_of_fault_eq_none source rules hf
  obtain ⟨following, opening, left, hd, hturns, hlayout⟩ := exists_turn_cons ha
  rw [hlayout] at hf ⊢
  obtain ⟨hfirst, hrest⟩ := Trace.andThen_fault_eq_none.mp hf
  have hwoven := weaves_of_trace hpart ha hd hfirst
  have hwovenRest := weaves_of_layoutItems source rules hothers left hrest
  refine ⟨_, part, others, hturns, rfl, hpart, hothers, hfirst, hrest, ?_, ?_⟩
  · exact ⟨[], others, [], _, rfl, Trace.andThen_events hfirst, .nil, hwovenRest⟩
  · exact ⟨part, [], _, [], (List.append_nil _).symm,
      (Trace.andThen_events hfirst).trans (List.append_nil _).symm, hwoven, .nil⟩

/-- What the turn of an item puts out is a part of the layout of its list. -/
theorem exists_wovenIn_of_turns {scope : Scope} {items : List Tree} {tokens : List Token}
    (hsp : Spells items tokens) (hf : (layoutItems source rules scope items).fault = none)
    {l r : List Turn} {t : Turn} (h : turns source rules scope items = l ++ t :: r) :
    ∃ part, Spells [t.item] part ∧ (t.trace source rules).fault = none ∧
      WovenIn source rules part (t.trace source rules).events tokens
        (layoutItems source rules scope items).events := by
  induction l generalizing scope items tokens with
  | nil =>
    obtain ⟨rest, rfl⟩ := exists_of_turns_eq_cons source rules h
    obtain ⟨first, part, others, hturns, hitem, hpart, -, hfirst, -, hwoven, -⟩ :=
      exists_wovenIn_cons hsp hf
    obtain ⟨rfl, -⟩ := List.cons.inj (hturns.symm.trans h)
    exact ⟨part, hpart, hfirst, hwoven⟩
  | cons first l ih =>
    rw [List.cons_append] at h
    obtain ⟨rest, rfl⟩ := exists_of_turns_eq_cons source rules h
    obtain ⟨first', part, others, hturns, hitem, -, hothers, -, hrest, -, hwoven⟩ :=
      exists_wovenIn_cons hsp hf
    obtain ⟨rfl, htail⟩ := List.cons.inj (hturns.symm.trans h)
    obtain ⟨part', hpart, hfault, hin⟩ := ih hothers hrest htail
    exact ⟨part', hpart, hfault, hin.trans hwoven⟩

/-- Where nothing stops the layout of a list, every item has its turn. -/
theorem map_item_turns {scope : Scope} {items : List Tree}
    (hf : (layoutItems source rules scope items).fault = none) :
    (turns source rules scope items).map Turn.item = items := by
  induction items generalizing scope with
  | nil => rfl
  | cons tree rest ih =>
    obtain ⟨events, reached, ha⟩ := exists_arrive_of_fault_eq_none source rules hf
    obtain ⟨following, opening, left, -, hturns, hlayout⟩ := exists_turn_cons ha
    rw [hlayout] at hf
    rw [hturns, List.map_cons, ih (Trace.andThen_fault_eq_none.mp hf).2]

theorem exists_turns_eq_append {scope : Scope} {items : List Tree} {tree : Tree}
    (hf : (layoutItems source rules scope items).fault = none) (hm : tree ∈ items) :
    ∃ l t r, turns source rules scope items = l ++ t :: r ∧ t.item = tree := by
  rw [← map_item_turns hf] at hm
  obtain ⟨t, ht, hitem⟩ := List.mem_map.mp hm
  obtain ⟨l, r, hturns⟩ := List.append_of_mem ht
  exact ⟨l, t, r, hturns, hitem⟩

/-- The content of a group is laid out as a part of what the turn of the group puts out. -/
theorem exists_wovenIn_inside {t : Turn} {d : Delimiter} {o c : Span} {inner : List Tree}
    (hitem : t.item = .group d o c inner) {events : List Event} (harrival : t.arrival = .ok events)
    (hpause : ∀ event ∈ events, event.IsPause) {part : List Token} (hsp : Spells [t.item] part)
    (hf : (t.trace source rules).fault = none) :
    ∃ inside, Spells inner inside ∧ (layoutItems source rules Scope.fresh inner).fault = none ∧
      WovenIn source rules inside (layoutItems source rules Scope.fresh inner).events part
        (t.trace source rules).events := by
  rw [hitem] at hsp
  cases hsp with
  | @group _ _ _ _ _ inside _ hin hnil =>
    cases hnil
    have hm : (Tree.group d o c inner).marker? = none := rfl
    simp only [Turn.trace, harrival, hitem, hm, Option.isSome_none, Bool.false_eq_true, if_false,
      layoutTree, Trace.after_events, Trace.after_fault, Trace.andThen_fault_eq_none,
      and_true] at hf ⊢
    rw [Trace.andThen_events hf]
    have ho : (openingToken d o).kind ≠ .fatArrow := by simp [openingToken]
    have hc : (closingToken d c).kind ≠ .fatArrow := by simp [closingToken]
    exact ⟨inside, hin, hf, [openingToken d o], [closingToken d c],
      events ++ [.write (openingToken d o) (source.resolve (openingToken d o).span)],
      [.write (closingToken d c) (source.resolve (closingToken d c).span)], by simp,
      by simp [openingToken, closingToken],
      (Weaves.of_pauses hpause).append (.write ho .nil), .write hc .nil⟩

/-- The layout of a list of a text is a part of the layout of the text. -/
theorem exists_wovenIn {trees items : List Tree} {tokens : List Token} (hsp : Spells trees tokens)
    (hf : (source.layout rules trees).fault = none) (hi : ListedIn trees items) :
    ∃ part, Spells items part ∧ (layoutItems source rules Scope.fresh items).fault = none ∧
      WovenIn source rules part (layoutItems source rules Scope.fresh items).events tokens
        (source.layout rules trees).events := by
  induction hi with
  | whole => exact ⟨tokens, hsp, hf, .refl _ _⟩
  | @inside items inner d o c _ hm ih =>
    obtain ⟨part, hpart, hfault, hwoven⟩ := ih
    obtain ⟨l, t, r, hturns, hitem⟩ := exists_turns_eq_append hfault hm
    obtain ⟨part', hpart', hfault', hwoven'⟩ := exists_wovenIn_of_turns hpart hfault hturns
    obtain ⟨events, reached, following, ha, harrival, -⟩ :=
      exists_reached_of_trace hturns hfault'
    obtain ⟨inside, hin, hfault'', hwoven''⟩ :=
      exists_wovenIn_inside hitem harrival (Scope.isPause_of_arrive ha) hpart' hfault'
    exact ⟨inside, hin, hfault'', hwoven''.trans (hwoven'.trans hwoven)⟩

/-! ## Arrows -/

/-- Every arrow of a text without repetitions is an item of a list. -/
theorem exists_listedIn_of_arrow {trees items : List Tree} {tokens : List Token} {arrow : Token}
    (hsp : Spells items tokens) (hfree : RepetitionFree items) (hm : arrow ∈ tokens)
    (hk : arrow.kind = .fatArrow) {all : List Tree} (hl : ListedIn trees all)
    (hsub : ∀ tree ∈ items, tree ∈ all) :
    ∃ found, ListedIn trees found ∧ .leaf arrow ∈ found := by
  induction hsp generalizing all with
  | nil => simp at hm
  | leaf _ _ ih =>
    obtain ⟨hfirst, hrest⟩ := List.forall_mem_cons.mp hsub
    rcases List.mem_cons.mp hm with rfl | hm
    · exact ⟨all, hl, hfirst⟩
    · cases hfree with
      | leaf _ hfree => exact ih hfree hm hl hrest
  | group d o c _ _ ihi ih =>
    obtain ⟨hfirst, hrest⟩ := List.forall_mem_cons.mp hsub
    cases hfree with
    | group _ _ _ hfi hfree =>
      rcases List.mem_cons.mp hm with rfl | hm
      · simp [openingToken] at hk
      rcases List.mem_append.mp hm with hm | hm
      · exact ihi hfi hm (hl.inside hfirst) fun _ h => h
      rcases List.mem_cons.mp hm with rfl | hm
      · simp [closingToken] at hk
      · exact ih hfree hm hl hrest
  | repetition => cases hfree

theorem mem_written_openBlock {reached : Scope} {marker : Token} (region : Region)
    (following : Option Region) :
    marker ∈ (reached.openBlock rules marker region following).1.filterMap Event.token? ↔
      reached.keepsMarker rules = true := by
  unfold Scope.openBlock
  cases following <;> cases reached.keepsMarker rules <;> simp [Event.token?]

/-- An arrow is read where it is written: what is put in is no arrow. -/
theorem mem_tokens_iff {arrow : Token} (hk : arrow.kind = .fatArrow) (events : List Event) :
    arrow ∈ events.flatMap Event.tokens ↔ arrow ∈ events.filterMap Event.token? := by
  have hevent (event : Event) : arrow ∈ event.tokens ↔ event.token? = some arrow := by
    cases event with
    | write token region => simp [Event.tokens, Event.token?, eq_comm]
    | enter level line =>
      simp only [Event.tokens, Event.token?, List.mem_singleton, reduceCtorEq, iff_false]
      rintro rfl
      simp [openingToken] at hk
    | leave dedent =>
      simp only [Event.tokens, Event.token?, List.mem_singleton, reduceCtorEq, iff_false]
      rintro rfl
      simp [closingToken] at hk
    | separate kind =>
      simp only [Event.tokens, Event.token?, reduceCtorEq, iff_false]
      intro hm
      obtain ⟨c, -, rfl⟩ := List.mem_map.mp hm
      simp at hk
  simp [List.mem_flatMap, List.mem_filterMap, hevent]

/-- What the turn of an arrow writes of it. -/
theorem mem_written_trace_iff {scope : Scope} {items : List Tree} {l r : List Turn} {t : Turn}
    (h : turns source rules scope items = l ++ t :: r) {arrow : Token}
    (hm : t.item.marker? = some arrow)
    (hf : (t.trace source rules).fault = none) :
    ∃ events reached, (lastScope scope l).arrive (t.region source) = .ok (events, reached) ∧
      t.arrival = .ok events ∧
      (arrow ∈ (t.trace source rules).events.filterMap Event.token? ↔
        reached.keepsMarker rules = true) := by
  obtain ⟨events, reached, following, ha, harrival, hd⟩ := exists_reached_of_trace h hf
  rw [depart_marker hm] at hd
  refine ⟨events, reached, ha, harrival, ?_⟩
  have hpause : arrow ∉ events.filterMap Event.token? := by
    have hwoven : Weaves source rules.marker [] events :=
      .of_pauses (Scope.isPause_of_arrive ha)
    intro hin
    simpa using hwoven.written_sublist.subset hin
  have hopening : t.opening = (reached.openBlock rules arrow (t.region source) following).1 := by
    rw [hd]
  simp only [Turn.trace, harrival, hm, Option.isSome_some, if_true, List.filterMap_append,
    List.mem_append, hpause, false_or]
  rw [hopening]
  exact mem_written_openBlock (t.region source) following

end Layout

/-- Every arrow of a converted text stands at a place in a list of items. It is read again exactly
if every arrow is to be kept, or if the innermost block at its place has been opened by an arrow
before which a keyword of a selector is the last one in the statement. -/
theorem Source.kept_arrows (source : Source) (rules : Rules) {out : List Char}
    (h : (source.convert rules).result = .ok out) (name : String) :
    ∃ (tokens : List Token) (trees : List Tree) (pairs : List Pair),
      source.tokens = .ok (tokens ++ [endToken source.chars.length]) ∧
      source.trees = .ok trees ∧
      pairs.map Prod.fst = (source.layout rules trees).events.flatMap Event.tokens ∧
      (Source.ofText name out).tokens = .ok (pairs.map Prod.snd ++ [endToken out.length]) ∧
      (∀ p ∈ pairs, p.1.word = p.2.word) ∧
      (∀ arrow ∈ tokens, arrow.kind = .fatArrow →
        ∃ before turn, StandsAt source rules trees before turn ∧
          turn.item.marker? = some arrow) ∧
      ∀ before turn arrow, StandsAt source rules trees before turn →
        turn.item.marker? = some arrow →
        (arrow ∈ pairs.map Prod.fst ↔ rules.marker = .always ∨
          ∃ front opener between, before = front ++ opener :: between ∧
            InnermostAt opener between turn ∧
            ∃ word ∈ rules.selectors, LastKeyword source rules front opener word) := by
  obtain ⟨trees, ht, hf, rfl⟩ := (source.convert_eq_ok_iff rules out).mp h
  obtain ⟨hs, hsp⟩ := source.spells_trees ht
  have hw : Weaves source rules.marker _ (source.layout rules trees).events :=
    weaves_of_layoutItems source rules hsp Scope.fresh hf
  obtain ⟨pairs, hfst, htokens, hword⟩ :=
    source.exists_written hs hw (Emitter.fresh rules.preserveBlankLines) name
  refine ⟨_, trees, pairs, (source.tokens_eq_ok_iff _).mpr ⟨hs, rfl⟩, ht, hfst, htokens, hword,
    fun arrow hm hk => ?_, ?_⟩
  · obtain ⟨braces, -, rfl, -, -⟩ := exists_braces source rules hsp hf
    obtain ⟨items, hi, hleaf⟩ := exists_listedIn_of_arrow hsp
      (Braced.repetitionFree_itemsOf braces) hm hk .whole fun _ htree => htree
    obtain ⟨-, -, hfault, -⟩ := exists_wovenIn hsp hf hi
    obtain ⟨before, turn, after, hturns, hitem⟩ := exists_turns_eq_append hfault hleaf
    exact ⟨before, turn, ⟨items, after, hi, hturns⟩, Tree.marker?_eq_some_iff.mpr ⟨hitem, hk⟩⟩
  · rintro before turn arrow ⟨items, after, hi, hturns⟩ hmarker
    obtain ⟨hitem, hk⟩ := Tree.marker?_eq_some_iff.mp hmarker
    obtain ⟨part, hpart, hfault, hwoven⟩ := exists_wovenIn hsp hf hi
    obtain ⟨part', hpart', hfault', hwoven'⟩ := exists_wovenIn_of_turns hpart hfault hturns
    obtain ⟨events, reached, ha, harrival, hwritten⟩ :=
      mem_written_trace_iff hturns hmarker hfault'
    rw [hitem] at hpart'
    obtain rfl := hpart'.leaf_eq
    have harrow : arrow ∈ [arrow] := List.mem_singleton_self arrow
    have hnodup := (inOrder_tokensAt 0 (legible_pieces source.chars hs)).1.nodup
    rw [hfst, mem_tokens_iff hk, (hwoven'.trans hwoven).mem_written_iff hnodup harrow, hwritten,
      Scope.keepsMarker_iff]
    have hkeyword := keyword_eq_some_iff ht hi hturns ha harrival
    refine or_congr_right ⟨?_, ?_⟩
    · rintro ⟨word, hselector, hin⟩
      obtain ⟨front, opener, between, hsplit, hinner, hlast⟩ := (hkeyword word).mp hin
      exact ⟨front, opener, between, hsplit, hinner, word, hselector, hlast⟩
    · rintro ⟨front, opener, between, hsplit, hinner, word, hselector, hlast⟩
      exact ⟨word, hselector, (hkeyword word).mpr ⟨front, opener, between, hsplit, hinner, hlast⟩⟩

def firstArm : Token := ⟨.fatArrow, "=>".toList, ⟨30, 32⟩⟩

/-- The arrow of the first arm is read again, so the keyword of its block is one of a selector. -/
theorem bracedText_kept :
    let rules : Rules := ⟨["match".toList], [], .selector, false⟩
    let out :=
      ("a \x7b\n    match b \x7b\n        1 => \x7b (c \x7b \x7d   ) \x7d,\n" ++
        "        2 => \x7b 3 \x7d \x7d;\n    d \x7b \x7d \x7d\n").toList
    (bracedText.convert rules).result = .ok out ∧
      ∃ trees front opener between turn, bracedText.trees = .ok trees ∧
        StandsAt bracedText rules trees (front ++ opener :: between) turn ∧
        turn.item = .leaf firstArm ∧
        InnermostAt opener between turn ∧
        LastKeyword bracedText rules front opener "match".toList := by
  intro rules out
  have h : (bracedText.convert rules).result = .ok out := by decide +kernel
  obtain ⟨tokens, trees, pairs, htokens, ht, hfst, -, -, hplaces, hkept⟩ :=
    bracedText.kept_arrows rules h "out"
  have hread : firstArm ∈ bracedText.tokens.toOption.getD [] := by decide +kernel
  have hwritten : firstArm ∈ (bracedText.layout rules
      (bracedText.trees.toOption.getD [])).events.flatMap Event.tokens := by decide +kernel
  rw [htokens] at hread
  rw [ht] at hwritten
  have hmem : firstArm ∈ tokens := by
    rcases List.mem_append.mp hread with hm | hm
    · exact hm
    · exact absurd (congrArg Token.kind (List.mem_singleton.mp hm)) nofun
  obtain ⟨before, turn, hstands, hmarker⟩ := hplaces firstArm hmem rfl
  obtain halways | ⟨front, opener, between, rfl, hinner, word, hselector, hlast⟩ :=
    (hkept before turn _ hstands hmarker).mp (hfst ▸ hwritten)
  · cases halways
  · obtain rfl := List.mem_singleton.mp hselector
    exact ⟨h, trees, front, opener, between, turn, ht, hstands,
      (Tree.marker?_eq_some_iff.mp hmarker).1, hinner, hlast⟩

end Offside
