import Mathlib.Data.List.Induction
import Offside.Proofs.LineStarts

/-!
# Which words announce a list

The block of an arrow is a list if a keyword stands before the arrow in the same statement. What a
statement is can be read off the lines and columns of the items and the blocks that are open.

- `Turn.StartsStatement`, `InStatement`: where statements start, and which items share one.
- `StandsAt`, `OpensAt`: an item has its place in a list of items, and opens a block there.
- `pending_eq_some_iff`: the keyword that is remembered at an item.
- `Source.announced_blocks`: which blocks are lists, and the keyword recorded for them.
-/
namespace Offside

set_option autoImplicit false

open Layout

/-- The keyword that an item is, if it is a name that announces a list. -/
def Tree.keyword? (rules : Rules) : Tree → Option (List Char)
  | .leaf token =>
    if token.kind = .identifier ∧ rules.announces token.text then some token.text else none
  | _ => none

theorem Tree.pending_note (tree : Tree) (rules : Rules) (scope : Scope) :
    (tree.note rules scope).pending = (tree.keyword? rules).or scope.pending := by
  cases tree with
  | leaf token =>
    simp only [Tree.note, Scope.noteWord, Tree.keyword?]
    split <;> rfl
  | group delimiter opening closing inner => rfl
  | repetition dollar closing inner separator operator => rfl

theorem Tree.keyword?_of_marker? {tree : Tree} (h : tree.marker?.isSome = true) (rules : Rules) :
    tree.keyword? rules = none := by
  cases tree with
  | leaf token =>
    by_cases hk : token.kind = .fatArrow
    · simp [Tree.keyword?, hk]
    · simp [Tree.marker?, hk] at h
  | group delimiter opening closing inner => rfl
  | repetition dollar closing inner separator operator => rfl

namespace Layout

/-! ## Open blocks -/

variable {source : Source} {rules : Rules}

/-- The column of the innermost block that is open behind some turns of a list, zero if there is
none. -/
def openColumn (before : List Turn) : Int :=
  match nest [] (before.flatMap Turn.puts) with
  | some (some level :: _) => level.column
  | _ => 0

theorem openColumn_eq {items : List Tree} {l r : List Turn} {t : Turn}
    (h : turns source rules Scope.fresh items = l ++ t :: r) :
    openColumn l = (lastScope Scope.fresh l).column := by
  have hn : nest [] (l.flatMap Turn.puts) = some ((lastScope Scope.fresh l).blocks.map some) :=
    nest_puts h
  rw [openColumn, hn, Scope.column]
  cases (lastScope Scope.fresh l).blocks <;> rfl

/-! ## Statements -/

variable (source) in
/-- A statement starts with an item that ends on a later line than the item before it and does not
stand right of the innermost block that is open there. -/
def Turn.StartsStatement (before : List Turn) (turn : Turn) : Prop :=
  ∃ p ∈ before.getLast?, (p.region source).stop.line < (turn.region source).stop.line ∧
    (turn.region source).start.column ≤ openColumn before

variable (source) in
/-- A later item stands in the same statement as an earlier one: no arrow stands between them, and
no statement starts between them or with the later one. -/
structure InStatement (before : List Turn) (earlier : Turn) (between : List Turn) (later : Turn) :
    Prop where
  no_arrow : ∀ turn ∈ between, turn.item.marker? = none
  no_start : ∀ l turn r, between ++ [later] = l ++ turn :: r →
    ¬ turn.StartsStatement source (before ++ earlier :: l)

theorem inStatement_nil {before : List Turn} {earlier later : Turn} :
    InStatement source before earlier [] later ↔
      ¬ later.StartsStatement source (before ++ [earlier]) := by
  constructor
  · exact fun h => h.no_start [] later [] rfl
  · intro h
    refine ⟨by simp, fun l turn r hsplit => ?_⟩
    cases l with
    | nil =>
      obtain ⟨rfl, -⟩ := List.cons.inj hsplit
      exact h
    | cons first l => simp at hsplit

/-- What shares a statement with an item shares it with the item before that one, unless this is an
arrow or a statement starts behind it. -/
theorem inStatement_concat {before between : List Turn} {earlier p later : Turn} :
    InStatement source before earlier (between ++ [p]) later ↔
      InStatement source before earlier between p ∧ p.item.marker? = none ∧
        ¬ later.StartsStatement source (before ++ earlier :: (between ++ [p])) := by
  constructor
  · intro h
    refine ⟨⟨fun turn ht => h.no_arrow turn (List.mem_append_left [p] ht), ?_⟩,
      h.no_arrow p (by simp), h.no_start (between ++ [p]) later [] rfl⟩
    intro l turn r hsplit
    exact h.no_start l turn (r ++ [later]) (by simp [hsplit])
  · rintro ⟨h, hp, hlater⟩
    refine ⟨fun turn ht => ?_, fun l turn r hsplit => ?_⟩
    · rcases List.mem_append.mp ht with ht | ht
      · exact h.no_arrow turn ht
      · rw [List.mem_singleton.mp ht]
        exact hp
    · rcases List.eq_nil_or_concat r with rfl | ⟨r, last, rfl⟩
      · obtain ⟨rfl, hturn⟩ := List.append_inj' hsplit rfl
        rw [← List.singleton_inj.mp hturn]
        exact hlater
      · have hfront : between ++ [p] ++ [later] = (l ++ turn :: r) ++ [last] := by
          simpa using hsplit
        exact h.no_start l turn r (List.append_inj' hfront rfl).1

variable (source rules) in
/-- The last keyword before an item in the statement of the item. -/
def LastKeyword (before : List Turn) (turn : Turn) (word : List Char) : Prop :=
  ∃ front earlier between, before = front ++ earlier :: between ∧
    earlier.item.keyword? rules = some word ∧ InStatement source front earlier between turn ∧
    ∀ q ∈ between, q.item.keyword? rules = none

theorem not_lastKeyword_nil {turn : Turn} {word : List Char} :
    ¬ LastKeyword source rules [] turn word := by
  rintro ⟨front, earlier, between, hsplit, -⟩
  simp at hsplit

theorem lastKeyword_concat {before : List Turn} {p turn : Turn} {word : List Char} :
    LastKeyword source rules (before ++ [p]) turn word ↔
      p.item.marker? = none ∧ ¬ turn.StartsStatement source (before ++ [p]) ∧
        (p.item.keyword? rules = some word ∨
          p.item.keyword? rules = none ∧ LastKeyword source rules before p word) := by
  constructor
  · rintro ⟨front, earlier, between, hsplit, hword, hin, hlast⟩
    rcases List.eq_nil_or_concat between with rfl | ⟨between, q, rfl⟩
    · obtain ⟨rfl, hp⟩ := List.append_inj' hsplit rfl
      obtain rfl := List.singleton_inj.mp hp
      refine ⟨?_, inStatement_nil.mp hin, .inl hword⟩
      rw [← Option.not_isSome_iff_eq_none]
      intro hmarker
      rw [Tree.keyword?_of_marker? hmarker] at hword
      simp at hword
    · rw [List.concat_eq_append] at hsplit hin hlast
      have hfront : before ++ [p] = (front ++ earlier :: between) ++ [q] := by simpa using hsplit
      obtain ⟨rfl, hp⟩ := List.append_inj' hfront rfl
      obtain rfl := List.singleton_inj.mp hp
      obtain ⟨hin, hmarker, hstart⟩ := inStatement_concat.mp hin
      refine ⟨hmarker, by simpa using hstart, .inr ⟨hlast p (by simp), ?_⟩⟩
      exact ⟨front, earlier, between, rfl, hword, hin,
        fun q hq => hlast q (List.mem_append_left [p] hq)⟩
  · rintro ⟨hmarker, hstart, hword | ⟨hnone, front, earlier, between, rfl, hword, hin, hlast⟩⟩
    · exact ⟨before, p, [], rfl, hword, inStatement_nil.mpr hstart, by simp⟩
    · refine ⟨front, earlier, between ++ [p], by simp, hword, ?_, fun q hq => ?_⟩
      · exact inStatement_concat.mpr ⟨hin, hmarker, by simpa using hstart⟩
      · rcases List.mem_append.mp hq with hq | hq
        · exact hlast q hq
        · rw [List.mem_singleton.mp hq]
          exact hnone

/-- If there is a keyword in the statement of an item before it, there is a last one. -/
theorem exists_lastKeyword_iff {before : List Turn} {turn : Turn} :
    (∃ word, LastKeyword source rules before turn word) ↔
      ∃ front earlier between, before = front ++ earlier :: between ∧
        (earlier.item.keyword? rules).isSome = true ∧
        InStatement source front earlier between turn := by
  constructor
  · rintro ⟨word, front, earlier, between, hsplit, hword, hin, -⟩
    exact ⟨front, earlier, between, hsplit, by simp [hword], hin⟩
  · rintro ⟨front, earlier, between, rfl, hword, hin⟩
    induction between using List.reverseRecOn generalizing turn with
    | nil =>
      obtain ⟨word, hword⟩ := Option.isSome_iff_exists.mp hword
      exact ⟨word, front, earlier, [], rfl, hword, hin, by simp⟩
    | append_singleton between p ih =>
      obtain ⟨hin, hmarker, hstart⟩ := inStatement_concat.mp hin
      obtain ⟨word, hlast⟩ := ih hin
      have hassoc : front ++ earlier :: (between ++ [p]) =
          (front ++ earlier :: between) ++ [p] := by simp
      rw [hassoc] at hstart ⊢
      cases hp : p.item.keyword? rules with
      | some found => exact ⟨found, lastKeyword_concat.mpr ⟨hmarker, hstart, .inl hp⟩⟩
      | none => exact ⟨word, lastKeyword_concat.mpr ⟨hmarker, hstart, .inr ⟨hp, hlast⟩⟩⟩

/-! ## The keyword that is remembered -/

theorem pending_of_arrive {scope reached : Scope} {region : Region} {events : List Event}
    (h : scope.arrive region = .ok (events, reached)) :
    reached.pending = scope.pending ∧
        ¬ ((∃ line ∈ scope.lastLine, line < region.stop.line) ∧
          region.start.column ≤ scope.column) ∨
      reached.pending = none ∧ (∃ line ∈ scope.lastLine, line < region.stop.line) ∧
        region.start.column ≤ scope.column := by
  obtain ⟨hl, -, rfl⟩ | ⟨line, hl, hge, -, rfl⟩ | ⟨line, hl, hlt, hs⟩ := Scope.arrive_cases h
  · simp [hl]
  · left
    simp only [hl, Option.mem_def, Option.some.injEq, exists_eq_left', true_and]
    omega
  · obtain ⟨hright, -, rfl⟩ | ⟨hleft, -, rfl, -⟩ := Scope.startLine_cases hs
    · left
      refine ⟨rfl, fun hboth => ?_⟩
      have hle := hboth.2
      rw [Scope.column] at hright hle
      simp only at hright
      omega
    · exact .inr ⟨rfl, ⟨line, hl, hlt⟩, hleft⟩

section Pending

variable {trees items : List Tree} (ht : source.trees = .ok trees) (hi : ListedIn trees items)

include ht hi

/-- What is remembered at an item was remembered behind the item before it, unless a statement
starts. -/
theorem pending_at {l r : List Turn} {p t : Turn}
    (h : turns source rules Scope.fresh items = l ++ p :: t :: r) (hp : p.item.marker? = none)
    {events : List Event} {reached : Scope}
    (ha : p.left.arrive (t.region source) = .ok (events, reached)) :
    reached.pending = p.left.pending ∧ ¬ t.StartsStatement source (l ++ [p]) ∨
      reached.pending = none ∧ t.StartsStatement source (l ++ [p]) := by
  have hlast := lastLine_before (pairwise_stop (source.items_in_order ht hi))
    (by simp [Scope.fresh]) h
  have hcolumn := openColumn_eq (l := l ++ [p]) (by simpa using h)
  rw [lastScope_concat] at hcolumn
  have hstarts : t.StartsStatement source (l ++ [p]) ↔
      (∃ line ∈ p.left.lastLine, line < (t.region source).stop.line) ∧
        (t.region source).start.column ≤ p.left.column := by
    simp [Turn.StartsStatement, hlast, hp, hcolumn]
  rw [hstarts]
  exact pending_of_arrive ha

/-- At an item the last keyword before it in its statement is remembered. -/
theorem pending_eq_some_iff {l r : List Turn} {t : Turn}
    (h : turns source rules Scope.fresh items = l ++ t :: r) {events : List Event}
    {reached : Scope}
    (ha : (lastScope Scope.fresh l).arrive (t.region source) = .ok (events, reached))
    (word : List Char) :
    reached.pending = some word ↔ LastKeyword source rules l t word := by
  induction l using List.reverseRecOn generalizing t r events reached with
  | nil =>
    have hnone : reached.pending = none := by
      rcases pending_of_arrive ha with ⟨hpending, -⟩ | ⟨hpending, -⟩ <;> exact hpending
    simp [hnone, not_lastKeyword_nil]
  | append_singleton l p ih =>
    rw [lastScope_concat] at ha
    rw [List.append_assoc, List.singleton_append] at h
    obtain ⟨events', reached', ha', -, hd⟩ := exists_arrive_of_turns h
    have hleft : p.left = (reached'.depart rules p.item (p.region source)
        (some (t.region source))).2 := by rw [hd]
    rw [lastKeyword_concat, ← ih h ha']
    cases hp : p.item.marker? with
    | some marker =>
      have hnone : p.left.pending = none := by
        rw [hleft, Scope.depart, hp]
        rfl
      rcases pending_of_arrive ha with ⟨hpending, -⟩ | ⟨hpending, -⟩ <;> simp [hpending, hnone]
    | none =>
      have hnoted : p.left.pending = (p.item.keyword? rules).or reached'.pending := by
        rw [hleft, Scope.depart, hp]
        exact p.item.pending_note rules reached'
      rcases pending_at ht hi h hp ha with ⟨hpending, hstart⟩ | ⟨hpending, hstart⟩
      · rw [hpending, hnoted]
        cases hk : p.item.keyword? rules <;> simp [hstart]
      · simp [hpending, hstart]

end Pending

/-! ## Blocks that open -/

variable (source rules) in
/-- An item of a list of a text has its turn behind the turns of the items before it. -/
def StandsAt (trees : List Tree) (before : List Turn) (turn : Turn) : Prop :=
  ∃ items after, ListedIn trees items ∧
    turns source rules Scope.fresh items = before ++ turn :: after

variable (source rules) in
/-- Behind some turns of a list of a text, an item opens a block with a level. -/
def OpensAt (trees : List Tree) (before : List Turn) (turn : Turn) (level : Level) : Prop :=
  StandsAt source rules trees before turn ∧ ∃ line, .enter (some level) line ∈ turn.opening

/-- What opens a block with a level is an arrow, and the level is that of the item behind it and of
the keyword that is remembered. -/
theorem opening_of_depart {reached : Scope} {tree : Tree} {region : Region}
    {following : Option Region} {level : Level} {line : Int}
    (h : .enter (some level) line ∈ (reached.depart rules tree region following).1) :
    tree.marker?.isSome = true ∧
      ∃ next ∈ following, level = ⟨next.start.column, reached.pending⟩ := by
  unfold Scope.depart at h
  cases hm : tree.marker? with
  | none => simp [hm] at h
  | some marker =>
    refine ⟨rfl, ?_⟩
    cases following with
    | none => cases hk : reached.keepsMarker rules <;> simp [hm, Scope.openBlock, hk] at h
    | some next =>
      have hlevel : level = ⟨next.start.column, reached.pending⟩ ∧ line = region.start.line := by
        cases hk : reached.keepsMarker rules <;> simpa [hm, Scope.openBlock, hk] using h
      exact ⟨next, rfl, hlevel.1⟩

/-- What has opened a block with a level is an arrow, and the keyword of the block is the one that
was remembered there. -/
theorem exists_reached_of_opening {scope : Scope} {items : List Tree} {l r : List Turn} {t : Turn}
    (h : turns source rules scope items = l ++ t :: r) {level : Level} {line : Int}
    (ho : .enter (some level) line ∈ t.opening) :
    t.item.marker?.isSome = true ∧ ∃ events reached,
      (lastScope scope l).arrive (t.region source) = .ok (events, reached) ∧
      level.keyword = reached.pending := by
  obtain ⟨-, hnone⟩ | ⟨events, reached, following, ha, -, hd⟩ := turn_cases h
  · simp [hnone] at ho
  have hopen : .enter (some level) line ∈
      (reached.depart rules t.item (t.region source) following).1 := by rwa [hd]
  obtain ⟨hmarker, next, -, rfl⟩ := opening_of_depart hopen
  exact ⟨hmarker, events, reached, ha, rfl⟩

/-- An event of the layout of a list is put in by a turn, or it belongs to the inside of an item,
or something ends with it. -/
theorem mem_events_cases {event : Event} (scope : Scope) (items : List Tree)
    (he : event ∈ (layoutItems source rules scope items).events) :
    event.IsPause ∨ (∃ turn ∈ turns source rules scope items, event ∈ turn.opening) ∨
      ∃ tree ∈ items, event ∈ (layoutTree source rules tree).events := by
  induction items generalizing scope with
  | nil =>
    rw [layoutItems] at he
    exact .inl (Scope.isPause_of_mem_close he)
  | cons tree rest ih =>
    cases ha : scope.arrive (source.resolve tree.span) with
    | error fault =>
      rw [layoutItems_fault source rules ha] at he
      simp at he
    | ok found =>
      obtain ⟨events, reached⟩ := found
      obtain ⟨following, opening, left, -, hturns, hlayout⟩ := exists_turn_cons ha
      rw [hlayout] at he
      rw [hturns]
      rcases Trace.mem_andThen he with he | he
      · obtain he | he | he := Turn.mem_trace he
        · exact .inl (Scope.isPause_of_arrive ha event he)
        · exact .inr (.inl ⟨_, List.mem_cons_self, he⟩)
        · exact .inr (.inr ⟨tree, List.mem_cons_self, he⟩)
      · obtain hp | ⟨turn, hm, ho⟩ | ⟨next, hm, hin⟩ := ih left he
        · exact .inl hp
        · exact .inr (.inl ⟨turn, List.mem_cons_of_mem _ hm, ho⟩)
        · exact .inr (.inr ⟨next, List.mem_cons_of_mem tree hm, hin⟩)

/-- Every block with a level that a layout opens is opened at a place in a list. -/
theorem exists_opensAt {trees : List Tree} {level : Level} {line : Int} (items : List Tree)
    (hi : ListedIn trees items)
    (he : .enter (some level) line ∈ (layoutItems source rules Scope.fresh items).events) :
    ∃ before turn, OpensAt source rules trees before turn level := by
  obtain hp | ⟨turn, hm, ho⟩ | ⟨tree, hm, hin⟩ := mem_events_cases Scope.fresh items he
  · exact hp.elim
  · obtain ⟨before, after, hturns⟩ := List.append_of_mem hm
    exact ⟨before, turn, ⟨items, after, hi, hturns⟩, line, ho⟩
  · cases tree with
    | leaf token => simp [layoutTree] at hin
    | repetition dollar closing inner separator operator => simp [layoutTree] at hin
    | group d o c inner =>
      have hless : sizeOf inner < sizeOf items := by
        have := List.sizeOf_lt_of_mem hm
        simp only [Tree.group.sizeOf_spec] at this
        omega
      rw [layoutTree, Trace.after_events] at hin
      have hinside : .enter (some level) line ∈
          (layoutItems source rules Scope.fresh inner).events := by
        rcases List.mem_append.mp hin with h | h
        · simp at h
        · rcases Trace.mem_andThen h with h | h
          · exact h
          · simp at h
      exact exists_opensAt inner (hi.inside hm) hinside
termination_by sizeOf items

end Layout

/-- A block is a list, and its entries end with commas, exactly if a keyword stands before its arrow
in the same statement; else they end with semicolons. The last such keyword is recorded. Every block
that has entries opens at such a place. -/
theorem Source.announced_blocks (source : Source) (rules : Rules) {trees : List Tree}
    (ht : source.trees = .ok trees) :
    (∀ level line, .enter (some level) line ∈ (source.layout rules trees).events →
      ∃ before turn, OpensAt source rules trees before turn level) ∧
    ∀ before turn level, OpensAt source rules trees before turn level →
      turn.item.marker?.isSome = true ∧
      (level.kind.separator = [','] ↔
        ∃ front earlier between, before = front ++ earlier :: between ∧
          (earlier.item.keyword? rules).isSome = true ∧
          InStatement source front earlier between turn) ∧
      (level.kind.separator = [';'] ↔
        ¬ ∃ front earlier between, before = front ++ earlier :: between ∧
          (earlier.item.keyword? rules).isSome = true ∧
          InStatement source front earlier between turn) ∧
      ∀ word, level.keyword = some word ↔ LastKeyword source rules before turn word := by
  refine ⟨fun level line he => exists_opensAt trees .whole he, ?_⟩
  rintro before turn level ⟨⟨items, after, hi, hturns⟩, line, ho⟩
  obtain ⟨hmarker, events, reached, ha, hpending⟩ := exists_reached_of_opening hturns ho
  have hkeyword (word : List Char) : level.keyword = some word ↔
      LastKeyword source rules before turn word := by
    rw [hpending]
    exact pending_eq_some_iff ht hi hturns ha word
  have hlist : (∃ word, level.keyword = some word) ↔ ∃ front earlier between,
      before = front ++ earlier :: between ∧ (earlier.item.keyword? rules).isSome = true ∧
        InStatement source front earlier between turn := by
    rw [← exists_lastKeyword_iff]
    exact exists_congr hkeyword
  refine ⟨hmarker, ?_, ?_, hkeyword⟩
  · rw [← hlist]
    cases hk : level.keyword <;> simp [Level.kind, hk, BlockKind.separator]
  · rw [← hlist]
    cases hk : level.keyword <;> simp [Level.kind, hk, BlockKind.separator]

def keywordText : Source := Source.ofText "keywords"
  "struct u\nlet f(enum) =>\n  a\n  b\nmatch\n  d =>\n  1 => e\n".toList

def keywordRules : Rules := ⟨["match".toList], ["struct".toList, "enum".toList], .always, false⟩

def keywordTurns : List Turn :=
  turns keywordText keywordRules Scope.fresh (keywordText.trees.toOption.getD [])

theorem keywordText_opensAt (level : Level) (line : Int) {n : Nat}
    (h : n < keywordTurns.length)
    (ho : .enter (some level) line ∈ (keywordTurns.get ⟨n, h⟩).opening) :
    OpensAt keywordText keywordRules (keywordText.trees.toOption.getD []) (keywordTurns.take n)
      (keywordTurns.get ⟨n, h⟩) level := by
  refine ⟨⟨_, keywordTurns.drop (n + 1), .whole, ?_⟩, line, ho⟩
  rw [List.get_eq_getElem, List.getElem_cons_drop, List.take_append_drop]
  rfl

/-- The first block follows a keyword of another statement and one in brackets, and the second one
a keyword on the line before. -/
theorem keywordText_announced :
    ∃ trees, keywordText.trees = .ok trees ∧
      (∃ before turn level, OpensAt keywordText keywordRules trees before turn level ∧
        level.column = 2 ∧
        ¬ ∃ front earlier between, before = front ++ earlier :: between ∧
          (earlier.item.keyword? keywordRules).isSome = true ∧
          InStatement keywordText front earlier between turn) ∧
      ∃ before turn level, OpensAt keywordText keywordRules trees before turn level ∧
        LastKeyword keywordText keywordRules before turn "match".toList := by
  have ht : keywordText.trees = .ok _ := trees_eq_ok (by decide +kernel)
  have hplain := keywordText_opensAt ⟨2, none⟩ 1 (n := 5) (by decide +kernel) (by decide +kernel)
  have hlist := keywordText_opensAt ⟨2, some "match".toList⟩ 5 (n := 10) (by decide +kernel)
    (by decide +kernel)
  have hblocks := (keywordText.announced_blocks keywordRules ht).2
  exact ⟨_, ht, ⟨_, _, _, hplain, rfl, (hblocks _ _ _ hplain).2.2.1.mp rfl⟩,
    _, _, _, hlist, ((hblocks _ _ _ hlist).2.2.2 _).mp rfl⟩

end Offside
