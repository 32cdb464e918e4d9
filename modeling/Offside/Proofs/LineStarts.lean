import Offside.Proofs.Positions
import Offside.Proofs.Turns

/-!
# What starts a line

Blocks and entries are to end only where an item starts a line, and no line of a block is to stand
left of it. How far both hold is said exactly.

- `Turn.Decides`: the arrival of an item puts something in or fails.
- `decides_within_line_iff`: when an item decides without starting a line.
- `column_le_of_line`: a line never starts left of the innermost block that it is in.
- `column_le_iff_of_nest`: when a line starts left of a block that it is in.
-/
namespace Offside

set_option autoImplicit false

open Layout

/-! ## Lines of the items of a list -/

/-- The items of a list stand in order: each ends no later than the next one starts. -/
theorem Source.items_in_order (source : Source) {trees items : List Tree}
    (ht : source.trees = .ok trees) (hi : ListedIn trees items) :
    items.Pairwise (fun a b =>
        (source.resolve a.span).stop.line ≤ (source.resolve b.span).start.line) ∧
      ∀ tree ∈ items, (source.resolve tree.span).start.line ≤ (source.resolve tree.span).stop.line ∧
        0 ≤ (source.resolve tree.span).start.column := by
  obtain ⟨hs, hsp⟩ := source.spells_trees ht
  have ho := (inOrder_tokensAt 0 (legible_pieces source.chars hs)).1
  obtain ⟨inside, hin, hsub⟩ := hsp.of_listedIn hi
  obtain ⟨hpair, hspan⟩ := hin.inOrder (ho.sublist hsub)
  constructor
  · refine hpair.imp_of_mem ?_
    intro a b ha hb hab
    obtain ⟨ha0, halt, -⟩ := hspan a ha
    rw [source.resolve_of_lt halt, source.resolve_start]
    exact source.position_line_mono (by omega) (by omega)
  · intro tree hmem
    obtain ⟨h0, hlt, -⟩ := hspan tree hmem
    rw [source.resolve_of_lt hlt]
    exact ⟨source.position_line_mono h0 (by omega), source.position_column_nonneg h0⟩

theorem pairwise_stop {source : Source} {items : List Tree}
    (h : items.Pairwise (fun a b =>
        (source.resolve a.span).stop.line ≤ (source.resolve b.span).start.line) ∧
      ∀ tree ∈ items, (source.resolve tree.span).start.line ≤ (source.resolve tree.span).stop.line ∧
        0 ≤ (source.resolve tree.span).start.column) :
    items.Pairwise fun a b =>
      (source.resolve a.span).stop.line ≤ (source.resolve b.span).stop.line := by
  refine h.1.imp_of_mem ?_
  intro a b _ hb hab
  exact Int.le_trans hab (h.2 b hb).1

namespace Layout

/-! ## Arrivals -/

/-- The arrival of an item puts something in or fails. -/
def Turn.Decides (turn : Turn) : Prop := turn.arrival ≠ .ok []

theorem decides_startLine_iff {scope : Scope} {region : Region} (h0 : 0 ≤ region.start.column) :
    (scope.startLine region).map Prod.fst ≠ .ok [] ↔
      ∃ d ∈ scope.blocks.head?, region.start.column ≤ d.column := by
  unfold Scope.startLine
  cases hb : scope.blocks with
  | nil =>
    have hcolumn : scope.column = 0 := by simp [Scope.column, hb]
    simp only [hcolumn]
    split
    · simp [Except.map]
    · rw [if_neg (by omega)]
      simp [Except.map, Scope.separation]
  | cons d outer =>
    have hcolumn : scope.column = d.column := by simp [Scope.column, hb]
    simp only [hcolumn, List.head?_cons, Option.mem_def, Option.some.injEq, exists_eq_left']
    split
    · simp only [Except.map, ne_eq, not_true_eq_false, false_iff]
      omega
    · rename_i hleft
      have hle : region.start.column ≤ d.column := by omega
      simp only [hle, iff_true]
      split
      · simp [Except.map]
      · by_cases heq : d.column = region.start.column
        · simp [Except.map, heq, Scope.separation]
        · simp [Except.map, heq]

/-- An item decides something if it ends below the last line met and does not stand right of the
innermost block. -/
theorem decides_arrive_iff {scope : Scope} {region : Region} (h0 : 0 ≤ region.start.column) :
    (scope.arrive region).map Prod.fst ≠ .ok [] ↔
      (∃ line, scope.lastLine = some line ∧ line < region.stop.line) ∧
        ∃ d ∈ scope.blocks.head?, region.start.column ≤ d.column := by
  unfold Scope.arrive
  cases hl : scope.lastLine with
  | none => simp [Except.map]
  | some line =>
    simp only [Option.some.injEq, exists_eq_left']
    split
    · rename_i hlt
      simpa only [hlt, true_and] using decides_startLine_iff h0
    · rename_i hge
      simp [Except.map, hge]

theorem column_le_of_startLine {scope reached : Scope} {region : Region} {events : List Event}
    (h : scope.startLine region = .ok (events, reached)) :
    ∀ d ∈ reached.blocks.head?, d.column ≤ region.start.column := by
  intro d hd
  rw [Option.mem_def] at hd
  obtain ⟨hright, -, rfl⟩ | ⟨-, -, rfl, -⟩ := Scope.startLine_cases h
  · rw [Scope.column, hd] at hright
    simp only [Option.map_some, Option.getD_some] at hright
    omega
  · have hnot := List.head?_dropWhile_not (fun d : Level => d.column ≠ region.start.column)
      scope.blocks
    rw [hd] at hnot
    simp only [ne_eq, decide_not, Bool.not_eq_false', decide_eq_true_eq] at hnot
    omega

/-! ## Decisions -/

section Decisions

variable {source : Source} {rules : Rules} {trees items : List Tree}
  (ht : source.trees = .ok trees) (hi : ListedIn trees items)

include ht hi

theorem arrival_eq {l r : List Turn} {t : Turn}
    (h : turns source rules Scope.fresh items = l ++ t :: r) :
    t.arrival = ((lastScope Scope.fresh l).arrive (t.region source)).map Prod.fst ∧
      0 ≤ (t.region source).start.column ∧
      (t.region source).start.line ≤ (t.region source).stop.line := by
  obtain ⟨rest, hitems, hturns⟩ := exists_of_turns_eq_append source rules h
  have hmem : t.item ∈ items := by
    rw [hitems]
    exact List.mem_append_right _ List.mem_cons_self
  have hspan := (source.items_in_order ht hi).2 t.item hmem
  exact ⟨arrival_of_turns_eq_cons source rules hturns, hspan.2, hspan.1⟩

theorem not_decides_first {r : List Turn} {t : Turn}
    (h : turns source rules Scope.fresh items = t :: r) : ¬ t.Decides := by
  obtain ⟨harrival, h0, -⟩ := arrival_eq ht hi (l := []) h
  unfold Turn.Decides
  rw [harrival, decides_arrive_iff h0]
  rintro ⟨⟨line, hline, -⟩, -⟩
  simp [lastScope, Scope.fresh] at hline

/-- An item behind another decides something exactly if that one is no arrow and ends on an earlier
line than the item itself, and the item does not stand right of the innermost block. -/
theorem decides_iff {l r : List Turn} {p t : Turn}
    (h : turns source rules Scope.fresh items = l ++ p :: t :: r) :
    t.Decides ↔ p.item.marker? = none ∧ (p.region source).stop.line < (t.region source).stop.line ∧
      ∃ d ∈ p.left.blocks.head?, (t.region source).start.column ≤ d.column := by
  have hline := lastLine_before (pairwise_stop (source.items_in_order ht hi))
    (by simp [Scope.fresh]) h
  obtain ⟨harrival, h0, -⟩ := arrival_eq ht hi (l := l ++ [p]) (by simpa using h)
  rw [lastScope_concat] at harrival
  unfold Turn.Decides
  rw [harrival, decides_arrive_iff h0, hline]
  cases hm : p.item.marker? with
  | some marker => simp
  | none => simp

theorem line_le_of_turns {l r : List Turn} {p t : Turn}
    (h : turns source rules Scope.fresh items = l ++ p :: t :: r) :
    (p.region source).stop.line ≤ (t.region source).start.line := by
  obtain ⟨rest, hitems, hturns⟩ :=
    exists_of_turns_eq_append source rules (l := l ++ [p]) (t := t) (r := r) (by simpa using h)
  have hpair := (source.items_in_order ht hi).1
  rw [hitems, List.map_append, List.append_assoc] at hpair
  have hcons := (List.pairwise_append.mp hpair).2.1
  exact (List.pairwise_cons.mp hcons).1 t.item List.mem_cons_self

/-- An item decides something although no line starts with it exactly if it begins on the line on
which the item before it ends, that one being no arrow, ends on a later line, and does not stand
right of the innermost block. -/
theorem decides_within_line_iff {l r : List Turn} {t : Turn}
    (h : turns source rules Scope.fresh items = l ++ t :: r) :
    (t.Decides ∧
      ¬ ∃ p ∈ l.getLast?, (p.region source).stop.line < (t.region source).start.line) ↔
      ∃ p ∈ l.getLast?, p.item.marker? = none ∧
        (t.region source).start.line = (p.region source).stop.line ∧
        (t.region source).start.line < (t.region source).stop.line ∧
        ∃ d ∈ p.left.blocks.head?, (t.region source).start.column ≤ d.column := by
  rcases List.eq_nil_or_concat l with rfl | ⟨l, p, rfl⟩
  · have hnot := not_decides_first ht hi h
    simp [hnot]
  · rw [List.concat_eq_append] at h ⊢
    rw [List.append_assoc, List.singleton_append] at h
    have hle := line_le_of_turns ht hi h
    rw [decides_iff ht hi h]
    simp only [List.getLast?_append, List.getLast?_singleton, Option.some_or, Option.mem_def,
      Option.some.injEq, exists_eq_left', Int.not_lt]
    constructor
    · rintro ⟨⟨hm, hlt, hd⟩, hsame⟩
      exact ⟨hm, by omega, by omega, hd⟩
    · rintro ⟨hm, hsame, hlt, hd⟩
      exact ⟨⟨hm, by omega, hd⟩, by omega⟩

/-! ## Lines of a block -/

omit ht hi in
/-- An arrow opens a block at the column of the item that follows it. -/
theorem blocks_behind_marker {scope : Scope} {l r : List Turn} {p t : Turn}
    (h : turns source rules scope items = l ++ p :: t :: r) (hm : p.item.marker?.isSome = true) :
    ∃ keyword outer, p.left.blocks = ⟨(t.region source).start.column, keyword⟩ :: outer := by
  obtain ⟨events, reached, -, -, hd⟩ := exists_arrive_of_turns h
  obtain ⟨hnone, -⟩ | ⟨-, hleft, -⟩ :=
    blocks_of_depart rules reached p.item (p.region source) (t.region source)
  · simp [hnone] at hm
  · rw [hd] at hleft
    exact ⟨reached.pending, reached.blocks, hleft⟩

/-- A line that starts with an item never starts left of the innermost block that it is in. -/
theorem column_le_of_line {l r : List Turn} {p t : Turn}
    (h : turns source rules Scope.fresh items = l ++ p :: t :: r) {events : List Event}
    (ha : t.arrival = .ok events)
    (hline : (p.region source).stop.line < (t.region source).start.line) :
    ∃ reached, p.left.arrive (t.region source) = .ok (events, reached) ∧
      ∀ d ∈ reached.blocks.head?, d.column ≤ (t.region source).start.column := by
  have hlast := lastLine_before (pairwise_stop (source.items_in_order ht hi))
    (by simp [Scope.fresh]) h
  obtain ⟨harrival, -, hstop⟩ := arrival_eq ht hi (l := l ++ [p]) (by simpa using h)
  rw [lastScope_concat, ha] at harrival
  cases hm : p.item.marker?.isSome with
  | true =>
    obtain ⟨keyword, outer, hblocks⟩ := blocks_behind_marker h hm
    rw [hm, if_pos rfl] at hlast
    have hstay : p.left.arrive (t.region source) = .ok ([], p.left) := by
      simp [Scope.arrive, hlast]
    rw [hstay] at harrival
    obtain rfl : events = [] := by simpa [Except.map] using harrival
    refine ⟨p.left, hstay, ?_⟩
    simp [hblocks]
  | false =>
    rw [hm, if_neg (by simp)] at hlast
    have hstart : p.left.arrive (t.region source) =
        Scope.startLine { p.left with lastLine := some (t.region source).stop.line }
          (t.region source) := by
      simp only [Scope.arrive, hlast]
      rw [if_pos (by omega)]
    cases hs : p.left.arrive (t.region source) with
    | error fault =>
      rw [hs] at harrival
      simp [Except.map] at harrival
    | ok found =>
      obtain ⟨events', reached⟩ := found
      rw [hs] at harrival
      obtain rfl : events = events' := by simpa [Except.map] using harrival
      exact ⟨reached, rfl, column_le_of_startLine (hstart.symm.trans hs)⟩

/-- A line inside a block starts at or right of the block's column, unless a block that is open
inside it stands so far left that the line is not left of that one. -/
theorem column_le_iff_of_nest {l m r : List Turn} {o f t : Turn}
    (h : turns source rules Scope.fresh items = l ++ o :: (m ++ t :: r))
    (ho : o.item.marker?.isSome = true) (hf : (m ++ [t]).head? = some f)
    {events : List Event} (ha : t.arrival = .ok events) {inner : List (Option Level)}
    (hn : nest [] (m.flatMap Turn.puts ++ events) = some inner)
    (hline : ∃ p ∈ (o :: m).getLast?, (p.region source).stop.line < (t.region source).start.line) :
    (f.region source).start.column ≤ (t.region source).start.column ↔
      ¬ ∃ d, some d ∈ inner ∧ d.column ≤ (t.region source).start.column ∧
        (t.region source).start.column < (f.region source).start.column := by
  obtain ⟨p, hp, hlt⟩ := hline
  obtain ⟨front, hfront⟩ := List.getLast?_eq_some_iff.mp hp
  have hturns : turns source rules Scope.fresh items = (l ++ front) ++ p :: t :: r := by
    have hsplit := congrArg (fun list => l ++ (list ++ t :: r)) hfront
    simpa using h.trans (by simpa using hsplit)
  obtain ⟨reached, harrive, hhead⟩ := column_le_of_line ht hi hturns ha hlt
  obtain ⟨tail, hsplit⟩ : ∃ tail, m ++ t :: r = f :: tail := by
    cases m with
    | nil =>
      obtain rfl : t = f := by simpa using hf
      exact ⟨r, rfl⟩
    | cons first m =>
      obtain rfl : first = f := by simpa using hf
      exact ⟨m ++ t :: r, rfl⟩
  obtain ⟨keyword, outer, hblocks⟩ := blocks_behind_marker (hsplit ▸ h) ho
  have hscope : lastScope o.left m = p.left := by
    have hone := congrArg (lastScope Scope.fresh) hfront
    rwa [lastScope_concat] at hone
  rw [← hscope] at harrive
  obtain ⟨kept, rfl, hreached⟩ := nest_between h harrive hn
  rw [hreached, hblocks] at hhead
  constructor
  · rintro hle ⟨d, -, -, hlt'⟩
    omega
  · intro hno
    cases kept with
    | nil => exact hhead _ rfl
    | cons d kept =>
      have hd := hhead d rfl
      have hnot : ¬ (t.region source).start.column < (f.region source).start.column :=
        fun hlt' => hno ⟨d, by simp, hd, hlt'⟩
      omega

end Decisions

/-! ## Two texts -/

def plainRules : Rules := ⟨[], [], .always, false⟩

def turnsOf (source : Source) : List Turn :=
  turns source plainRules Scope.fresh (source.trees.toOption.getD [])

theorem trees_eq_ok {source : Source} (h : source.trees.toOption.isSome = true) :
    source.trees = .ok (source.trees.toOption.getD []) := by
  cases ht : source.trees with
  | error diagnostics => simp [ht, Except.toOption] at h
  | ok trees => rfl

theorem turnsOf_split {source : Source} {n : Nat} (h : n + 1 < (turnsOf source).length) :
    turnsOf source = (turnsOf source).take n ++ [(turnsOf source).get ⟨n, by omega⟩] ++
      (turnsOf source).get ⟨n + 1, h⟩ :: (turnsOf source).drop (n + 2) := by
  simp only [List.get_eq_getElem, List.append_assoc, List.singleton_append,
    List.getElem_cons_drop, List.take_append_drop]

def twoStrings : Source := Source.ofText "strings" "f =>\n    \"a\n\" \"b\nc\"\n".toList

theorem length_twoStrings : 2 + 1 < (turnsOf twoStrings).length := by decide +kernel

/-- The second string starts no line, but it is refused as one that does. -/
theorem twoStrings_refused :
    ∃ trees l p t r, twoStrings.trees = .ok trees ∧
      turns twoStrings plainRules Scope.fresh trees = l ++ [p] ++ t :: r ∧
      (t.region twoStrings).start.line = (p.region twoStrings).stop.line ∧
      t.arrival = .error (.unknownColumn (t.region twoStrings) [0, 4]) :=
  ⟨_, _, _, _, _, trees_eq_ok (by decide +kernel), turnsOf_split length_twoStrings,
    by decide +kernel, by decide +kernel⟩

theorem twoStrings_decides :
    ∃ trees l p t r, twoStrings.trees = .ok trees ∧
      turns twoStrings plainRules Scope.fresh trees = l ++ [p] ++ t :: r ∧
      t.Decides ∧
      ¬ ∃ q ∈ (l ++ [p]).getLast?,
        (q.region twoStrings).stop.line < (t.region twoStrings).start.line := by
  have ht : twoStrings.trees = .ok _ := trees_eq_ok (by decide +kernel)
  have hs := turnsOf_split length_twoStrings
  refine ⟨_, _, _, _, _, ht, hs, (decides_within_line_iff ht .whole hs).mpr ?_⟩
  exact ⟨_, List.getLast?_concat, by decide +kernel, by decide +kernel, by decide +kernel,
    ⟨4, none⟩, by decide +kernel, by decide +kernel⟩

def sunkenBlock : Source := Source.ofText "sunken" "a =>\n    b =>\nc\n".toList

theorem length_sunkenBlock : (turnsOf sunkenBlock).length = 5 := by decide +kernel

def sunkenTurn (n : Fin 5) : Turn := (turnsOf sunkenBlock).get (n.cast length_sunkenBlock.symm)

theorem turnsOf_sunkenBlock : turnsOf sunkenBlock =
    [sunkenTurn 0] ++ sunkenTurn 1 :: ([sunkenTurn 2, sunkenTurn 3] ++ sunkenTurn 4 :: []) := by
  have hget (xs : List Turn) (h : 5 = xs.length) :
      xs = [xs.get (Fin.cast h 0), xs.get (Fin.cast h 1), xs.get (Fin.cast h 2),
        xs.get (Fin.cast h 3), xs.get (Fin.cast h 4)] := by
    match xs, h with
    | [_, _, _, _, _], _ => rfl
  exact hget _ length_sunkenBlock.symm

/-- The last item starts a line left of the block of the first arrow, but it is in that block, and
the text is converted. -/
theorem sunkenBlock_holds_line :
    ∃ trees l m r o f t events inner, sunkenBlock.trees = .ok trees ∧
      turns sunkenBlock plainRules Scope.fresh trees = l ++ o :: (m ++ t :: r) ∧
      o.item.marker?.isSome = true ∧ (m ++ [t]).head? = some f ∧ t.arrival = .ok events ∧
      nest [] (m.flatMap Turn.puts ++ events) = some inner ∧
      (∃ p ∈ (o :: m).getLast?,
        (p.region sunkenBlock).stop.line < (t.region sunkenBlock).start.line) ∧
      (t.region sunkenBlock).start.column < (f.region sunkenBlock).start.column ∧
      (sunkenBlock.convert plainRules).result =
        .ok "a => \x7b\n    b => \x7b\nc \x7d \x7d\n".toList :=
  ⟨_, _, _, _, _, _, _, [], [some ⟨0, none⟩], trees_eq_ok (by decide +kernel),
    turnsOf_sunkenBlock, by decide +kernel, rfl, by decide +kernel, by decide +kernel,
    ⟨_, rfl, by decide +kernel⟩, by decide +kernel, by decide +kernel⟩

theorem sunkenBlock_left_of_block :
    ∃ trees l m r o f t, sunkenBlock.trees = .ok trees ∧
      turns sunkenBlock plainRules Scope.fresh trees = l ++ o :: (m ++ t :: r) ∧
      (m ++ [t]).head? = some f ∧
      ¬ (f.region sunkenBlock).start.column ≤ (t.region sunkenBlock).start.column := by
  have ht : sunkenBlock.trees = .ok _ := trees_eq_ok (by decide +kernel)
  have ho : (sunkenTurn 1).item.marker?.isSome = true := by decide +kernel
  have ha : (sunkenTurn 4).arrival = .ok [] := by decide +kernel
  have hn : nest [] ([sunkenTurn 2, sunkenTurn 3].flatMap Turn.puts ++ []) =
      some [some ⟨0, none⟩] := by decide +kernel
  refine ⟨_, _, _, _, _, _, _, ht, turnsOf_sunkenBlock, rfl, fun hle => ?_⟩
  refine (column_le_iff_of_nest ht .whole turnsOf_sunkenBlock ho rfl ha hn
    ⟨sunkenTurn 3, rfl, by decide +kernel⟩).mp hle ⟨⟨0, none⟩, ?_⟩
  decide +kernel

end Layout

end Offside
