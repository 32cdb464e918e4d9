import Offside.Proofs.Abreast
import Offside.Proofs.Turns

/-!
# Two layouts side by side

Twins are laid out in step. What a layout does hangs only on which lines and which columns are
less than others, so two texts in which these orders agree are laid out alike.

- `ScopeTwins`: scopes with the same blocks, at columns that are related.
- `Woven`, `FaultTwins`, `TraceTwins`: events, faults and traces that are alike.
- `significant`: the items of a list whose columns a layout may look at.
- `layoutItems_twins`, `layout_twins`: the traces of twins are alike.
-/
namespace Offside

set_option autoImplicit false

open Layout

namespace Layout

/-! ## Scopes -/

def LevelTwins (columns : Int → Int → Prop) (d d' : Level) : Prop :=
  columns d.column d'.column ∧ d'.keyword = d.keyword

/-- Scopes with the same blocks, keywords and state, up to the numbers of their columns and
lines. -/
structure ScopeTwins (lines columns : Int → Int → Prop) (scope scope' : Scope) : Prop where
  blocks : List.Forall₂ (LevelTwins columns) scope.blocks scope'.blocks
  pending : scope'.pending = scope.pending
  lastLine : Option.Rel lines scope.lastLine scope'.lastLine

namespace ScopeTwins

variable {lines columns : Int → Int → Prop} {scope scope' : Scope}

theorem fresh : ScopeTwins lines columns Scope.fresh Scope.fresh := ⟨.nil, rfl, .none⟩

theorem keyword (h : ScopeTwins lines columns scope scope') : scope'.keyword = scope.keyword := by
  have hb := h.blocks
  unfold Scope.keyword
  generalize scope.blocks = blocks, scope'.blocks = blocks' at hb
  cases hb with
  | nil => rfl
  | cons hd _ => exact hd.2

theorem keepsMarker (h : ScopeTwins lines columns scope scope') (rules : Rules) :
    scope'.keepsMarker rules = scope.keepsMarker rules := by
  rw [Scope.keepsMarker, h.keyword, Scope.keepsMarker]

theorem column (hz : columns 0 0) (h : ScopeTwins lines columns scope scope') :
    columns scope.column scope'.column := by
  have hb := h.blocks
  unfold Scope.column
  generalize scope.blocks = blocks, scope'.blocks = blocks' at hb
  cases hb with
  | nil => exact hz
  | cons hd _ => exact hd.1

theorem columns_all (hz : columns 0 0) (h : ScopeTwins lines columns scope scope') :
    List.Forall₂ columns scope.columns scope'.columns := by
  refine .cons hz (List.rel_reverse ?_)
  rw [List.forall₂_map_left_iff, List.forall₂_map_right_iff]
  exact h.blocks.imp fun _ _ hd => hd.1

theorem setLastLine (h : ScopeTwins lines columns scope scope') {line line' : Int}
    (hl : lines line line') : ScopeTwins lines columns { scope with lastLine := some line }
      { scope' with lastLine := some line' } :=
  ⟨h.blocks, h.pending, .some hl⟩

end ScopeTwins

section Cut

variable {columns : Int → Int → Prop} {c c' : Int} {blocks blocks' : List Level}

/-- The same blocks stand right of two columns that are related. -/
theorem forall₂_cut (hk : KeepsOrder columns) (hc : columns c c')
    (h : List.Forall₂ (LevelTwins columns) blocks blocks') :
    List.Forall₂ (LevelTwins columns) (blocks.takeWhile (·.column ≠ c))
        (blocks'.takeWhile (·.column ≠ c')) ∧
      List.Forall₂ (LevelTwins columns) (blocks.dropWhile (·.column ≠ c))
        (blocks'.dropWhile (·.column ≠ c')) := by
  induction h with
  | nil => exact ⟨.nil, .nil⟩
  | @cons d d' blocks blocks' hd hrest ih =>
    have heq := hk.eq_iff hd.1 hc
    by_cases hdc : d.column = c
    · have hdc' := heq.mp hdc
      simp [hdc, hdc', hd, hrest]
    · have hdc' : d'.column ≠ c' := fun he => hdc (heq.mpr he)
      simp only [List.takeWhile_cons, List.dropWhile_cons, ne_eq, hdc, hdc', not_false_eq_true,
        decide_true, if_true]
      exact ⟨.cons hd ih.1, ih.2⟩

theorem mem_iff_of_forall₂ (hk : KeepsOrder columns) (hc : columns c c') {l l' : List Int}
    (h : List.Forall₂ columns l l') : c ∈ l ↔ c' ∈ l' := by
  induction h with
  | nil => simp
  | cons hd _ ih => rw [List.mem_cons, List.mem_cons, ih, hk.eq_iff hc hd]

end Cut

/-! ## Events and faults -/

/-- What an event shows: the word that it writes, or the punctuation that it puts in. -/
def Event.outline (event : Event) : Option (TokenKind × List Char) × List Char :=
  (event.token?.map Token.word, event.punctuation)

/-- Events of two layouts that show the same and write the tokens of pairs in their order. Some
pairs may be left out. -/
inductive Woven (source source' : Source) : List Pair → List Event → List Event → Prop
  | nil : Woven source source' [] [] []
  | mark {e e' : Event} {ps : List Pair} {es es' : List Event} (ht : e.token? = none)
      (ht' : e'.token? = none) (hp : e'.punctuation = e.punctuation)
      (h : Woven source source' ps es es') : Woven source source' ps (e :: es) (e' :: es')
  | write {p : Pair} {ps : List Pair} {es es' : List Event} (hw : p.1.word = p.2.word)
      (h : Woven source source' ps es es') :
      Woven source source' (p :: ps) (.write p.1 (source.resolve p.1.span) :: es)
        (.write p.2 (source'.resolve p.2.span) :: es')
  | skip {p : Pair} {ps : List Pair} {es es' : List Event}
      (h : Woven source source' ps es es') : Woven source source' (p :: ps) es es'

theorem Woven.append {source source' : Source} {ps qs : List Pair} {es es' fs fs' : List Event}
    (h : Woven source source' ps es es') (h' : Woven source source' qs fs fs') :
    Woven source source' (ps ++ qs) (es ++ fs) (es' ++ fs') := by
  induction h with
  | nil => exact h'
  | mark ht ht' hp _ ih => exact .mark ht ht' hp ih
  | write hw _ ih => exact .write hw ih
  | skip _ ih => exact .skip ih

theorem Woven.outline {source source' : Source} {ps : List Pair} {es es' : List Event}
    (h : Woven source source' ps es es') : es.map Event.outline = es'.map Event.outline := by
  induction h with
  | nil => rfl
  | mark ht ht' hp _ ih =>
    rw [List.map_cons, List.map_cons, ih, Event.outline, Event.outline, ht, ht', hp]
  | write hw _ ih =>
    rw [List.map_cons, List.map_cons, ih, Event.outline, Event.outline, Event.token?,
      Event.token?, Option.map_some, Option.map_some, hw]
    rfl
  | skip _ ih => exact ih

/-- The same fault at the same tokens. The columns that it tells are related. -/
inductive FaultTwins (source source' : Source) (told : Int → Int → Prop) (all : List Pair) :
    Fault → Fault → Prop
  | unknownColumn {region region' : Region} {columns columns' : List Int}
      (hr : RegionPair source source' all region region') (hc : List.Forall₂ told columns columns') :
      FaultTwins source source' told all (.unknownColumn region columns)
        (.unknownColumn region' columns')
  | repetition {region region' : Region} (hr : RegionPair source source' all region region') :
      FaultTwins source source' told all (.repetition region) (.repetition region')

/-- Traces that write the same pairs, or end in the same fault. -/
def TraceTwins (source source' : Source) (told : Int → Int → Prop) (all ps : List Pair)
    (trace trace' : Trace) : Prop :=
  (trace.fault = none ∧ trace'.fault = none ∧
      Woven source source' ps trace.events trace'.events) ∨
    ∃ fault fault', trace.fault = some fault ∧ trace'.fault = some fault' ∧
      FaultTwins source source' told all fault fault'

section Traces

variable {source source' : Source} {told : Int → Int → Prop} {all ps qs : List Pair}

theorem TraceTwins.after {es es' : List Event} (he : Woven source source' ps es es')
    {trace trace' : Trace} (h : TraceTwins source source' told all qs trace trace') :
    TraceTwins source source' told all (ps ++ qs) (trace.after es) (trace'.after es') := by
  rcases h with ⟨hf, hf', hw⟩ | ⟨fault, fault', hf, hf', htwins⟩
  · exact .inl ⟨hf, hf', he.append hw⟩
  · exact .inr ⟨fault, fault', hf, hf', htwins⟩

theorem TraceTwins.andThen {first first' second second' : Trace}
    (h : TraceTwins source source' told all ps first first')
    (h' : TraceTwins source source' told all qs second second') :
    TraceTwins source source' told all (ps ++ qs) (first.andThen second)
      (first'.andThen second') := by
  unfold Trace.andThen
  rcases h with ⟨hf, hf', hw⟩ | ⟨fault, fault', hf, hf', htwins⟩
  · simp only [hf, hf']
    exact h'.after hw
  · simp only [hf, hf']
    exact .inr ⟨fault, fault', hf, hf', htwins⟩

end Traces

/-! ## Steps -/

section Steps

variable (source source' : Source) {lines columns : Int → Int → Prop} {scope scope' : Scope}
  {region region' : Region}

theorem woven_leaves {blocks blocks' : List Level}
    (h : List.Forall₂ (LevelTwins columns) blocks blocks') (leave leave' : Level → Event)
    (hl : ∀ d, ∃ dedent, leave d = .leave dedent) (hl' : ∀ d, ∃ dedent, leave' d = .leave dedent) :
    Woven source source' [] (blocks.map leave) (blocks'.map leave') := by
  induction h with
  | nil => exact .nil
  | @cons d d' blocks blocks' _ _ ih =>
    obtain ⟨dedent, hd⟩ := hl d
    obtain ⟨dedent', hd'⟩ := hl' d'
    rw [List.map_cons, List.map_cons, hd, hd']
    exact .mark rfl rfl rfl ih

theorem woven_close (h : ScopeTwins lines columns scope scope') :
    Woven source source' [] scope.close scope'.close :=
  woven_leaves source source' h.blocks _ _ (fun _ => ⟨_, rfl⟩) fun _ => ⟨_, rfl⟩

theorem woven_separation (h : ScopeTwins lines columns scope scope') :
    Woven source source' [] scope.separation scope'.separation := by
  have hb := h.blocks
  unfold Scope.separation
  generalize scope.blocks = blocks, scope'.blocks = blocks' at hb
  cases hb with
  | nil => exact .nil
  | cons hd _ =>
    refine .mark rfl rfl ?_ .nil
    rw [Level.kind, hd.2, Level.kind]

/-- The start of a line does the same in both scopes. -/
theorem startLine_twins (hk : KeepsOrder columns) (hz : columns 0 0)
    (h : ScopeTwins lines columns scope scope')
    (hc : columns region.start.column region'.start.column) :
    (∃ events events' reached reached', scope.startLine region = .ok (events, reached) ∧
        scope'.startLine region' = .ok (events', reached') ∧
        Woven source source' [] events events' ∧ ScopeTwins lines columns reached reached' ∧
        reached.lastLine = scope.lastLine) ∨
      ∃ found found', scope.startLine region = .error (.unknownColumn region found) ∧
        scope'.startLine region' = .error (.unknownColumn region' found') ∧
        List.Forall₂ columns found found' := by
  have hright := hk _ _ _ _ (h.column hz) hc
  have hleft := hk _ _ _ _ hc (h.column hz)
  have hmem := mem_iff_of_forall₂ hk hc (h.columns_all hz)
  obtain ⟨hclosed, hkept⟩ := forall₂_cut hk hc h.blocks
  unfold Scope.startLine
  by_cases hr : scope.column < region.start.column
  · simp only [if_pos hr, if_pos (hright.mp hr)]
    exact .inl ⟨[], [], scope, scope', rfl, rfl, .nil, h, rfl⟩
  simp only [if_neg hr, if_neg fun hr' => hr (hright.mpr hr')]
  by_cases hu : region.start.column < scope.column ∧ region.start.column ∉ scope.columns
  · have hu' : region'.start.column < scope'.column ∧
        region'.start.column ∉ scope'.columns :=
      ⟨hleft.mp hu.1, fun hm => hu.2 (hmem.mpr hm)⟩
    rw [if_pos hu, if_pos hu']
    exact .inr ⟨_, _, rfl, rfl, h.columns_all hz⟩
  · have hu' : ¬ (region'.start.column < scope'.column ∧
        region'.start.column ∉ scope'.columns) :=
      fun hu' => hu ⟨hleft.mpr hu'.1, fun hm => hu'.2 (hmem.mp hm)⟩
    rw [if_neg hu, if_neg hu']
    have hreached : ScopeTwins lines columns
        ⟨scope.blocks.dropWhile (·.column ≠ region.start.column), none, scope.lastLine⟩
        ⟨scope'.blocks.dropWhile (·.column ≠ region'.start.column), none, scope'.lastLine⟩ :=
      ⟨hkept, rfl, h.lastLine⟩
    have hleaves : Woven source source' [] _ _ := woven_leaves source source' hclosed
      (fun level => .leave (some (level, region.start.line)))
      (fun level => .leave (some (level, region'.start.line))) (fun _ => ⟨_, rfl⟩)
      fun _ => ⟨_, rfl⟩
    have hparted := hleaves.append (woven_separation source source' hreached)
    exact .inl ⟨_, _, _, _, rfl, rfl, hparted, hreached, rfl⟩

/-- The arrival of an item does the same in both scopes, and leaves them behind its last line. -/
theorem arrive_twins (hl : KeepsOrder lines) (hk : KeepsOrder columns) (hz : columns 0 0)
    (h : ScopeTwins lines columns scope scope')
    (hstop : lines region.stop.line region'.stop.line)
    (hc : ∀ line ∈ scope.lastLine, line < region.stop.line →
      columns region.start.column region'.start.column) :
    (∃ events events' reached reached', scope.arrive region = .ok (events, reached) ∧
        scope'.arrive region' = .ok (events', reached') ∧
        Woven source source' [] events events' ∧ ScopeTwins lines columns reached reached' ∧
        ∀ line ∈ reached.lastLine, region.stop.line ≤ line) ∨
      ∃ found found', scope.arrive region = .error (.unknownColumn region found) ∧
        scope'.arrive region' = .error (.unknownColumn region' found') ∧
        List.Forall₂ columns found found' := by
  have hset := h.setLastLine hstop
  have hlast := h.lastLine
  unfold Scope.arrive
  cases hline : scope.lastLine with
  | none =>
    obtain hline' : scope'.lastLine = none := by
      rw [hline] at hlast
      generalize scope'.lastLine = last' at hlast
      cases hlast
      rfl
    simp only [hline']
    exact .inl ⟨[], [], _, _, rfl, rfl, .nil, hset, by simp⟩
  | some line =>
    obtain ⟨line', hline', hrel⟩ : ∃ line', scope'.lastLine = some line' ∧ lines line line' := by
      rw [hline] at hlast
      generalize scope'.lastLine = last' at hlast
      cases hlast with
      | some hrel => exact ⟨_, rfl, hrel⟩
    have hlt := hl _ _ _ _ hrel hstop
    simp only [hline']
    by_cases hnew : line < region.stop.line
    · simp only [if_pos hnew, if_pos (hlt.mp hnew)]
      obtain ⟨events, events', reached, reached', ho, ho', hw, htwins, hsame⟩ | hfault :=
        startLine_twins source source' hk hz hset (hc line hline hnew)
      · refine .inl ⟨events, events', reached, reached', ho, ho', hw, htwins, ?_⟩
        simp [hsame]
      · exact .inr hfault
    · simp only [if_neg hnew, if_neg fun hnew' => hnew (hlt.mpr hnew')]
      refine .inl ⟨[], [], scope, scope', rfl, rfl, .nil, h, ?_⟩
      intro last hm
      obtain rfl : line = last := by simpa [hline] using hm
      omega

/-- An arrow opens the same block in both scopes. -/
theorem openBlock_twins (rules : Rules) (h : ScopeTwins lines columns scope scope') {p : Pair}
    (hw : p.1.word = p.2.word) {following following' : Option Region}
    (hf : Option.Rel (fun next next' => lines next.stop.line next'.stop.line ∧
      columns next.start.column next'.start.column) following following') :
    let opened := scope.openBlock rules p.1 (source.resolve p.1.span) following
    let opened' := scope'.openBlock rules p.2 (source'.resolve p.2.span) following'
    Woven source source' [p] opened.1 opened'.1 ∧ ScopeTwins lines columns opened.2 opened'.2 := by
  have hwritten {events events' : List Event} (he : Woven source source' [] events events') :
      Woven source source' [p]
        ((if scope.keepsMarker rules then [.write p.1 (source.resolve p.1.span)] else []) ++ events)
        ((if scope'.keepsMarker rules then [.write p.2 (source'.resolve p.2.span)] else []) ++
          events') := by
    rw [h.keepsMarker rules]
    split
    · exact .write hw he
    · exact .skip he
  cases hf with
  | none =>
    exact ⟨hwritten (.mark rfl rfl rfl (.mark rfl rfl rfl .nil)), h⟩
  | @some next next' hnext =>
    refine ⟨hwritten (.mark rfl rfl rfl .nil), ?_, rfl, .some hnext.1⟩
    exact .cons ⟨hnext.2, h.pending⟩ h.blocks

theorem noteWord_twins (rules : Rules) (h : ScopeTwins lines columns scope scope') {p : Pair}
    (hw : p.1.word = p.2.word) :
    ScopeTwins lines columns (scope.noteWord rules p.1) (scope'.noteWord rules p.2) := by
  unfold Scope.noteWord
  rw [kind_eq_of_word hw, text_eq_of_word hw]
  split
  · exact ⟨h.blocks, rfl, h.lastLine⟩
  · exact h

end Steps

/-! ## Items side by side -/

/-- The items of a list whose columns a layout may look at: those that end on a later line than
the item before them, and those that follow an arrow. -/
def significant (source : Source) : List Tree → List Tree
  | a :: b :: rest =>
    if (source.resolve a.span).stop.line < (source.resolve b.span).stop.line ∨
        a.marker?.isSome = true then
      b :: significant source (b :: rest)
    else significant source (b :: rest)
  | _ => []

/-- The columns of the significant items of two lists are ordered alike, zero included. -/
def Comparable (source source' : Source) (told : Int → Int → Prop) (items items' : List Tree) :
    Prop :=
  ∃ columns : Int → Int → Prop, KeepsOrder columns ∧ columns 0 0 ∧
    (∀ c c', columns c c' → told c c') ∧
    ∀ p ∈ (significant source items).zip (significant source' items'),
      columns (source.resolve p.1.span).start.column (source'.resolve p.2.span).start.column

/-- Lists of items that stand at the same place in two lists of trees: the trees themselves, and
the contents of two groups at the same place in such lists. -/
inductive ListedBeside (trees trees' : List Tree) : List Tree → List Tree → Prop
  | whole : ListedBeside trees trees' trees trees'
  | inside {items items' inner inner' : List Tree} {d d' : Delimiter} {o o' c c' : Span}
      (h : ListedBeside trees trees' items items')
      (hm : (Tree.group d o c inner, Tree.group d' o' c' inner') ∈ items.zip items') :
      ListedBeside trees trees' inner inner'

theorem ListedBeside.of_inside {items items' inner inner' l l' : List Tree} {d d' : Delimiter}
    {o o' c c' : Span}
    (hm : (Tree.group d o c inner, Tree.group d' o' c' inner') ∈ items.zip items')
    (h : ListedBeside inner inner' l l') : ListedBeside items items' l l' := by
  induction h with
  | whole => exact .inside .whole hm
  | inside _ hm' ih => exact .inside ih hm'

section Items

variable {source source' : Source} {all ps : List Pair} {tree tree' : Tree}
  {rest rest' : List Tree}

theorem marker?_isSome_eq (ht : Twins (tree :: rest) (tree' :: rest') ps) :
    tree'.marker?.isSome = tree.marker?.isSome := by
  cases ht with
  | leaf hw h =>
    simp only [Tree.marker?, kind_eq_of_word hw]
    split <;> rfl
  | group => rfl
  | repetition => rfl

/-- Of two items the second is significant in both lists or in neither. -/
theorem significant_iff_twins (h : Abreast source source' all) {next next' : Tree}
    (ht : Twins (tree :: next :: rest) (tree' :: next' :: rest') ps) (hs : ps.Sublist all) :
    ((source.resolve tree.span).stop.line < (source.resolve next.span).stop.line ∨
        tree.marker?.isSome = true) ↔
      ((source'.resolve tree'.span).stop.line < (source'.resolve next'.span).stop.line ∨
        tree'.marker?.isSome = true) := by
  obtain ⟨ts, us, rfl, -, hrest⟩ := ht.uncons
  have hus : us.Sublist all := (List.sublist_append_right ts us).trans hs
  rw [marker?_isSome_eq ht, h.lines _ _ _ _ (h.regionPair ht hs).stopLines
    (h.regionPair hrest hus).stopLines]

/-- Behind an item of twins the significant items are those of the rest, and the next one if it
ends on a later line or follows an arrow. -/
theorem significant_twins (h : Abreast source source' all)
    (ht : Twins (tree :: rest) (tree' :: rest') ps) (hs : ps.Sublist all)
    {columns : Int → Int → Prop}
    (hsig : ∀ p ∈ (significant source (tree :: rest)).zip (significant source' (tree' :: rest')),
      columns (source.resolve p.1.span).start.column (source'.resolve p.2.span).start.column) :
    (∀ p ∈ (significant source rest).zip (significant source' rest'),
      columns (source.resolve p.1.span).start.column
        (source'.resolve p.2.span).start.column) ∧
      ∀ next ∈ rest.head?, ∀ next' ∈ rest'.head?,
        ((source.resolve tree.span).stop.line < (source.resolve next.span).stop.line ∨
          tree.marker?.isSome = true) →
        columns (source.resolve next.span).start.column
          (source'.resolve next'.span).start.column := by
  cases rest with
  | nil => simp [significant]
  | cons b rest =>
    cases rest' with
    | nil => simp [significant]
    | cons b' rest' =>
      have hiff := significant_iff_twins h ht hs
      by_cases hcond : (source.resolve tree.span).stop.line < (source.resolve b.span).stop.line ∨
          tree.marker?.isSome = true
      · simp only [significant, if_pos hcond, if_pos (hiff.mp hcond), List.zip_cons_cons] at hsig
        refine ⟨fun p hp => hsig p (List.mem_cons_of_mem _ hp), fun next hn next' hn' _ => ?_⟩
        obtain rfl : b = next := by simpa using hn
        obtain rfl : b' = next' := by simpa using hn'
        exact hsig (b, b') List.mem_cons_self
      · simp only [significant, if_neg hcond, if_neg fun hc => hcond (hiff.mpr hc)] at hsig
        refine ⟨hsig, fun next hn next' hn' hsome => ?_⟩
        obtain rfl : b = next := by simpa using hn
        exact absurd hsome hcond

/-- The significant items of twins stand at the same places. -/
theorem mem_zip_of_significant (h : Abreast source source' all) {items items' : List Tree}
    (ht : Twins items items' ps) (hs : ps.Sublist all) {p : Tree × Tree}
    (hp : p ∈ (significant source items).zip (significant source' items')) :
    p ∈ items.zip items' := by
  induction items generalizing items' ps with
  | nil => simp [significant] at hp
  | cons first rest ih =>
    cases items' with
    | nil => simp [significant] at hp
    | cons first' rest' =>
      obtain ⟨ts, us, rfl, -, hrest⟩ := ht.uncons
      have hus : us.Sublist all := (List.sublist_append_right ts us).trans hs
      rw [List.zip_cons_cons]
      cases rest with
      | nil => simp [significant] at hp
      | cons b rest =>
        cases rest' with
        | nil => simp [significant] at hp
        | cons b' rest' =>
          have hiff := significant_iff_twins h ht hs
          by_cases hcond : (source.resolve first.span).stop.line <
              (source.resolve b.span).stop.line ∨ first.marker?.isSome = true
          · simp only [significant, if_pos hcond, if_pos (hiff.mp hcond),
              List.zip_cons_cons] at hp
            rcases List.mem_cons.mp hp with rfl | hp
            · exact List.mem_cons_of_mem _ (by simp)
            · exact List.mem_cons_of_mem _ (ih hrest hus hp)
          · simp only [significant, if_neg hcond, if_neg fun hc => hcond (hiff.mpr hc)] at hp
            exact List.mem_cons_of_mem _ (ih hrest hus hp)

/-- Items at the same place of twins start and end at tokens of the same pairs. -/
theorem regionPair_of_mem_zip (h : Abreast source source' all) {items items' : List Tree}
    (ht : Twins items items' ps) (hs : ps.Sublist all) {p : Tree × Tree}
    (hp : p ∈ items.zip items') :
    RegionPair source source' all (source.resolve p.1.span) (source'.resolve p.2.span) := by
  obtain ⟨ts, hone, hsub⟩ := ht.exists_of_mem_zip hp
  exact h.regionPair hone (hsub.trans hs)

/-- Lists that stand at the same place in twins are twins. -/
theorem ListedBeside.twins {trees trees' items items' : List Tree}
    (h : ListedBeside trees trees' items items') (ht : Twins trees trees' ps) :
    ∃ ts, Twins items items' ts ∧ ts.Sublist ps := by
  induction h with
  | whole => exact ⟨ps, ht, List.Sublist.refl ps⟩
  | inside _ hm ih =>
    obtain ⟨ts, hitems, hsub⟩ := ih
    obtain ⟨us, hgroup, hus⟩ := hitems.exists_of_mem_zip hm
    cases hgroup with
    | group _ _ _ _ _ hi _ =>
      have hinside := (List.sublist_of_cons_sublist hus).trans hsub
      exact ⟨_, hi, (List.sublist_append_left _ _).trans hinside⟩

/-! ## Layouts side by side -/

variable {rules : Rules} {told columns : Int → Int → Prop} {scope scope' : Scope}

/-- The next items of two lists have related columns if the first of them ends below the last line
met. -/
def Ready (source source' : Source) (columns : Int → Int → Prop) (scope : Scope)
    (items items' : List Tree) : Prop :=
  ∀ tree ∈ items.head?, ∀ tree' ∈ items'.head?, ∀ line ∈ scope.lastLine,
    line < (source.resolve tree.span).stop.line →
      columns (source.resolve tree.span).start.column (source'.resolve tree'.span).start.column

/-- An item that is no arrow and the rest of its list. -/
theorem layoutItems_cons_twins (h : Abreast source source' all) {ts us : List Pair}
    (ht : Twins (tree :: rest) (tree' :: rest') (ts ++ us)) (hs : (ts ++ us).Sublist all)
    (hk : KeepsOrder columns) (hz : columns 0 0) (htold : ∀ c c', columns c c' → told c c')
    (hscope : ScopeTwins (stopLines source source' all) columns scope scope')
    (hready : Ready source source' columns scope (tree :: rest) (tree' :: rest'))
    (hnext : ∀ next ∈ rest.head?, ∀ next' ∈ rest'.head?,
      ((source.resolve tree.span).stop.line < (source.resolve next.span).stop.line ∨
        tree.marker?.isSome = true) →
      columns (source.resolve next.span).start.column
        (source'.resolve next'.span).start.column)
    (hm : tree.marker? = none)
    (htree : TraceTwins source source' told all ts (layoutTree source rules tree)
      (layoutTree source' rules tree'))
    (hnote : ∀ reached reached',
      ScopeTwins (stopLines source source' all) columns reached reached' →
      ScopeTwins (stopLines source source' all) columns (tree.note rules reached)
        (tree'.note rules reached'))
    (hrest : ∀ left left', ScopeTwins (stopLines source source' all) columns left left' →
      Ready source source' columns left rest rest' →
      TraceTwins source source' told all us (layoutItems source rules left rest)
        (layoutItems source' rules left' rest')) :
    TraceTwins source source' told all (ts ++ us)
      (layoutItems source rules scope (tree :: rest))
      (layoutItems source' rules scope' (tree' :: rest')) := by
  have hregion := h.regionPair ht hs
  have hm' : tree'.marker? = none := by
    have hsome := marker?_isSome_eq ht
    rw [hm] at hsome
    simpa using hsome
  obtain ⟨events, events', reached, reached', ha, ha', hw, htwins, hline⟩ |
      ⟨found, found', ha, ha', hfound⟩ :=
    arrive_twins source source' h.lines hk hz hscope hregion.stopLines (hready tree rfl tree' rfl)
  · rw [layoutItems_item source rules ha hm, layoutItems_item source' rules ha' hm']
    refine TraceTwins.after hw (htree.andThen (hrest _ _ (hnote _ _ htwins) ?_))
    intro next hn next' hn' line hm hlt
    rw [lastLine_note] at hm
    exact hnext next hn next' hn' (.inl (Int.lt_of_le_of_lt (hline line hm) hlt))
  · rw [layoutItems_fault source rules ha, layoutItems_fault source' rules ha']
    exact .inr ⟨_, _, rfl, rfl, .unknownColumn hregion (hfound.imp htold)⟩

/-- What follows an arrow follows it in both lists, at columns that are related. -/
theorem following_twins (h : Abreast source source' all)
    (ht : Twins (tree :: rest) (tree' :: rest') ps) (hs : ps.Sublist all)
    (hnext : ∀ next ∈ rest.head?, ∀ next' ∈ rest'.head?,
      columns (source.resolve next.span).start.column
        (source'.resolve next'.span).start.column) :
    Option.Rel (fun next next' : Region =>
        stopLines source source' all next.stop.line next'.stop.line ∧
          columns next.start.column next'.start.column)
      (rest.head?.map fun next => source.resolve next.span)
      (rest'.head?.map fun next => source'.resolve next.span) := by
  obtain ⟨ts, us, rfl, -, hrest⟩ := ht.uncons
  have hus : us.Sublist all := (List.sublist_append_right ts us).trans hs
  cases rest with
  | nil =>
    cases hrest
    exact .none
  | cons next rest =>
    cases rest' with
    | nil => cases hrest
    | cons next' rest' =>
      exact .some ⟨(h.regionPair hrest hus).stopLines, hnext next rfl next' rfl⟩

/-- The item behind an arrow ends on the last line met. -/
theorem ready_openBlock (marker : Token) (region : Region) :
    Ready source source' columns (scope.openBlock rules marker region
      (rest.head?.map fun next => source.resolve next.span)).2 rest rest' := by
  intro next hn next' _ line hline hlt
  rw [Option.mem_def.mp hn] at hline
  obtain rfl : (source.resolve next.span).stop.line = line := Option.some.inj hline
  exact absurd hlt (Int.lt_irrefl _)

/-- An arrow and the rest of its list. -/
theorem layoutItems_marker_twins (h : Abreast source source' all) {p : Pair}
    (ht : Twins (.leaf p.1 :: rest) (.leaf p.2 :: rest') (p :: ps)) (hs : (p :: ps).Sublist all)
    (hw : p.1.word = p.2.word) (hm : p.1.kind = .fatArrow) (hk : KeepsOrder columns)
    (hz : columns 0 0) (htold : ∀ c c', columns c c' → told c c')
    (hscope : ScopeTwins (stopLines source source' all) columns scope scope')
    (hready : Ready source source' columns scope (.leaf p.1 :: rest) (.leaf p.2 :: rest'))
    (hnext : ∀ next ∈ rest.head?, ∀ next' ∈ rest'.head?,
      columns (source.resolve next.span).start.column
        (source'.resolve next'.span).start.column)
    (hrest : ∀ left left', ScopeTwins (stopLines source source' all) columns left left' →
      Ready source source' columns left rest rest' →
      TraceTwins source source' told all ps (layoutItems source rules left rest)
        (layoutItems source' rules left' rest')) :
    TraceTwins source source' told all (p :: ps)
      (layoutItems source rules scope (.leaf p.1 :: rest))
      (layoutItems source' rules scope' (.leaf p.2 :: rest')) := by
  have hregion := h.regionPair ht hs
  have hm₁ : (Tree.leaf p.1).marker? = some p.1 := by rw [Tree.marker?, if_pos hm]
  have hm₂ : (Tree.leaf p.2).marker? = some p.2 := by
    rw [Tree.marker?, if_pos ((kind_eq_of_word hw).trans hm)]
  obtain ⟨events, events', reached, reached', ha, ha', hevents, htwins, -⟩ |
      ⟨found, found', ha, ha', hfound⟩ :=
    arrive_twins source source' h.lines hk hz hscope hregion.stopLines
      (hready _ rfl _ rfl)
  · rw [layoutItems_marker source rules ha hm₁, layoutItems_marker source' rules ha' hm₂]
    obtain ⟨hopened, hleft⟩ := openBlock_twins source source' rules htwins hw (following_twins h ht hs hnext)
    exact ((hrest _ _ hleft (ready_openBlock p.1 _)).after hopened).after hevents
  · rw [layoutItems_fault source rules ha, layoutItems_fault source' rules ha']
    exact .inr ⟨_, _, rfl, rfl, .unknownColumn hregion (hfound.imp htold)⟩

theorem layoutTree_leaf_twins (rules : Rules) {p : Pair} (hw : p.1.word = p.2.word) :
    TraceTwins source source' told all [p] (layoutTree source rules (.leaf p.1))
      (layoutTree source' rules (.leaf p.2)) := by
  rw [layoutTree, layoutTree]
  exact .inl ⟨rfl, rfl, .write hw .nil⟩

/-- Groups are laid out alike if their contents are. -/
theorem layoutTree_group_twins {inner inner' : List Tree} {inside : List Pair} (d : Delimiter)
    (o o' c c' : Span)
    (h : TraceTwins source source' told all inside (layoutItems source rules Scope.fresh inner)
      (layoutItems source' rules Scope.fresh inner')) :
    TraceTwins source source' told all
      ((openingToken d o, openingToken d o') ::
        (inside ++ [(closingToken d c, closingToken d c')]))
      (layoutTree source rules (.group d o c inner))
      (layoutTree source' rules (.group d o' c' inner')) := by
  have hopen : Woven source source' [(openingToken d o, openingToken d o')]
      [.write (openingToken d o) (source.resolve o)]
      [.write (openingToken d o') (source'.resolve o')] := .write rfl .nil
  have hclose : Woven source source' [(closingToken d c, closingToken d c')]
      [.write (closingToken d c) (source.resolve c)]
      [.write (closingToken d c') (source'.resolve c')] := .write rfl .nil
  rw [layoutTree, layoutTree]
  exact (h.andThen (.inl ⟨rfl, rfl, hclose⟩)).after hopen

/-- The traces of twins are alike, if in every list of items the significant columns are ordered
alike. -/
theorem layoutItems_twins (h : Abreast source source' all) {items items' : List Tree}
    (ht : Twins items items' ps) (hs : ps.Sublist all) (hk : KeepsOrder columns)
    (hz : columns 0 0) (htold : ∀ c c', columns c c' → told c c')
    (hsig : ∀ p ∈ (significant source items).zip (significant source' items'),
      columns (source.resolve p.1.span).start.column (source'.resolve p.2.span).start.column)
    (hin : ∀ {d d' : Delimiter} {o o' c c' : Span} {inner inner' : List Tree},
      (Tree.group d o c inner, Tree.group d' o' c' inner') ∈ items.zip items' →
      ∀ l l', ListedBeside inner inner' l l' → Comparable source source' told l l')
    (hscope : ScopeTwins (stopLines source source' all) columns scope scope')
    (hready : Ready source source' columns scope items items') :
    TraceTwins source source' told all ps (layoutItems source rules scope items)
      (layoutItems source' rules scope' items') := by
  induction ht generalizing columns scope scope' with
  | nil =>
    rw [layoutItems, layoutItems]
    exact .inl ⟨rfl, rfl, woven_close source source' hscope⟩
  | @leaf p trees trees' ps hw ht ih =>
    have hitem : Twins (.leaf p.1 :: trees) (.leaf p.2 :: trees') ([p] ++ ps) := .leaf hw ht
    obtain ⟨hsig', hnext⟩ := significant_twins h hitem hs hsig
    have hrest (left left' : Scope)
        (hl : ScopeTwins (stopLines source source' all) columns left left')
        (hr : Ready source source' columns left trees trees') :
        TraceTwins source source' told all ps (layoutItems source rules left trees)
          (layoutItems source' rules left' trees') :=
      ih ((List.sublist_cons_self p ps).trans hs) hk hz htold hsig'
        (fun hm => hin (List.mem_cons_of_mem _ hm)) hl hr
    by_cases hm : p.1.kind = .fatArrow
    · have hmarker : (Tree.leaf p.1).marker?.isSome = true := by
        rw [Tree.marker?, if_pos hm]
        rfl
      exact layoutItems_marker_twins h hitem hs hw hm hk hz htold hscope hready
        (fun next hn next' hn' => hnext next hn next' hn' (.inr hmarker)) hrest
    · exact layoutItems_cons_twins h hitem hs hk hz htold hscope hready hnext
        (by rw [Tree.marker?, if_neg hm]) (layoutTree_leaf_twins rules hw)
        (fun _ _ hreached => noteWord_twins rules hreached hw) hrest
  | @group d o o' c c' inner inner' trees trees' inside ps hi ht ihi ih =>
    have hps : (openingToken d o, openingToken d o') ::
        (inside ++ (closingToken d c, closingToken d c') :: ps) =
          ((openingToken d o, openingToken d o') ::
            (inside ++ [(closingToken d c, closingToken d c')])) ++ ps := by simp
    have hitem := Twins.group d o o' c c' hi ht
    rw [hps] at hitem hs ⊢
    obtain ⟨hsig', hnext⟩ := significant_twins h hitem hs hsig
    have hinside : inside.Sublist all := by
      have hfirst := (List.sublist_append_left _ ps).trans hs
      exact ((List.sublist_append_left inside _).trans (List.sublist_cons_self _ _)).trans hfirst
    have hgroup := hin (List.mem_cons_self : _ ∈ _ :: trees.zip trees')
    obtain ⟨columns', hk', hz', htold', hsigi⟩ := hgroup inner inner' .whole
    have hinner := ihi hinside hk' hz' htold' hsigi
      (fun hm l l' hl => hgroup l l' (.of_inside hm hl)) .fresh (by simp [Ready, Scope.fresh])
    exact layoutItems_cons_twins h hitem hs hk hz htold hscope hready hnext rfl
      (layoutTree_group_twins d o o' c c' hinner)
      (fun _ _ hreached => hreached)
      fun left left' hl hr => ih ((List.sublist_append_right _ ps).trans hs) hk hz htold hsig'
        (fun hm => hin (List.mem_cons_of_mem _ hm)) hl hr
  | @repetition dollar operator separator o o' c c' inner inner' trees trees' inside ps hi ht ihi
      ih =>
    have hps : dollar :: (openingToken .paren o, openingToken .paren o') ::
        (inside ++ (closingToken .paren c, closingToken .paren c') ::
          (separator.toList ++ operator :: ps)) =
        (dollar :: (openingToken .paren o, openingToken .paren o') ::
          (inside ++ (closingToken .paren c, closingToken .paren c') ::
            (separator.toList ++ [operator]))) ++ ps := by simp
    have hitem := Twins.repetition dollar operator separator o o' c c' hi ht
    rw [hps] at hitem hs ⊢
    obtain ⟨hsig', hnext⟩ := significant_twins h hitem hs hsig
    refine layoutItems_cons_twins h hitem hs hk hz htold hscope hready hnext rfl ?_
      (fun _ _ hreached => hreached)
      fun left left' hl hr => ih ((List.sublist_append_right _ ps).trans hs) hk hz htold hsig'
        (fun hm => hin (List.mem_cons_of_mem _ hm)) hl hr
    rw [layoutTree, layoutTree]
    exact .inr ⟨_, _, rfl, rfl, .repetition (h.regionPair hitem hs)⟩

/-- Texts that are twins are laid out alike, if in every list of items the significant columns are
ordered alike. -/
theorem layout_twins (rules : Rules) (h : Abreast source source' all) {trees trees' : List Tree}
    (ht : Twins trees trees' all)
    (hc : ∀ l l', ListedBeside trees trees' l l' → Comparable source source' told l l') :
    TraceTwins source source' told all all (source.layout rules trees)
      (source'.layout rules trees') := by
  obtain ⟨columns, hk, hz, htold, hsig⟩ := hc trees trees' .whole
  exact layoutItems_twins h ht (List.Sublist.refl _) hk hz htold hsig
    (fun hm l l' hl => hc l l' (.of_inside hm hl)) .fresh (by simp [Ready, Scope.fresh])

end Items

end Layout

end Offside
