import Mathlib.Data.List.Chain
import Offside.Proofs.Rereading
import Offside.Proofs.Turns

/-!
# The blocks of a text as a tree

What a layout writes is the text with its blocks put in: every block holds whole items, and lies
within the brackets in which its arrow stands.

- `Braced`: a text with its blocks, and the events and the items it is made of.
- `Entries`, `Parted`: how the entries of a block are parted, at every depth.
- `Remainder`: what comes in each of the blocks that are open, and behind them.
- `exists_remainder`: the events of a layout without a fault are those of such a text.
- `Source.convert_parted`: where the separators of a converted text stand.
-/
namespace Offside

set_option autoImplicit false

open Layout

/-! ## Texts with their blocks -/

/-- A token, what stands between two brackets of the source, the block of an arrow, or what parts
two entries of a block. The arrow itself is kept or left out, and the block of an arrow with nothing
behind it has no level. -/
inductive Braced where
  | token (written : Token)
  | group (delimiter : Delimiter) (opening closing : Span) (inner : List Braced)
  | block (arrow : Token) (kept : Bool) (level : Option Level) (dedent : Option (Level × Int))
      (inner : List Braced)
  | separator (level : Level)

namespace Braced

variable (source : Source)

mutual

/-- The events that write a part of a text. -/
def events : Braced → List Event
  | token written => [.write written (source.resolve written.span)]
  | group delimiter opening closing inner =>
    .write (openingToken delimiter opening) (source.resolve opening) ::
      (eventsOf inner ++ [.write (closingToken delimiter closing) (source.resolve closing)])
  | block arrow kept level dedent inner =>
    (if kept then [.write arrow (source.resolve arrow.span)] else []) ++
      .enter level (source.resolve arrow.span).start.line :: (eventsOf inner ++ [.leave dedent])
  | separator level => [.separate level.kind]
termination_by structural braced => braced

def eventsOf : List Braced → List Event
  | [] => []
  | braced :: rest => braced.events ++ eventsOf rest
termination_by structural braces => braces

end

mutual

/-- The items that are left where the blocks are taken out again: the content of a block stands
behind its arrow, and nothing parts its entries. -/
def items : Braced → List Tree
  | token written => [.leaf written]
  | group delimiter opening closing inner => [.group delimiter opening closing (itemsOf inner)]
  | block arrow _ _ _ inner => .leaf arrow :: itemsOf inner
  | separator _ => []
termination_by structural braced => braced

def itemsOf : List Braced → List Tree
  | [] => []
  | braced :: rest => braced.items ++ itemsOf rest
termination_by structural braces => braces

end

def IsSeparator : Braced → Prop
  | separator _ => True
  | _ => False

end Braced

open Braced (eventsOf itemsOf)

/-! ## Entries -/

/-- The rest of what a block holds: separators of its kind only, never two in a row, and none at
the end. -/
structure EntriesLeft (level : Level) (content : List Braced) : Prop where
  uniform : ∀ l, .separator l ∈ content → l.kind = level.kind
  apart : content.IsChain fun a b => ¬ (a.IsSeparator ∧ b.IsSeparator)
  last : ∀ braced ∈ content.getLast?, ¬ braced.IsSeparator

/-- What a block with a level holds: at least one entry, and a separator only between two. -/
structure Entries (level : Level) (content : List Braced) : Prop extends
    EntriesLeft level content where
  first : ∃ braced ∈ content.head?, ¬ braced.IsSeparator

/-- Within brackets that end with the given item, separators stand only in blocks, where they part
entries. A block without entries is that of an arrow with nothing behind it in its brackets. -/
inductive Parted : Option Tree → Braced → Prop
  | token (last : Option Tree) (written : Token) : Parted last (.token written)
  | separator (last : Option Tree) (level : Level) : Parted last (.separator level)
  | group {last : Option Tree} (delimiter : Delimiter) (opening closing : Span)
      {inner : List Braced} (hs : ∀ braced ∈ inner, ¬ braced.IsSeparator)
      (hi : ∀ braced ∈ inner, Parted (itemsOf inner).getLast? braced) :
      Parted last (.group delimiter opening closing inner)
  | block {last : Option Tree} (arrow : Token) (kept : Bool) {level : Level}
      (dedent : Option (Level × Int)) {inner : List Braced} (he : Entries level inner)
      (hi : ∀ braced ∈ inner, Parted last braced) :
      Parted last (.block arrow kept (some level) dedent inner)
  | empty (arrow : Token) (kept : Bool) :
      Parted (some (.leaf arrow)) (.block arrow kept none none [])

namespace EntriesLeft

variable {level : Level} {content : List Braced}

theorem nil (level : Level) : EntriesLeft level [] := ⟨by simp, .nil, by simp⟩

theorem cons (h : EntriesLeft level content) {braced : Braced} (hb : ¬ braced.IsSeparator) :
    EntriesLeft level (braced :: content) := by
  refine ⟨fun l hl => ?_, ?_, fun b hm => ?_⟩
  · rcases List.mem_cons.mp hl with rfl | hl
    · exact absurd True.intro hb
    · exact h.uniform l hl
  · exact h.apart.cons fun b _ hboth => hb hboth.1
  · cases content with
    | nil =>
      obtain rfl : braced = b := by simpa using hm
      exact hb
    | cons next content => exact h.last b (by simpa using hm)

/-- A separator may stand before an entry. -/
theorem cons_separator (h : Entries level content) {l : Level} (hl : l.kind = level.kind) :
    EntriesLeft level (.separator l :: content) := by
  obtain ⟨first, hfirst, hnot⟩ := h.first
  refine ⟨fun k hk => ?_, ?_, fun b hm => ?_⟩
  · rcases List.mem_cons.mp hk with hk | hk
    · cases hk
      exact hl
    · exact h.uniform k hk
  · refine h.apart.cons fun b hb hboth => ?_
    rw [Option.mem_unique hb hfirst] at hboth
    exact hnot hboth.2
  · cases content with
    | nil => simp at hfirst
    | cons next content => exact h.last b (by simpa using hm)

end EntriesLeft

/-! ## What remains in the open blocks -/

/-- What comes in each of the blocks that are open, from the innermost out, and how the block
closes; and what comes behind all of them. -/
structure Remainder where
  layers : List (List Braced × Option (Level × Int))
  outer : List Braced

namespace Remainder

def events (source : Source) (left : Remainder) : List Event :=
  left.layers.flatMap (fun layer => eventsOf source layer.1 ++ [.leave layer.2]) ++
    eventsOf source left.outer

def items (left : Remainder) : List Tree :=
  left.layers.flatMap (fun layer => itemsOf layer.1) ++ itemsOf left.outer

/-- What comes in the innermost block. -/
def current (left : Remainder) : List Braced :=
  match left.layers with
  | [] => left.outer
  | layer :: _ => layer.1

def push (braced : Braced) (left : Remainder) : Remainder :=
  match left.layers with
  | [] => ⟨[], braced :: left.outer⟩
  | layer :: layers => ⟨(braced :: layer.1, layer.2) :: layers, left.outer⟩

theorem current_push (braced : Braced) (left : Remainder) :
    (left.push braced).current = braced :: left.current := by
  unfold push current
  cases left.layers <;> rfl

theorem events_push (source : Source) (braced : Braced) (left : Remainder) :
    (left.push braced).events source = braced.events source ++ left.events source := by
  unfold push events
  cases left.layers <;> simp [eventsOf]

theorem items_push (braced : Braced) (left : Remainder) :
    (left.push braced).items = braced.items ++ left.items := by
  unfold push items
  cases left.layers <;> simp [itemsOf]

/-- What comes in the blocks with the given levels, within brackets that end with the given item,
is parted as it should be. -/
structure Fits (last : Option Tree) (blocks : List Level) (left : Remainder) : Prop where
  entries : List.Forall₂ (fun layer level => EntriesLeft level layer.1) left.layers blocks
  outside : ∀ braced ∈ left.outer, ¬ braced.IsSeparator
  inner : ∀ layer ∈ left.layers, ∀ braced ∈ layer.1, Parted last braced
  outer : ∀ braced ∈ left.outer, Parted last braced

/-- Something comes in the innermost block, and it is no separator. -/
def Headed (left : Remainder) : Prop := ∃ braced ∈ left.current.head?, ¬ braced.IsSeparator

/-- What remains is written by the given events and made of the given items. -/
structure Remains (source : Source) (last : Option Tree) (blocks : List Level)
    (events : List Event) (items : List Tree) (left : Remainder) : Prop where
  events_eq : left.events source = events
  items_eq : left.items = items
  fits : left.Fits last blocks

variable {source : Source} {last : Option Tree} {blocks : List Level} {events : List Event}
  {items : List Tree} {left : Remainder}

theorem Fits.push (h : left.Fits last blocks) {braced : Braced} (hb : ¬ braced.IsSeparator)
    (hp : Parted last braced) : (left.push braced).Fits last blocks := by
  obtain ⟨layers, outer⟩ := left
  obtain ⟨hentries, houtside, hinner, houter⟩ := h
  cases layers with
  | nil =>
    refine ⟨hentries, fun b hm => ?_, by simp [Remainder.push], fun b hm => ?_⟩
    · rcases List.mem_cons.mp hm with rfl | hm
      · exact hb
      · exact houtside b hm
    · rcases List.mem_cons.mp hm with rfl | hm
      · exact hp
      · exact houter b hm
  | cons layer layers =>
    obtain ⟨level, blocks, rfl⟩ : ∃ level outer', blocks = level :: outer' := by
      cases hentries with
      | cons _ _ => exact ⟨_, _, rfl⟩
    obtain ⟨hfirst, hrest⟩ := List.forall₂_cons.mp hentries
    refine ⟨.cons (hfirst.cons hb) hrest, houtside, fun l hl b hm => ?_, houter⟩
    rcases List.mem_cons.mp hl with rfl | hl
    · rcases List.mem_cons.mp hm with rfl | hm
      · exact hp
      · exact hinner layer List.mem_cons_self b hm
    · exact hinner l (List.mem_cons_of_mem layer hl) b hm

theorem Remains.push (h : Remains source last blocks events items left) (braced : Braced)
    (hb : ¬ braced.IsSeparator) (hp : Parted last braced) :
    Remains source last blocks (braced.events source ++ events) (braced.items ++ items)
      (left.push braced) ∧ (left.push braced).Headed := by
  refine ⟨⟨?_, ?_, h.fits.push hb hp⟩, braced, ?_, hb⟩
  · rw [events_push, h.events_eq]
  · rw [items_push, h.items_eq]
  · rw [current_push]
    rfl

/-- What comes in the innermost block is the content of a block that opens before it. -/
theorem Remains.enclose {level : Level}
    (h : Remains source last (level :: blocks) events items left) (hh : left.Headed)
    (arrow : Token) (kept : Bool) :
    ∃ left', Remains source last blocks
      ((if kept then [.write arrow (source.resolve arrow.span)] else []) ++
        .enter (some level) (source.resolve arrow.span).start.line :: events)
      (.leaf arrow :: items) left' ∧ left'.Headed := by
  obtain ⟨layers, outer⟩ := left
  obtain ⟨rfl, rfl, hentries, houtside, hinner, houter⟩ := h
  cases hentries with
  | @cons layer _ layers _ hfirst hrest =>
    have hblock : Parted last (.block arrow kept (some level) layer.2 layer.1) :=
      .block arrow kept layer.2 ⟨hfirst, hh⟩ (hinner layer List.mem_cons_self)
    have hleft : Remains source last blocks _ _ ⟨layers, outer⟩ :=
      ⟨rfl, rfl, hrest, houtside, fun l hl => hinner l (List.mem_cons_of_mem layer hl), houter⟩
    obtain ⟨hpushed, hheaded⟩ := hleft.push _ (by simp [Braced.IsSeparator]) hblock
    refine ⟨_, ⟨hpushed.events_eq.trans ?_, hpushed.items_eq.trans ?_, hpushed.fits⟩, hheaded⟩
    · simp [Remainder.events, Braced.events]
    · simp [Remainder.items, Braced.items]

/-- A separator may come before an entry of the innermost block. -/
theorem Remains.separate {scope : Scope} (h : Remains source last scope.blocks events items left)
    (hh : left.Headed) :
    ∃ left', Remains source last scope.blocks (scope.separation ++ events) items left' ∧
      (scope.separation = [] → left'.Headed) := by
  cases hb : scope.blocks with
  | nil =>
    have hnone : scope.separation = [] := by simp [Scope.separation, hb]
    rw [hnone]
    exact ⟨left, hb ▸ h, fun _ => hh⟩
  | cons level outer =>
    have hone : scope.separation = [.separate level.kind] := by simp [Scope.separation, hb]
    rw [hone]
    obtain ⟨layers, outside⟩ := left
    obtain ⟨rfl, rfl, hentries, houtside, hinner, houter⟩ := h
    rw [hb] at hentries
    cases hentries with
    | @cons layer _ layers _ hfirst hrest =>
      have hlayer : EntriesLeft level (.separator level :: layer.1) :=
        .cons_separator ⟨hfirst, hh⟩ rfl
      refine ⟨_, ⟨events_push source (.separator level) _, items_push (.separator level) _,
        .cons hlayer hrest, houtside, fun l hl b hm => ?_, houter⟩, by simp⟩
      rcases List.mem_cons.mp hl with rfl | hl
      · rcases List.mem_cons.mp hm with rfl | hm
        · exact .separator last level
        · exact hinner layer List.mem_cons_self b hm
      · exact hinner l (List.mem_cons_of_mem layer hl) b hm

/-- Blocks in which nothing more comes may close before. -/
theorem Remains.close (h : Remains source last blocks events items left) (closed : List Level)
    (dedent : Level → Option (Level × Int)) :
    Remains source last (closed ++ blocks)
      (closed.map (fun level => .leave (dedent level)) ++ events) items
      ⟨closed.map (fun level => ([], dedent level)) ++ left.layers, left.outer⟩ := by
  induction closed with
  | nil => exact h
  | cons level closed ih =>
    obtain ⟨hevents, hitems, hentries, houtside, hinner, houter⟩ := ih
    refine ⟨?_, ?_, .cons (.nil level) hentries, houtside, fun l hl b hm => ?_, houter⟩
    · simp only [Remainder.events, List.map_cons, List.cons_append, List.flatMap_cons,
        eventsOf, List.nil_append] at hevents ⊢
      rw [hevents]
    · simpa [Remainder.items, itemsOf] using hitems
    · rcases List.mem_cons.mp hl with rfl | hl
      · simp at hm
      · exact hinner l hl b hm

/-- What comes behind an arrival comes behind what the arrival puts in. -/
theorem Remains.arrive {scope reached : Scope} {region : Region} {arrived : List Event}
    (ha : scope.arrive region = .ok (arrived, reached))
    (h : Remains source last reached.blocks events items left) (hh : left.Headed) :
    ∃ left', Remains source last scope.blocks (arrived ++ events) items left' ∧
      (arrived = [] → left'.Headed) := by
  obtain ⟨-, rfl, rfl⟩ | ⟨_, -, -, rfl, rfl⟩ | ⟨_, -, -, hs⟩ := Scope.arrive_cases ha
  · exact ⟨left, h, fun _ => hh⟩
  · exact ⟨left, h, fun _ => hh⟩
  · obtain ⟨-, rfl, rfl⟩ | ⟨-, -, hreached, harrived⟩ := Scope.startLine_cases hs
    · exact ⟨left, h, fun _ => hh⟩
    · obtain ⟨left', hseparated, hheaded⟩ := h.separate hh
      have hclosed := hseparated.close
        (scope.blocks.takeWhile (·.column ≠ region.start.column))
        fun level => some (level, region.start.line)
      have hsplit : scope.blocks.takeWhile (·.column ≠ region.start.column) ++ reached.blocks =
          scope.blocks := by
        rw [hreached]
        exact List.takeWhile_append_dropWhile
      rw [hsplit, ← List.append_assoc] at hclosed
      rw [harrived]
      refine ⟨_, hclosed, fun hnil => ?_⟩
      obtain ⟨hnone, hsep⟩ := List.append_eq_nil_iff.mp hnil
      rw [List.map_eq_nil_iff.mp hnone]
      exact hheaded hsep

end Remainder

/-! ## A whole layout -/

namespace Layout

open Remainder

variable (source : Source) (rules : Rules)

/-- An arrival that puts nothing in. -/
def Scope.Quiet (scope : Scope) (items : List Tree) : Prop :=
  ∃ tree ∈ items.head?, (scope.arrive (source.resolve tree.span)).map Prod.fst = .ok []

/-- The item behind an arrow has been met with the arrow. -/
theorem quiet_openBlock (reached : Scope) (marker : Token) (region : Region) (next : Tree)
    (rest : List Tree) :
    (reached.openBlock rules marker region (some (source.resolve next.span))).2.Quiet source
      (next :: rest) := by
  refine ⟨next, rfl, ?_⟩
  simp [Scope.openBlock, Scope.arrive, Except.map]

variable {source rules} in
/-- What comes from an item on comes behind its arrival. -/
theorem exists_remains_of_arrive {scope reached : Scope} {tree : Tree} {arrived : List Event}
    (ha : scope.arrive (source.resolve tree.span) = .ok (arrived, reached)) {last : Option Tree}
    {events : List Event} {items : List Tree} {left : Remainder}
    (h : Remains source last reached.blocks events (tree :: items) left ∧ left.Headed) :
    ∃ left', Remains source last scope.blocks (arrived ++ events) (tree :: items) left' ∧
      (scope.Quiet source (tree :: items) → left'.Headed) := by
  obtain ⟨left', hleft, hheaded⟩ := h.1.arrive ha h.2
  refine ⟨left', hleft, fun ⟨first, hfirst, hquiet⟩ => hheaded ?_⟩
  obtain rfl : tree = first := by simpa using hfirst
  simpa [ha, Except.map] using hquiet

theorem getLast?_of_tail {last : Option Tree} {first : Tree} {items : List Tree}
    (h : ∀ tree ∈ (first :: items).getLast?, last = some tree) :
    ∀ tree ∈ items.getLast?, last = some tree := by
  intro tree ht
  cases items with
  | nil => simp at ht
  | cons next items => exact h tree (by simpa using ht)

/-- An arrow writes its block around what comes in it. -/
theorem exists_remains_of_marker {scope : Scope} {token : Token} {last : Option Tree}
    {items : List Tree} (hlast : ∀ tree ∈ (Tree.leaf token :: items).getLast?, last = some tree)
    {events : List Event} {left : Remainder} :
    let opened := scope.openBlock rules token (source.resolve token.span)
      (items.head?.map fun next => source.resolve next.span)
    Remains source last opened.2.blocks events items left →
      (opened.2.Quiet source items → left.Headed) →
      ∃ left', Remains source last scope.blocks (opened.1 ++ events) (.leaf token :: items) left' ∧
        left'.Headed := by
  intro opened hleft hheaded
  cases items with
  | nil =>
    obtain rfl : last = some (.leaf token) := hlast (.leaf token) rfl
    have hpushed := hleft.push (.block token (scope.keepsMarker rules) none none [])
      (by simp [Braced.IsSeparator]) (.empty token (scope.keepsMarker rules))
    refine ⟨_, ⟨hpushed.1.events_eq.trans ?_, hpushed.1.items_eq, hpushed.1.fits⟩, hpushed.2⟩
    simp [opened, Scope.openBlock, Braced.events, eventsOf]
  | cons next rest =>
    have hquiet := quiet_openBlock source rules scope token (source.resolve token.span) next rest
    obtain ⟨left', hremains, hheaded'⟩ :=
      hleft.enclose (hheaded hquiet) token (scope.keepsMarker rules)
    refine ⟨left', ⟨hremains.events_eq.trans ?_, hremains.items_eq, hremains.fits⟩, hheaded'⟩
    simp [opened, Scope.openBlock]

/-- The events of a layout without a fault are those of a text with blocks: what remains in the
blocks that are open, and what comes behind them. -/
theorem exists_remainder {items : List Tree} {tokens : List Token} (h : Spells items tokens)
    {last : Option Tree} (hlast : ∀ tree ∈ items.getLast?, last = some tree) (scope : Scope)
    (hf : (layoutItems source rules scope items).fault = none) :
    ∃ left, Remains source last scope.blocks (layoutItems source rules scope items).events items
        left ∧ (scope.Quiet source items → left.Headed) := by
  induction h generalizing last scope with
  | nil =>
    have hnil : Remains source last [] [] [] ⟨[], []⟩ :=
      ⟨rfl, rfl, .nil, by simp, by simp, by simp⟩
    have hclosed := hnil.close scope.blocks fun _ => none
    rw [List.append_nil, List.append_nil] at hclosed
    rw [layoutItems]
    refine ⟨_, hclosed, ?_⟩
    rintro ⟨first, hhead, -⟩
    simp at hhead
  | @leaf token trees tokens hl h ih =>
    obtain ⟨arrived, reached, ha⟩ := exists_arrive_of_fault_eq_none source rules hf
    by_cases hk : token.kind = .fatArrow
    · have hm : (Tree.leaf token).marker? = some token := by simp [Tree.marker?, hk]
      rw [layoutItems_marker source rules ha hm] at hf ⊢
      obtain ⟨left, hleft, hheaded⟩ := ih (getLast?_of_tail hlast) _ hf
      obtain ⟨left', hmarked⟩ := exists_remains_of_marker source rules hlast hleft hheaded
      exact exists_remains_of_arrive ha hmarked
    · have hm : (Tree.leaf token).marker? = none := by simp [Tree.marker?, hk]
      rw [layoutItems_item source rules ha hm] at hf ⊢
      obtain ⟨hft, hf'⟩ := Trace.andThen_fault_eq_none.mp hf
      obtain ⟨left, hleft, -⟩ := ih (getLast?_of_tail hlast) _ hf'
      rw [blocks_note] at hleft
      rw [Trace.after_events, Trace.andThen_events hft, layoutTree]
      exact exists_remains_of_arrive ha
        (hleft.push (.token token) (by simp [Braced.IsSeparator]) (.token last token))
  | @group d o c inner trees inside tokens hi h ihi ih =>
    obtain ⟨arrived, reached, ha⟩ := exists_arrive_of_fault_eq_none source rules hf
    rw [layoutItems_item source rules ha rfl] at hf ⊢
    obtain ⟨hft, hf'⟩ := Trace.andThen_fault_eq_none.mp hf
    obtain ⟨left, hleft, -⟩ := ih (getLast?_of_tail hlast) _ hf'
    rw [blocks_note] at hleft
    rw [Trace.after_events, Trace.andThen_events hft]
    rw [layoutTree] at hft ⊢
    have hfi := (Trace.andThen_fault_eq_none.mp hft).1
    obtain ⟨⟨layers, content⟩, hcontent, -⟩ := ihi (fun _ h => h) Scope.fresh hfi
    obtain rfl : layers = [] := List.forall₂_nil_right_iff.mp hcontent.fits.entries
    have hevents : eventsOf source content = _ := hcontent.events_eq
    have hitems : itemsOf content = inner := hcontent.items_eq
    have hgroup : Parted last (.group d o c content) :=
      .group d o c hcontent.fits.outside (hitems ▸ hcontent.fits.outer)
    have hpushed := hleft.push _ (by simp [Braced.IsSeparator]) hgroup
    simp only [Braced.events, Braced.items, hevents, hitems] at hpushed
    rw [Trace.after_events, Trace.andThen_events hfi]
    exact exists_remains_of_arrive ha hpushed
  | repetition => exact absurd hf (fault_layoutItems_repetition source rules)

/-- The events of a layout without a fault are those of a text with its blocks, and its items are
what is left where the blocks are taken out. -/
theorem exists_braces {items : List Tree} {tokens : List Token} (h : Spells items tokens)
    (hf : (layoutItems source rules Scope.fresh items).fault = none) :
    ∃ braces, (layoutItems source rules Scope.fresh items).events = eventsOf source braces ∧
      itemsOf braces = items ∧ (∀ braced ∈ braces, ¬ braced.IsSeparator) ∧
      ∀ braced ∈ braces, Parted items.getLast? braced := by
  obtain ⟨⟨layers, outer⟩, ⟨hevents, hitems, hfits⟩, -⟩ :=
    exists_remainder source rules h (fun _ hm => hm) Scope.fresh hf
  obtain rfl : layers = [] := List.forall₂_nil_right_iff.mp hfits.entries
  exact ⟨outer, hevents.symm, hitems, hfits.outside, hfits.outer⟩

end Layout

/-- What is put into a converted text are blocks and separators, and the separators stand directly
inside the blocks. Those of one block are the same, and each stands between two entries. -/
theorem Source.convert_parted (source : Source) (rules : Rules) {out : List Char}
    (h : (source.convert rules).result = .ok out) :
    ∃ trees braces, source.trees = .ok trees ∧ itemsOf braces = trees ∧
      (source.layout rules trees).events = eventsOf source braces ∧
      out = (Emitter.fresh rules.preserveBlankLines).output (eventsOf source braces) ∧
      (∀ braced ∈ braces, ¬ braced.IsSeparator) ∧
      ∀ braced ∈ braces, Parted trees.getLast? braced := by
  obtain ⟨trees, ht, hf, rfl⟩ := (source.convert_eq_ok_iff rules out).mp h
  obtain ⟨braces, hevents, hitems, hplain, hparted⟩ :=
    exists_braces source rules (source.spells_trees ht).2 hf
  have hlayout : (source.layout rules trees).events = eventsOf source braces := hevents
  exact ⟨trees, braces, ht, hitems, hlayout, by rw [hlayout], hplain, hparted⟩

def bracedText : Source := Source.ofText "braced"
  "a =>\n    match b =>\n        1 => (c =>)\n        2 => 3\n    d =>\n".toList

theorem bracedText_parted :
    let rules : Rules := ⟨["match".toList], [], .selector, false⟩
    let out :=
      ("a \x7b\n    match b \x7b\n        1 => \x7b (c \x7b \x7d   ) \x7d,\n" ++
        "        2 => \x7b 3 \x7d \x7d;\n    d \x7b \x7d \x7d\n").toList
    (bracedText.convert rules).result = .ok out ∧
      ∃ trees braces, bracedText.trees = .ok trees ∧ itemsOf braces = trees ∧
        (bracedText.layout rules trees).events = eventsOf bracedText braces ∧
        out = (Emitter.fresh false).output (eventsOf bracedText braces) ∧
        (∀ braced ∈ braces, ¬ braced.IsSeparator) ∧
        ∀ braced ∈ braces, Parted trees.getLast? braced := by
  intro rules out
  have h : (bracedText.convert rules).result = .ok out := by decide +kernel
  exact ⟨h, bracedText.convert_parted rules h⟩

end Offside
