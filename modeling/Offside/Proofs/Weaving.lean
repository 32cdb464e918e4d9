import Mathlib.Control.Monad.Basic
import Offside.Proofs.TreeSpelling

/-!
# Tokens woven into the events of a layout

A layout without a fault writes every token of its items in order and puts punctuation between
them. Only an arrow may be left out, and only under the policy that says so.

- `Event.words`: what is to be read where an event is written.
- `Weaves`: events that write given tokens in order with punctuation between them.
- `weaves_of_layoutItems`: the events of a layout without a fault weave the tokens of its items.
-/
namespace Offside

set_option autoImplicit false

open Layout

def Token.word (token : Token) : TokenKind × List Char := (token.kind, token.text)

namespace Layout

/-- What is to be read where an event is written: the token itself, or the punctuation put in. -/
def Event.words : Event → List (TokenKind × List Char)
  | .write token _ => [token.word]
  | .enter _ _ => [(.openDelimiter, ['\x7b'])]
  | .leave _ => [(.closeDelimiter, ['\x7d'])]
  | .separate kind => kind.separator.map fun c => (.operator, [c])

/-- The token that an event writes, if it writes one. -/
def Event.token? : Event → Option Token
  | .write token _ => some token
  | _ => none

/-- A block closes or an entry of a block ends. Nothing separates the items outside blocks. -/
def Event.IsPause : Event → Prop
  | .leave _ => True
  | .separate kind => kind ≠ .topLevel
  | _ => False

end Layout

/-- Events that write tokens of a source in order, each at its place. Between them only blocks
close and entries end, and a block opens behind every arrow and nowhere else. The arrow itself is
written, or it is left out under the policy that keeps only some. -/
inductive Weaves (source : Source) (policy : MarkerPolicy) : List Token → List Event → Prop
  | nil : Weaves source policy [] []
  | pause {event : Event} {tokens : List Token} {events : List Event} (hp : event.IsPause)
      (h : Weaves source policy tokens events) : Weaves source policy tokens (event :: events)
  | write {token : Token} {tokens : List Token} {events : List Event}
      (hk : token.kind ≠ .fatArrow) (h : Weaves source policy tokens events) :
      Weaves source policy (token :: tokens)
        (.write token (source.resolve token.span) :: events)
  | enter {token : Token} {tokens : List Token} {events : List Event} (level : Option Level)
      (line : Int) (hk : token.kind = .fatArrow) (h : Weaves source policy tokens events) :
      Weaves source policy (token :: tokens)
        (.write token (source.resolve token.span) :: .enter level line :: events)
  | enterOnly {token : Token} {tokens : List Token} {events : List Event} (level : Option Level)
      (line : Int) (hk : token.kind = .fatArrow) (hp : policy = .selector)
      (h : Weaves source policy tokens events) :
      Weaves source policy (token :: tokens) (.enter level line :: events)

namespace Weaves

variable {source : Source} {policy : MarkerPolicy}

theorem append {ts us : List Token} {es fs : List Event} (h : Weaves source policy ts es)
    (h' : Weaves source policy us fs) : Weaves source policy (ts ++ us) (es ++ fs) := by
  induction h with
  | nil => exact h'
  | pause hp _ ih => exact .pause hp ih
  | write hk _ ih => exact .write hk ih
  | enter level line hk _ ih => exact .enter level line hk ih
  | enterOnly level line hk hp _ ih => exact .enterOnly level line hk hp ih

theorem of_pauses {events : List Event} (h : ∀ event ∈ events, event.IsPause) :
    Weaves source policy [] events := by
  induction events with
  | nil => exact .nil
  | cons event events ih =>
    exact .pause (h event List.mem_cons_self)
      (ih fun e he => h e (List.mem_cons_of_mem event he))

end Weaves

/-! ## Steps of a layout -/

namespace Layout

namespace Trace

@[simp] theorem after_events (events : List Event) (trace : Trace) :
    (trace.after events).events = events ++ trace.events := rfl

@[simp] theorem after_fault (events : List Event) (trace : Trace) :
    (trace.after events).fault = trace.fault := rfl

theorem andThen_fault_eq_none {first second : Trace} :
    (first.andThen second).fault = none ↔ first.fault = none ∧ second.fault = none := by
  unfold andThen
  cases h : first.fault <;> simp [h]

theorem andThen_events {first second : Trace} (h : first.fault = none) :
    (first.andThen second).events = first.events ++ second.events := by
  simp [andThen, h]

theorem mem_andThen {first second : Trace} {event : Event}
    (h : event ∈ (first.andThen second).events) :
    event ∈ first.events ∨ event ∈ second.events := by
  unfold andThen at h
  cases hf : first.fault with
  | some fault => exact .inl (by simpa [hf] using h)
  | none => simpa [hf] using h

end Trace

namespace Scope

/-- What the start of a line does: right of the innermost block nothing, else it closes the blocks
right of it and separates two entries of the one that is left. -/
theorem startLine_cases {scope reached : Scope} {region : Region} {events : List Event}
    (h : scope.startLine region = .ok (events, reached)) :
    (scope.column < region.start.column ∧ events = [] ∧ reached = scope) ∨
      (region.start.column ≤ scope.column ∧
        (region.start.column < scope.column → region.start.column ∈ scope.columns) ∧
        reached = ⟨scope.blocks.dropWhile (·.column ≠ region.start.column), none,
          scope.lastLine⟩ ∧
        events = (scope.blocks.takeWhile (·.column ≠ region.start.column)).map
          (fun level => .leave (some (level, region.start.line))) ++ reached.separation) := by
  unfold startLine at h
  simp only at h
  split at h
  · rename_i hright
    simp only [Except.ok.injEq, Prod.mk.injEq] at h
    exact .inl ⟨hright, h.1.symm, h.2.symm⟩
  · rename_i hleft
    split at h
    · simp at h
    · rename_i hknown
      simp only [Except.ok.injEq, Prod.mk.injEq] at h
      obtain ⟨hevents, hreached⟩ := h
      refine .inr ⟨by omega, fun hlt => ?_, hreached.symm, ?_⟩
      · by_cases hin : region.start.column ∈ scope.columns
        · exact hin
        · exact absurd ⟨hlt, hin⟩ hknown
      · rw [← hevents, hreached]

/-- What the arrival of an item does: it starts a line only if it ends below the last line met. -/
theorem arrive_cases {scope reached : Scope} {region : Region} {events : List Event}
    (h : scope.arrive region = .ok (events, reached)) :
    (scope.lastLine = none ∧ events = [] ∧
        reached = { scope with lastLine := some region.stop.line }) ∨
      (∃ line, scope.lastLine = some line ∧ region.stop.line ≤ line ∧ events = [] ∧
        reached = scope) ∨
      ∃ line, scope.lastLine = some line ∧ line < region.stop.line ∧
        startLine { scope with lastLine := some region.stop.line } region =
          .ok (events, reached) := by
  unfold arrive at h
  cases hl : scope.lastLine with
  | none =>
    simp only [hl, Except.ok.injEq, Prod.mk.injEq] at h
    exact .inl ⟨rfl, h.1.symm, h.2.symm⟩
  | some line =>
    simp only [hl] at h
    split at h
    · rename_i hlt
      exact .inr (.inr ⟨line, rfl, hlt, h⟩)
    · rename_i hge
      simp only [Except.ok.injEq, Prod.mk.injEq] at h
      exact .inr (.inl ⟨line, rfl, by omega, h.1.symm, h.2.symm⟩)

theorem isPause_of_mem_separation {scope : Scope} {event : Event} (h : event ∈ scope.separation) :
    event.IsPause := by
  unfold separation at h
  split at h
  · simp at h
  · rename_i level outer _
    obtain rfl : event = .separate level.kind := by simpa using h
    unfold Level.kind
    cases level.keyword <;> simp [Event.IsPause]

theorem isPause_of_arrive {scope reached : Scope} {region : Region} {events : List Event}
    (h : scope.arrive region = .ok (events, reached)) : ∀ event ∈ events, event.IsPause := by
  obtain ⟨-, rfl, -⟩ | ⟨_, -, -, rfl, -⟩ | ⟨_, -, -, hs⟩ := arrive_cases h
  · simp
  · simp
  · obtain ⟨-, rfl, -⟩ | ⟨-, -, -, rfl⟩ := startLine_cases hs
    · simp
    · intro event he
      rcases List.mem_append.mp he with he | he
      · obtain ⟨level, -, rfl⟩ := List.mem_map.mp he
        exact True.intro
      · exact isPause_of_mem_separation he

theorem isPause_of_mem_close {scope : Scope} {event : Event} (h : event ∈ scope.close) :
    event.IsPause := by
  obtain ⟨level, -, rfl⟩ := List.mem_map.mp h
  exact True.intro

theorem weaves_openBlock {source : Source} {rules : Rules} (scope : Scope) {marker : Token}
    (hk : marker.kind = .fatArrow) (following : Option Region) :
    Weaves source rules.marker [marker]
      (scope.openBlock rules marker (source.resolve marker.span) following).1 := by
  have hone (level : Option Level) (line : Int) {events : List Event}
      (h : Weaves source rules.marker [] events) : Weaves source rules.marker [marker]
        ((if scope.keepsMarker rules then [.write marker (source.resolve marker.span)] else []) ++
          .enter level line :: events) := by
    cases hkeep : scope.keepsMarker rules with
    | true => exact .enter level line hk h
    | false =>
      have hp : rules.marker = .selector := by
        cases hm : rules.marker with
        | always => simp [keepsMarker, hm] at hkeep
        | selector => rfl
      exact .enterOnly level line hk hp h
  unfold openBlock
  cases following with
  | none => exact hone none _ (.pause True.intro .nil)
  | some next => exact hone _ _ .nil

end Scope

/-! ## A whole layout -/

variable (source : Source) (rules : Rules)

theorem layoutItems_marker {scope reached : Scope} {tree : Tree} {rest : List Tree}
    {events : List Event} {marker : Token}
    (ha : scope.arrive (source.resolve tree.span) = .ok (events, reached))
    (hm : tree.marker? = some marker) :
    layoutItems source rules scope (tree :: rest) =
      let opened := reached.openBlock rules marker (source.resolve tree.span)
        (rest.head?.map fun next => source.resolve next.span)
      ((layoutItems source rules opened.2 rest).after opened.1).after events := by
  simp only [layoutItems, ha, hm]

theorem layoutItems_item {scope reached : Scope} {tree : Tree} {rest : List Tree}
    {events : List Event}
    (ha : scope.arrive (source.resolve tree.span) = .ok (events, reached))
    (hm : tree.marker? = none) :
    layoutItems source rules scope (tree :: rest) =
      ((layoutTree source rules tree).andThen
        (layoutItems source rules (tree.note rules reached) rest)).after events := by
  simp only [layoutItems, ha, hm]

theorem layoutItems_fault {scope : Scope} {tree : Tree} {rest : List Tree} {fault : Fault}
    (ha : scope.arrive (source.resolve tree.span) = .error fault) :
    layoutItems source rules scope (tree :: rest) = ⟨[], some fault⟩ := by
  simp only [layoutItems, ha]

theorem exists_arrive_of_fault_eq_none {scope : Scope} {tree : Tree} {rest : List Tree}
    (h : (layoutItems source rules scope (tree :: rest)).fault = none) :
    ∃ events reached, scope.arrive (source.resolve tree.span) = .ok (events, reached) := by
  cases ha : scope.arrive (source.resolve tree.span) with
  | error fault =>
    rw [layoutItems_fault source rules ha] at h
    simp at h
  | ok found => exact ⟨found.1, found.2, rfl⟩

/-- A repetition stops the layout. -/
theorem fault_layoutItems_repetition {scope : Scope} {dollar closing : Span}
    {inner rest : List Tree} {separator : Option Token} {operator : Token} :
    (layoutItems source rules scope
      (.repetition dollar closing inner separator operator :: rest)).fault ≠ none := by
  intro hf
  obtain ⟨events, reached, ha⟩ := exists_arrive_of_fault_eq_none source rules hf
  rw [layoutItems_item source rules ha rfl] at hf
  have htree := (Trace.andThen_fault_eq_none.mp hf).1
  rw [layoutTree] at htree
  cases htree

/-- The events of a layout without a fault weave the tokens of its items. -/
theorem weaves_of_layoutItems {items : List Tree} {tokens : List Token} (h : Spells items tokens)
    (scope : Scope) (hf : (layoutItems source rules scope items).fault = none) :
    Weaves source rules.marker tokens (layoutItems source rules scope items).events := by
  induction h generalizing scope with
  | nil =>
    rw [layoutItems]
    exact .of_pauses fun _ he => Scope.isPause_of_mem_close he
  | @leaf token trees tokens hl h ih =>
    obtain ⟨events, reached, ha⟩ := exists_arrive_of_fault_eq_none source rules hf
    have hpause : Weaves source rules.marker [] events := .of_pauses (Scope.isPause_of_arrive ha)
    by_cases hk : token.kind = .fatArrow
    · have hm : (Tree.leaf token).marker? = some token := by simp [Tree.marker?, hk]
      rw [layoutItems_marker source rules ha hm] at hf ⊢
      exact hpause.append ((Scope.weaves_openBlock reached hk _).append (ih _ hf))
    · have hm : (Tree.leaf token).marker? = none := by simp [Tree.marker?, hk]
      rw [layoutItems_item source rules ha hm] at hf ⊢
      have hf' := (Trace.andThen_fault_eq_none.mp hf).2
      rw [Trace.after_events, Trace.andThen_events (by rw [layoutTree])]
      refine hpause.append ?_
      rw [layoutTree]
      exact .write hk (ih _ hf')
  | @group d o c inner trees inside tokens hi h ihi ih =>
    obtain ⟨events, reached, ha⟩ := exists_arrive_of_fault_eq_none source rules hf
    have hpause : Weaves source rules.marker [] events := .of_pauses (Scope.isPause_of_arrive ha)
    rw [layoutItems_item source rules ha rfl] at hf ⊢
    obtain ⟨hft, hf'⟩ := Trace.andThen_fault_eq_none.mp hf
    rw [Trace.after_events, Trace.andThen_events hft]
    refine hpause.append ?_
    rw [layoutTree] at hft ⊢
    have hfi := (Trace.andThen_fault_eq_none.mp hft).1
    rw [Trace.after_events, Trace.andThen_events hfi]
    have ho : (openingToken d o).kind ≠ .fatArrow := by simp [openingToken]
    have hc : (closingToken d c).kind ≠ .fatArrow := by simp [closingToken]
    have hall := Weaves.write ho ((ihi Scope.fresh hfi).append (.write hc (ih _ hf')))
    simpa [openingToken, closingToken] using hall
  | repetition => exact absurd hf (fault_layoutItems_repetition source rules)

end Layout

end Offside
