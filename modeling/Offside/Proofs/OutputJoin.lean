import Offside.Proofs.Rereading

/-!
# Outputs of joined texts

What is put out behind a text that has been written. If the next token starts a line at the first
column, it is the line end that closes the text alone, and then what is put out from the start.

- `Emitter.Rests`: an emitter behind a text that ended above a line.
- `Emitter.output_anew`: behind it a text at the first column is put out as from the start.
- `rests_of_weaves`: behind tokens of which the last is no arrow an emitter rests.
- `head?_layoutItems`: a layout starts with the first token of its items.
-/
namespace Offside

set_option autoImplicit false

open Layout

/-! ## Emitters at rest -/

namespace Emitter

variable {n : Int} {emitter : Emitter} {events : List Event}

theorem output_append (emitter : Emitter) (l r : List Event) :
    emitter.output (l ++ r) = (emitter.run l).1 ++ (emitter.run l).2.output r := by
  simp [output, run_append]

/-- An emitter that has put out nothing, or whose last token ended above a line. -/
def Rests (n : Int) (emitter : Emitter) : Prop :=
  emitter = fresh false ∨
    emitter.preserveBlankLines = false ∧ emitter.dirty = true ∧ ∃ p ∈ emitter.cursor, p.line < n

/-- Before a token at the first column of a later line stands what would have ended the output. -/
theorem Rests.gap_eq (h : emitter.Rests n) {start : Position} (hc : start.column = 0)
    (hn : n ≤ start.line) : emitter.gap start = emitter.finish := by
  obtain rfl | ⟨hkeeps, hdirty, p, hp, hline⟩ := h
  · simp [gap, fresh, finish, hc, spaces]
  · have hlt : p.line < start.line := by omega
    rw [gap, Option.mem_def.mp hp, finish, hdirty]
    simp only [if_pos hlt, hkeeps, hc]
    rfl

/-- An emitter at rest puts events that start a line out as from the start, behind a line end. -/
theorem output_anew (h : emitter.Rests n)
    (hw : ∀ event ∈ events.head?, ∃ token region, event = .write token region ∧
      region.start.column = 0 ∧ n ≤ region.start.line) :
    emitter.output events = emitter.finish ++ (fresh false).output events := by
  cases events with
  | nil =>
    rw [output, output, run, run]
    exact (List.append_nil _).symm
  | cons event events =>
    obtain ⟨token, region, rfl, hc, hn⟩ := hw event rfl
    have hkeeps : emitter.preserveBlankLines = false := by
      obtain rfl | ⟨hkeeps, -⟩ := h
      · rfl
      · exact hkeeps
    have hfresh : (fresh false).gap region.start = [] := by simp [gap, fresh, hc, spaces]
    rw [output_write, output_write, h.gap_eq hc hn, hfresh, hkeeps]
    rfl

theorem run_keeps (emitter : Emitter) (events : List Event) :
    (emitter.run events).2.preserveBlankLines = emitter.preserveBlankLines ∧
      (emitter.run events).2.dirty = (emitter.dirty || !events.isEmpty) := by
  induction events generalizing emitter with
  | nil => simp [run]
  | cons event events ih =>
    obtain ⟨hkeeps, hdirty⟩ := ih (emitter.step event).2
    rw [run]
    simp only [hkeeps, hdirty]
    cases event <;> simp [step, write, punct]

end Emitter

/-! ## Emitters behind tokens -/

section Tokens

variable {source : Source} {policy : MarkerPolicy} {tokens : List Token} {events : List Event}

theorem getLast?_tail {token t : Token} (h : t ∈ tokens.getLast?) :
    t ∈ (token :: tokens).getLast? := by
  rw [List.getLast?_cons, Option.mem_def.mp h]
  rfl

/-- Behind tokens of which the last is no arrow the cursor stands where the last one ended. An arrow
among them may be left out, but another token follows it. -/
theorem cursor_of_weaves (h : Weaves source policy tokens events)
    (hlast : ∀ token ∈ tokens.getLast?, token.kind ≠ .fatArrow) (emitter : Emitter) :
    (emitter.run events).2.cursor =
      (tokens.getLast?.map fun token => (source.resolve token.span).stop).or emitter.cursor := by
  have hmore {token : Token} {tokens : List Token} (hk : token.kind = .fatArrow)
      (hlast : ∀ t ∈ (token :: tokens).getLast?, t.kind ≠ .fatArrow) :
      ∃ last, (token :: tokens).getLast? = some last ∧ tokens.getLast? = some last := by
    cases hl : tokens.getLast? with
    | some last => exact ⟨last, getLast?_tail hl, rfl⟩
    | none =>
      rw [List.getLast?_eq_none_iff] at hl
      exact absurd hk (hlast token (by simp [hl]))
  induction h generalizing emitter with
  | nil => rfl
  | @pause event tokens events hp _ ih =>
    rw [Emitter.run]
    simp only [ih hlast]
    cases event with
    | write token region => exact hp.elim
    | _ => rfl
  | @write token tokens events hk _ ih =>
    rw [Emitter.run]
    simp only [ih fun t ht => hlast t (getLast?_tail ht)]
    rw [List.getLast?_cons]
    cases tokens.getLast? <;> rfl
  | @enter token tokens events level line hk _ ih =>
    obtain ⟨last, hl, hl'⟩ := hmore hk hlast
    simp only [Emitter.run, ih fun t ht => hlast t (getLast?_tail ht), hl, hl']
    rfl
  | @enterOnly token tokens events level line hk _ _ ih =>
    obtain ⟨last, hl, hl'⟩ := hmore hk hlast
    rw [Emitter.run]
    simp only [ih fun t ht => hlast t (getLast?_tail ht), hl, hl']
    rfl

/-- Behind tokens of which the last is no arrow an emitter rests. -/
theorem rests_of_weaves (h : Weaves source policy tokens events)
    (hlast : ∀ token ∈ tokens.getLast?, token.kind ≠ .fatArrow) {n : Int}
    (hline : ∀ token ∈ tokens, (source.resolve token.span).stop.line < n)
    (hnil : tokens = [] → events = []) : ((Emitter.fresh false).run events).2.Rests n := by
  cases hl : tokens.getLast? with
  | none =>
    rw [hnil (List.getLast?_eq_none_iff.mp hl)]
    exact .inl rfl
  | some last =>
    obtain ⟨hkeeps, hdirty⟩ := (Emitter.fresh false).run_keeps events
    have hcursor := cursor_of_weaves h hlast (Emitter.fresh false)
    have hne : events ≠ [] := by
      rintro rfl
      cases h
      simp at hl
    refine .inr ⟨hkeeps, ?_, _, ?_, hline last (List.mem_of_getLast? hl)⟩
    · simp [hdirty, hne]
    · rw [hcursor, hl]
      rfl

end Tokens

/-! ## The first token of a layout -/

section FirstToken

variable {source : Source} {rules : Rules} {items : List Tree} {tokens : List Token}

/-- A layout starts with the first token of its items, if that is no arrow. -/
theorem head?_layoutItems (h : Spells items tokens)
    (hk : ∀ token ∈ tokens.head?, token.kind ≠ .fatArrow)
    (hf : (layoutItems source rules Scope.fresh items).fault = none) :
    (layoutItems source rules Scope.fresh items).events.head? =
      tokens.head?.map fun token => .write token (source.resolve token.span) := by
  have harrive (tree : Tree) : Scope.fresh.arrive (source.resolve tree.span) =
      .ok ([], { Scope.fresh with lastLine := some (source.resolve tree.span).stop.line }) := rfl
  cases h with
  | nil => rfl
  | @leaf token trees tokens hl h =>
    have hm : (Tree.leaf token).marker? = none := by simp [Tree.marker?, hk token rfl]
    rw [layoutItems_item source rules (harrive _) hm, layoutTree]
    rfl
  | @group d o c inner trees inside tokens hi h =>
    rw [layoutItems_item source rules (harrive _) rfl] at hf ⊢
    obtain ⟨htree, -⟩ := Trace.andThen_fault_eq_none.mp hf
    rw [Trace.after_events, Trace.andThen_events htree, layoutTree]
    rfl
  | repetition => exact absurd hf (fault_layoutItems_repetition source rules)

end FirstToken

end Offside
