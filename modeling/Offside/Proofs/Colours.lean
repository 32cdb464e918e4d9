import Offside.Proofs.Printing
import Offside.Proofs.Rendering

/-!
# What colours add

A diagnostic that is shown with colours is the one without them and control sequences in between,
and what a renderer remembers does not hang on the colours.

- `Text.Painted`: a text with control sequences, over the text that it shows.
- `Text.Painted.stripped`: the shown text is what is left without the sequences.
- `Renderer.Call`, `Renderer.after`: what is asked of a renderer, and one that was asked it.
- `Renderer.EscapeFree`: no text that a diagnostic shows holds an escape.
- `Renderer.render_stripped`: the two renderings of a diagnostic after the same calls.
-/
namespace Offside

set_option autoImplicit false

open Text

/-! ## Painted texts -/

namespace Text

/-- A text with control sequences, each of parameters and the letter that sets a style, over the
text that it shows. No character of that one is an escape. -/
inductive Painted : List Char → List Char → Prop where
  | nil : Painted [] []
  | char {c : Char} (hc : c ≠ escape) {coloured plain : List Char} (h : Painted coloured plain) :
      Painted (c :: coloured) (c :: plain)
  | sequence {parameters : List Char} (hp : ∀ c ∈ parameters, isParameter c = true)
      {coloured plain : List Char} (h : Painted coloured plain) :
      Painted (controlSequence parameters ++ coloured) plain

theorem Painted.of_notMem {cs : List Char} (h : escape ∉ cs) : Painted cs cs := by
  induction cs with
  | nil => exact .nil
  | cons c cs ih =>
    rw [List.mem_cons, not_or] at h
    exact .char (Ne.symm h.1) (ih h.2)

theorem Painted.append {coloured plain more shown : List Char} (h : Painted coloured plain)
    (hm : Painted more shown) : Painted (coloured ++ more) (plain ++ shown) := by
  induction h with
  | nil => exact hm
  | char hc _ ih => exact .char hc ih
  | sequence hp _ ih =>
    rw [List.append_assoc]
    exact .sequence hp ih

theorem Style.isParameter_of_mem (style : Style) :
    ∀ c ∈ style.parameters, isParameter c = true := by
  have hall : style.parameters.all isParameter = true := by
    cases style <;> decide
  exact List.all_eq_true.mp hall

theorem Painted.styled {coloured plain : List Char} (style : Style) (h : Painted coloured plain) :
    Painted (Text.styled style coloured) plain := by
  have hreset : Painted (controlSequence ['0'] ++ []) [] :=
    .sequence (List.forall_mem_singleton.mpr (by decide)) .nil
  rw [List.append_nil] at hreset
  have hbehind := h.append hreset
  rw [List.append_nil] at hbehind
  rw [Text.styled, List.append_assoc]
  exact .sequence style.isParameter_of_mem hbehind

/-- Rows with control sequences are a text with control sequences. -/
theorem Painted.intercalate {separator : List Char} (hs : escape ∉ separator)
    {rows shown : List (List Char)} (h : List.Forall₂ Painted rows shown) :
    Painted (separator.intercalate rows) (separator.intercalate shown) := by
  induction h with
  | nil => exact .nil
  | @cons row plain rows shown hrow hrows ih =>
    cases hrows with
    | nil => simpa using hrow
    | cons hnext hmore =>
      rw [List.intercalate_cons_cons, List.intercalate_cons_cons]
      exact (hrow.append (.of_notMem hs)).append ih

/-! ## Removing the sequences -/

theorem strippedAfter_eq_drop (skip : Nat) (cs : List Char) :
    strippedAfter skip cs = strippedAfter 0 (cs.drop skip) := by
  induction cs generalizing skip with
  | nil => rw [List.drop_nil, strippedAfter, strippedAfter]
  | cons c cs ih =>
    cases skip with
    | zero => rw [List.drop_zero]
    | succ skip => rw [strippedAfter, List.drop_succ_cons, ih]

/-- A control sequence in front is as long as it is written. -/
theorem sequenceLength_body {parameters : List Char}
    (hp : ∀ c ∈ parameters, isParameter c = true) (rest : List Char) :
    sequenceLength ('[' :: (parameters ++ 'm' :: rest)) = parameters.length + 2 := by
  have hparameters : (parameters ++ 'm' :: rest).takeWhile isParameter = parameters :=
    takeWhile_append_cons hp (by decide)
  have hintermediates : ('m' :: rest).takeWhile isIntermediate = [] :=
    List.takeWhile_cons_of_neg (by decide)
  rw [sequenceLength, hparameters, List.drop_left, hintermediates, List.length_nil, Nat.add_zero,
    List.getElem?_append_right (Nat.le_refl _), Nat.sub_self, if_pos]
  have hletter : isFinal 'm' = true := by decide
  exact ⟨rfl, hletter⟩

theorem stripped_controlSequence_append {parameters : List Char}
    (hp : ∀ c ∈ parameters, isParameter c = true) (rest : List Char) :
    stripped (controlSequence parameters ++ rest) = stripped rest := by
  have hfront : controlSequence parameters ++ rest =
      escape :: '[' :: (parameters ++ 'm' :: rest) := by
    simp [controlSequence]
  have hdrop : ('[' :: (parameters ++ 'm' :: rest)).drop (parameters.length + 2) = rest := by
    rw [List.drop_succ_cons, List.drop_append, List.drop_eq_nil_of_le (by omega),
      Nat.add_sub_cancel_left]
    rfl
  unfold stripped
  rw [hfront, strippedAfter, sequenceLength_body hp, if_pos ⟨rfl, by omega⟩,
    strippedAfter_eq_drop, hdrop]

theorem stripped_cons {c : Char} (hc : c ≠ escape) (cs : List Char) :
    stripped (c :: cs) = c :: stripped cs := by
  unfold stripped
  rw [strippedAfter, if_neg fun h => hc h.1]

/-- What is left without the control sequences is the text that is shown. -/
theorem Painted.stripped {coloured plain : List Char} (h : Painted coloured plain) :
    Text.stripped coloured = plain := by
  induction h with
  | nil => rfl
  | char hc _ ih => rw [stripped_cons hc, ih]
  | sequence hp _ ih => rw [stripped_controlSequence_append hp, ih]

end Text

/-! ## Painted rows -/

namespace Renderer

theorem painted_paint (style : Style) {cs : List Char} (h : escape ∉ cs) :
    Painted (paint true style cs) (paint false style cs) :=
  (Painted.of_notMem h).styled style

theorem painted_marginRow {mark rest plain : List Char} (hm : escape ∉ mark)
    (h : Painted rest plain) :
    Painted (marginRow true mark rest) (marginRow false mark plain) := by
  have hmargin : Painted [' ', ' '] [' ', ' '] := .of_notMem (by decide)
  exact (hmargin.append (painted_paint .blue hm)).append h

theorem escape_notMem_toString (n : Int) : escape ∉ (toString n).toList :=
  notMem_toString (by decide) (by decide) n

theorem escape_notMem_repeated (n : Int) {c : Char} (hc : c ≠ escape) :
    escape ∉ repeated n c := by
  intro h
  exact hc (List.eq_of_mem_replicate h).symm

theorem escape_notMem_numberedBar (n : Int) : escape ∉ numberedBar n := by
  have hblanks : escape ∉ List.replicate (4 - (toString n).toList.length) ' ' := by
    intro h
    exact absurd (List.eq_of_mem_replicate h) (by decide)
  unfold numberedBar
  dsimp only
  rw [List.mem_append, List.mem_append, not_or, not_or]
  exact ⟨⟨hblanks, escape_notMem_toString n⟩, by decide⟩

theorem escape_notMem_append {a b : String} (ha : escape ∉ a.toList) (hb : escape ∉ b.toList) :
    escape ∉ (a ++ b).toList := by
  rw [String.toList_append, List.mem_append]
  exact not_or.mpr ⟨ha, hb⟩

theorem painted_headline {d : Diagnostic} (hcode : escape ∉ d.code.toList)
    (hmessage : escape ∉ d.message.toList) : Painted (headline true d) (headline false d) := by
  have hword : escape ∉ d.severity.word.toList := by
    cases d.severity <;> decide
  have hfront : escape ∉ (d.severity.word ++ "[" ++ d.code ++ "]").toList :=
    escape_notMem_append
      (escape_notMem_append (escape_notMem_append hword (by decide)) hcode) (by decide)
  have hbehind : escape ∉ (": " ++ d.message).toList :=
    escape_notMem_append (by decide) hmessage
  exact (painted_paint d.severity.style hfront).append (painted_paint .bold hbehind)

theorem painted_placeRow {label : Label} (hfile : escape ∉ label.file.toList) :
    Painted (placeRow true label) (placeRow false label) := by
  have hline := escape_notMem_toString (label.region.start.line + 1)
  have hcolumn := escape_notMem_toString (label.region.start.column + 1)
  refine painted_marginRow (by decide) (.of_notMem ?_)
  have hplace := escape_notMem_append (escape_notMem_append (escape_notMem_append
    (escape_notMem_append (a := " ") (by decide) hfile) (b := ":") (by decide)) hline)
    (b := ":") (by decide)
  exact escape_notMem_append hplace hcolumn

theorem painted_caretRow (style : Style) (region : Region) :
    Painted (caretRow true style region) (caretRow false style region) := by
  refine painted_marginRow (by decide) ?_
  have hblank : escape ∉ ' ' :: repeated region.start.column ' ' := by
    rw [List.mem_cons, not_or]
    exact ⟨by decide, escape_notMem_repeated _ (by decide)⟩
  exact (Painted.of_notMem hblank).append
    (painted_paint style (escape_notMem_repeated _ (by decide)))

theorem painted_noteRow {note : String} (h : escape ∉ note.toList) :
    Painted (noteRow true note) (noteRow false note) :=
  painted_marginRow (by decide) (.of_notMem (escape_notMem_append (by decide) h))

/-- The rows of a label, in the same number with colours as without. -/
theorem painted_labelRows (style : Style) {label : Label} {line : Option (List Char)}
    (hfile : escape ∉ label.file.toList) (hmessage : escape ∉ label.message.toList)
    (hline : ∀ shown, line = some shown → escape ∉ shown) :
    List.Forall₂ Painted (labelRows true style label line) (labelRows false style label line) := by
  have hbar : Painted (marginRow true bar []) (marginRow false bar []) :=
    painted_marginRow (by decide) .nil
  unfold labelRows
  refine List.rel_append (List.rel_append (List.rel_append ?_ ?_) ?_) ?_
  · exact .cons (painted_placeRow hfile) (.cons hbar .nil)
  · cases line with
    | none => exact .nil
    | some shown =>
      have hshown : escape ∉ ' ' :: shown := by
        rw [List.mem_cons, not_or]
        exact ⟨by decide, hline shown rfl⟩
      exact .cons (painted_marginRow (escape_notMem_numberedBar _) (.of_notMem hshown)) .nil
  · split_ifs
    · exact .cons (painted_caretRow style label.region) .nil
    · exact .nil
  · split_ifs
    · exact .nil
    · have hfront : Painted [' ', ' ', ' '] [' ', ' ', ' '] := .of_notMem (by decide)
      exact .cons (painted_marginRow (by decide) (hfront.append (painted_paint style hmessage)))
        .nil

/-! ## Calls -/

/-- What is asked of a renderer: to remember a source, or to show a diagnostic, with the files
that there are then. -/
inductive Call where
  | addSource (source : Source)
  | render (disk : Disk) (d : Diagnostic)

/-- The renderer after a call. -/
def answer (renderer : Renderer) : Call → Renderer
  | .addSource source => renderer.addSource source
  | .render disk d => (renderer.render disk d).1

/-- A new renderer after calls. -/
def after (color : Bool) (calls : List Call) : Renderer := calls.foldl answer (fresh color)

variable {renderer : Renderer} {disk : Disk} {d : Diagnostic}

/-- A renderer that remembers the same and uses colours as said. -/
def withColor (renderer : Renderer) (color : Bool) : Renderer := { renderer with color }

theorem lookUp_withColor (renderer : Renderer) (color : Bool) (disk : Disk) (file : String) :
    (renderer.withColor color).lookUp disk file =
      (renderer.lookUp disk file).map fun found => (found.1, found.2.withColor color) := by
  have hknown : (renderer.withColor color).known = renderer.known := rfl
  unfold lookUp
  rw [hknown]
  cases renderer.known.lookup file with
  | some lines => rfl
  | none =>
    cases linesOnDisk disk file with
    | error fault => rfl
    | ok lines => rfl

theorem lineAt_withColor (renderer : Renderer) (color : Bool) (disk : Disk) :
    (renderer.withColor color).lineAt disk = renderer.lineAt disk := by
  funext label
  rw [lineAt, lineAt, linesOf, linesOf, lookUp_withColor]
  cases renderer.lookUp disk label.file with
  | error fault => rfl
  | ok found => rfl

/-- Looking up labels leaves renderers that differ in colour with no other difference, also where
a file is no text. -/
theorem renderLabels_withColor (renderer : Renderer) (color : Bool) (disk : Disk)
    (style : Style) (labels : List Label) :
    (renderLabels disk style (renderer.withColor color) labels).1 =
      (renderLabels disk style renderer labels).1.withColor color := by
  induction labels generalizing renderer with
  | nil => rfl
  | cons label labels ih =>
    rw [renderLabels, renderLabels, lookUp_withColor]
    cases renderer.lookUp disk label.file with
    | error fault => rfl
    | ok found => exact ih found.2

theorem render_withColor (renderer : Renderer) (color : Bool) (disk : Disk) (d : Diagnostic) :
    ((renderer.withColor color).render disk d).1 = (renderer.render disk d).1.withColor color :=
  renderLabels_withColor renderer color disk d.severity.style d.labels

theorem answer_withColor (renderer : Renderer) (color : Bool) (call : Call) :
    (renderer.withColor color).answer call = (renderer.answer call).withColor color := by
  cases call with
  | addSource source => rfl
  | render disk d => exact render_withColor renderer color disk d

/-- After the same calls renderers differ in nothing but their colour. -/
theorem after_eq_withColor (color other : Bool) (calls : List Call) :
    after color calls = (after other calls).withColor color := by
  have hcalls (renderer : Renderer) :
      calls.foldl answer (renderer.withColor color) =
        (calls.foldl answer renderer).withColor color := by
    induction calls generalizing renderer with
    | nil => rfl
    | cons call calls ih =>
      rw [List.foldl_cons, List.foldl_cons, answer_withColor, ih]
  exact hcalls (fresh other)

/-! ## The two renderings -/

/-- No text that a diagnostic shows holds an escape: not its own texts, nor the names of the files
it is about, nor the lines that are found for its labels. -/
structure EscapeFree (renderer : Renderer) (disk : Disk) (d : Diagnostic) : Prop where
  code : escape ∉ d.code.toList
  message : escape ∉ d.message.toList
  notes : ∀ note ∈ d.notes, escape ∉ note.toList
  files : ∀ label ∈ d.labels, escape ∉ label.file.toList
  messages : ∀ label ∈ d.labels, escape ∉ label.message.toList
  shown : ∀ label ∈ d.labels, ∀ line,
    renderer.lineAt disk label = .ok (some line) → escape ∉ line

/-- The rows of the labels, where each line is the one that is found. -/
theorem EscapeFree.painted_labels (h : EscapeFree renderer disk d) (style : Style) :
    ∀ {labels : List Label} {found : List (Option (List Char))}, labels ⊆ d.labels →
      List.Forall₂ (fun label line => renderer.lineAt disk label = .ok line) labels found →
      List.Forall₂ Painted (labels.zipWith (labelRows true style) found).flatten
        (labels.zipWith (labelRows false style) found).flatten := by
  intro labels found hlabels hfound
  induction hfound with
  | nil => exact .nil
  | @cons label line labels found hline _ ih =>
    obtain ⟨hlabel, hrest⟩ := List.cons_subset.mp hlabels
    have hshown : ∀ shown, line = some shown → escape ∉ shown := by
      rintro shown rfl
      exact h.shown label hlabel shown hline
    have hrows := painted_labelRows style (h.files label hlabel) (h.messages label hlabel) hshown
    exact List.rel_append hrows (ih hrest)

/-- With the lines that are found, the coloured text is the plain one with control sequences. -/
theorem EscapeFree.painted_textWith (h : EscapeFree renderer disk d)
    {found : List (Option (List Char))} (hfound : renderer.linesFor disk d.labels = .ok found) :
    Painted (textWith true d found) (textWith false d found) := by
  refine Painted.intercalate (by decide) (.cons (painted_headline h.code h.message) ?_)
  refine List.rel_append ?_ ?_
  · exact h.painted_labels d.severity.style (List.Subset.refl _) (mapM_eq_ok_iff.mp hfound)
  · rw [List.forall₂_map_left_iff, List.forall₂_map_right_iff, List.forall₂_same]
    intro note hnote
    exact painted_noteRow (h.notes note hnote)

/-- Two renderers that were asked the same, one with colours and one without, show a diagnostic
without escapes as texts that differ by control sequences only, or fail on the same file. They
remember the same of the files afterwards, also where they fail. -/
theorem render_stripped (calls : List Call) (disk : Disk) (d : Diagnostic) :
    ((after true calls).render disk d).1.known = ((after false calls).render disk d).1.known ∧
      (EscapeFree (after false calls) disk d →
        ((after true calls).render disk d).2.map stripped = ((after false calls).render disk d).2 ∧
        ∀ text, ((after true calls).render disk d).2 = .ok text →
          Painted text (stripped text)) := by
  have htwin : after true calls = (after false calls).withColor true :=
    after_eq_withColor true false calls
  refine ⟨?_, fun h => ?_⟩
  · rw [htwin, render_withColor]
    rfl
  have hplain : (after false calls).color = false := by
    rw [after_eq_withColor false true calls]
    rfl
  have hlines : (after true calls).linesFor disk d.labels =
      (after false calls).linesFor disk d.labels := by
    rw [linesFor, linesFor, htwin, lineAt_withColor]
  rw [render_eq, render_eq, hlines, htwin, hplain]
  cases hfound : (after false calls).linesFor disk d.labels with
  | error fault =>
    refine ⟨rfl, fun text htext => ?_⟩
    cases htext
  | ok found =>
    have hpainted := h.painted_textWith hfound
    refine ⟨congrArg Except.ok hpainted.stripped, fun text htext => ?_⟩
    obtain rfl : textWith true d found = text := Except.ok.inj htext
    rw [hpainted.stripped]
    exact hpainted

theorem markedWord_stripped :
    let calls := [Call.addSource (Source.ofText "f" "ab".toList)]
    let d := Diagnostic.errorAt "f" ⟨⟨0, 0⟩, ⟨0, 2⟩⟩ "E1" "m" "here" ["see"]
    EscapeFree (after false calls) ⟨[], []⟩ d ∧
      ((after true calls).render ⟨[], []⟩ d).2.map stripped =
        ((after false calls).render ⟨[], []⟩ d).2 := by
  intro calls d
  have hfree : EscapeFree (after false calls) ⟨[], []⟩ d := by
    refine ⟨by decide, by decide, by decide, by decide, by decide, ?_⟩
    intro label hlabel line hline
    obtain rfl := List.mem_singleton.mp hlabel
    have hfound : (after false calls).lineAt ⟨[], []⟩ ⟨"f", ⟨⟨0, 0⟩, ⟨0, 2⟩⟩, "here"⟩ =
        .ok (some "ab".toList) := by decide
    obtain rfl := Option.some.inj (Except.ok.inj (hline.symm.trans hfound))
    decide
  exact ⟨hfree, ((render_stripped calls ⟨[], []⟩ d).2 hfree).1⟩

end Renderer

end Offside
