import Mathlib.Data.List.Induction
import Offside.Proofs.Colours

/-!
# What a renderer recalls

The lines that are shown of a file are those of the source of that name that was added last, or
else those that the file had when it was first looked for and was a text. Files may change between
the calls of a renderer in any way.

- `Renderer.Moment`, `Renderer.history`: what a renderer meets as it is called.
- `Renderer.kept`, `Renderer.recalled`: the lines of a file after a history.
- `Renderer.Remembers`: a renderer remembers what a history keeps.
- `Renderer.remembers_after`: so does every renderer after its calls.
- `Renderer.recalls_after`: what is shown after calls, and what changes it.
-/
namespace Offside

set_option autoImplicit false

open Text (Style)

namespace Renderer

/-! ## Histories -/

/-- A source is added, or the lines of a file are looked for, with the files that there are then. -/
inductive Moment where
  | added (source : Source)
  | sought (disk : Disk) (file : String)

/-- The lines of a source that is added under a name. -/
def Moment.added? (file : String) : Moment → Option TextLines
  | added source => if source.name = file then some source.lines else none
  | sought _ _ => none

/-- The lines of a file that is looked for and is a text. One that cannot be opened has none. -/
def Moment.found? (file : String) : Moment → Option TextLines
  | added _ => none
  | sought disk other => if other = file then (linesOnDisk disk file).toOption else none

/-- The lines that a history keeps of a file: those of the source of that name that was added
last, or else those that were found first. -/
def kept (moments : List Moment) (file : String) : Option TextLines :=
  (moments.reverse.findSome? (Moment.added? file)).or (moments.findSome? (Moment.found? file))

/-- The lines of a file after a history: those that are kept, or else those that it has now. -/
def recalled (moments : List Moment) (disk : Disk) (file : String) :
    Except Text.Utf8.Fault TextLines :=
  match kept moments file with
  | some lines => .ok lines
  | none => linesOnDisk disk file

/-- The files of labels are looked for one after the other, up to one that is no text. -/
def lookups (moments : List Moment) (disk : Disk) : List Label → List Moment
  | [] => []
  | label :: rest =>
    .sought disk label.file ::
      match recalled moments disk label.file with
      | .error _ => []
      | .ok _ => lookups moments disk rest

def Call.moments (before : List Moment) : Call → List Moment
  | .addSource source => [.added source]
  | .render disk d => lookups before disk d.labels

/-- What a renderer meets as it is called. -/
def history (calls : List Call) : List Moment :=
  calls.foldl (fun before call => before ++ call.moments before) []

variable {moments more : List Moment} {disk : Disk} {file : String} {lines : TextLines}

/-! ## One moment more -/

/-- A source that is added replaces what was kept under its name. -/
theorem kept_added (moments : List Moment) (source : Source) (file : String) :
    kept (moments ++ [.added source]) file =
      if file = source.name then some source.lines else kept moments file := by
  rw [kept, kept, List.reverse_append, List.reverse_singleton, List.singleton_append,
    List.findSome?_cons, List.findSome?_append, Moment.added?]
  have hfound : [Moment.added source].findSome? (Moment.found? file) = none := rfl
  rw [hfound, Option.or_none]
  by_cases hname : source.name = file
  · rw [if_pos hname, if_pos hname.symm, Option.some_or]
  · rw [if_neg hname, if_neg (Ne.symm hname)]

/-- A file that is looked for is kept if nothing was and it is a text. -/
theorem kept_sought (moments : List Moment) (disk : Disk) (other file : String) :
    kept (moments ++ [.sought disk other]) file =
      (kept moments file).or (if other = file then (linesOnDisk disk file).toOption else none) := by
  rw [kept, kept, List.reverse_append, List.reverse_singleton, List.singleton_append,
    List.findSome?_cons, List.findSome?_append, Option.or_assoc]
  have hfound : [Moment.sought disk other].findSome? (Moment.found? file) =
      if other = file then (linesOnDisk disk file).toOption else none := by
    rw [List.findSome?_singleton, Moment.found?]
  rw [hfound, Moment.added?]

theorem recalled_error {fault : Text.Utf8.Fault} (h : recalled moments disk file = .error fault) :
    kept moments file = none ∧ linesOnDisk disk file = .error fault := by
  unfold recalled at h
  cases hk : kept moments file with
  | some lines =>
    rw [hk] at h
    cases h
  | none =>
    rw [hk] at h
    exact ⟨rfl, h⟩

/-- To look for a file changes nothing that is found among the same files. -/
theorem recalled_sought (moments : List Moment) (disk : Disk) (other file : String) :
    recalled (moments ++ [.sought disk other]) disk file = recalled moments disk file := by
  rw [recalled, recalled, kept_sought]
  cases kept moments file with
  | some lines => rfl
  | none =>
    rw [Option.none_or]
    by_cases hname : other = file
    · rw [if_pos hname]
      cases linesOnDisk disk file with
      | error fault => rfl
      | ok lines => rfl
    · rw [if_neg hname]

theorem lookups_sought (moments : List Moment) (disk : Disk) (other : String)
    (labels : List Label) :
    lookups (moments ++ [.sought disk other]) disk labels = lookups moments disk labels := by
  induction labels with
  | nil => rfl
  | cons label labels ih => rw [lookups, lookups, recalled_sought, ih]

/-! ## Renderers -/

/-- A renderer remembers of each file what a history keeps. -/
def Remembers (renderer : Renderer) (moments : List Moment) : Prop :=
  ∀ file, renderer.known.lookup file = kept moments file

variable {renderer : Renderer}

theorem Remembers.linesOf (h : renderer.Remembers moments) (disk : Disk) (file : String) :
    renderer.linesOf disk file = recalled moments disk file := by
  rw [recalled, ← h file]
  cases hk : renderer.known.lookup file with
  | some lines => exact linesOf_of_known hk disk
  | none => exact linesOf_of_unknown hk disk

theorem Remembers.addSource (h : renderer.Remembers moments) (source : Source) :
    (renderer.addSource source).Remembers (moments ++ [.added source]) := by
  intro file
  rw [Renderer.addSource, lookup_remember, kept_added, h file]

/-- A lookup that does not fail. -/
theorem Remembers.lookUp (h : renderer.Remembers moments) {looked : Renderer}
    (hl : renderer.lookUp disk file = .ok (lines, looked)) :
    looked.Remembers (moments ++ [.sought disk file]) := by
  intro other
  rw [kept_sought, ← h other]
  obtain ⟨hknown, rfl⟩ | ⟨hunknown, hdisk, rfl⟩ := lookUp_eq_ok hl
  · by_cases hname : file = other
    · rw [← hname, hknown, Option.some_or]
    · rw [if_neg hname, Option.or_none]
  · rw [lookup_remember]
    by_cases hname : file = other
    · rw [if_pos hname.symm, if_pos hname, ← hname, hunknown, hdisk]
      rfl
    · rw [if_neg (Ne.symm hname), if_neg hname, Option.or_none]

/-- A lookup that fails leaves nothing. -/
theorem Remembers.lookUp_error (h : renderer.Remembers moments) {fault : Text.Utf8.Fault}
    (hl : renderer.lookUp disk file = .error fault) :
    renderer.Remembers (moments ++ [.sought disk file]) := by
  have hlines : recalled moments disk file = .error fault := by
    rw [← h.linesOf, Renderer.linesOf, hl]
    rfl
  obtain ⟨hkept, hdisk⟩ := recalled_error hlines
  intro other
  rw [kept_sought, ← h other]
  by_cases hname : file = other
  · rw [← hname, h file, hkept, if_pos rfl, hdisk]
    rfl
  · rw [if_neg hname, Option.or_none]

/-- The labels of a diagnostic are looked up one after the other, also where one fails. -/
theorem Remembers.renderLabels (h : renderer.Remembers moments) (disk : Disk) (style : Style)
    (labels : List Label) :
    (renderLabels disk style renderer labels).1.Remembers
      (moments ++ lookups moments disk labels) := by
  induction labels generalizing renderer moments with
  | nil =>
    rw [lookups, List.append_nil]
    exact h
  | cons label labels ih =>
    have hlines := h.linesOf disk label.file
    rw [Renderer.linesOf] at hlines
    rw [Renderer.renderLabels, lookups, ← hlines]
    cases hl : renderer.lookUp disk label.file with
    | error fault => exact h.lookUp_error hl
    | ok pair =>
      have hrest := ih (h.lookUp hl)
      rw [lookups_sought, List.append_assoc, List.singleton_append] at hrest
      exact hrest

theorem Remembers.answer (h : renderer.Remembers moments) (call : Call) :
    (renderer.answer call).Remembers (moments ++ call.moments moments) := by
  cases call with
  | addSource source => exact h.addSource source
  | render disk d => exact h.renderLabels disk d.severity.style d.labels

theorem history_concat (calls : List Call) (call : Call) :
    history (calls ++ [call]) = history calls ++ call.moments (history calls) := by
  rw [history, List.foldl_append]
  rfl

theorem after_concat (color : Bool) (calls : List Call) (call : Call) :
    after color (calls ++ [call]) = (after color calls).answer call := by
  rw [after, List.foldl_append]
  rfl

/-- After its calls a renderer remembers what their history keeps. -/
theorem remembers_after (color : Bool) (calls : List Call) :
    (after color calls).Remembers (history calls) := by
  induction calls using List.reverseRecOn with
  | nil =>
    intro file
    rfl
  | append_singleton calls call ih =>
    rw [history_concat, after_concat]
    exact ih.answer call

/-! ## Longer histories -/

/-- What is kept stays kept until a source of that name is added. -/
theorem kept_append (h : kept moments file = some lines)
    (hmore : ∀ source, .added source ∈ more → source.name ≠ file) :
    kept (moments ++ more) file = some lines := by
  induction more using List.reverseRecOn with
  | nil => rwa [List.append_nil]
  | append_singleton more moment ih =>
    have hbefore := ih fun source hs => hmore source (List.mem_append_left _ hs)
    rw [← List.append_assoc]
    cases moment with
    | added source =>
      have hname := hmore source (List.mem_append_right more (List.mem_singleton_self _))
      rw [kept_added, if_neg (Ne.symm hname), hbefore]
    | sought disk other => rw [kept_sought, hbefore, Option.some_or]

/-- What is looked for changes nothing of a file that is not. -/
theorem kept_append_of_ne (h : ∀ moment ∈ more, ∃ disk other, moment = .sought disk other ∧
    other ≠ file) : kept (moments ++ more) file = kept moments file := by
  induction more using List.reverseRecOn with
  | nil => rw [List.append_nil]
  | append_singleton more moment ih =>
    obtain ⟨disk, other, rfl, hname⟩ :=
      h moment (List.mem_append_right more (List.mem_singleton_self _))
    rw [← List.append_assoc, kept_sought, if_neg hname, Option.or_none]
    exact ih fun moment hm => h moment (List.mem_append_left _ hm)

theorem mem_lookups {labels : List Label} {moment : Moment}
    (h : moment ∈ lookups moments disk labels) :
    ∃ label ∈ labels, moment = .sought disk label.file := by
  induction labels with
  | nil => cases h
  | cons label labels ih =>
    rw [lookups] at h
    rcases List.mem_cons.mp h with rfl | h
    · exact ⟨label, List.mem_cons_self, rfl⟩
    · split at h
      · cases h
      · obtain ⟨found, hfound, rfl⟩ := ih h
        exact ⟨found, List.mem_cons_of_mem label hfound, rfl⟩

/-- Calls add to the history, and add no source but those that they are given. -/
theorem exists_history_append (calls later : List Call) :
    ∃ more, history (calls ++ later) = history calls ++ more ∧
      ∀ source, .added source ∈ more → .addSource source ∈ later := by
  induction later using List.reverseRecOn with
  | nil => exact ⟨[], by rw [List.append_nil, List.append_nil], nofun⟩
  | append_singleton later call ih =>
    obtain ⟨more, hmore, hadded⟩ := ih
    refine ⟨more ++ call.moments (history (calls ++ later)), ?_, ?_⟩
    · rw [← List.append_assoc, history_concat, hmore, List.append_assoc]
    · intro source hsource
      rcases List.mem_append.mp hsource with hsource | hsource
      · exact List.mem_append_left _ (hadded source hsource)
      · refine List.mem_append_right later (List.mem_singleton.mpr ?_)
        cases call with
        | addSource other =>
          have hsame : Moment.added source = .added other := List.mem_singleton.mp hsource
          rw [Moment.added.inj hsame]
        | render disk d =>
          obtain ⟨label, -, hlabel⟩ := mem_lookups hsource
          cases hlabel

/-- Where the lines for labels are not all found, one file is the first that is no text. -/
theorem exists_of_mapM_eq_error {α β ε : Type} {f : α → Except ε β} {as : List α} {fault : ε}
    (h : as.mapM f = .error fault) :
    ∃ before a behind, as = before ++ a :: behind ∧ (∀ b ∈ before, ∃ found, f b = .ok found) ∧
      f a = .error fault := by
  induction as with
  | nil => cases h
  | cons a as ih =>
    rw [List.mapM_cons] at h
    cases ha : f a with
    | error first =>
      rw [ha] at h
      obtain rfl : first = fault := Except.error.inj h
      exact ⟨[], a, as, rfl, nofun, ha⟩
    | ok b =>
      rw [ha] at h
      cases has : as.mapM f with
      | error later =>
        rw [has] at h
        obtain rfl : later = fault := Except.error.inj h
        obtain ⟨before, c, behind, rfl, hbefore, hc⟩ := ih has
        exact ⟨a :: before, c, behind, rfl, List.forall_mem_cons.mpr ⟨⟨b, ha⟩, hbefore⟩, hc⟩
      | ok found =>
        rw [has] at h
        cases h

/-- Among the files of labels that are looked for, one that is no text is not kept. -/
theorem kept_lookups (hk : kept moments file = none)
    (hd : (linesOnDisk disk file).toOption = none) (labels : List Label) :
    kept (moments ++ lookups moments disk labels) file = none := by
  induction labels generalizing moments with
  | nil => rwa [lookups, List.append_nil]
  | cons label labels ih =>
    have hfirst : kept (moments ++ [.sought disk label.file]) file = none := by
      rw [kept_sought, hk, hd, ite_self, Option.or_none]
    rw [lookups]
    split
    · exact hfirst
    · have hrest := ih hfirst
      rwa [lookups_sought, List.append_assoc, List.singleton_append] at hrest

/-! ## What is shown -/

theorem color_after (color : Bool) (calls : List Call) : (after color calls).color = color := by
  rw [after_eq_withColor color color calls]
  rfl

theorem linesOf_after (color : Bool) (calls : List Call) (disk : Disk) (file : String) :
    (after color calls).linesOf disk file = recalled (history calls) disk file :=
  (remembers_after color calls).linesOf disk file

/-- The recalled line that a label points at. -/
def recalledLine (moments : List Moment) (disk : Disk) (label : Label) :
    Except Text.Utf8.Fault (Option (List Char)) :=
  (recalled moments disk label.file).map (lineNumbered? · (label.region.start.line + 1))

theorem render_after (color : Bool) (calls : List Call) (disk : Disk) (d : Diagnostic) :
    ((after color calls).render disk d).2 =
      (d.labels.mapM (recalledLine (history calls) disk)).map (textWith color d) := by
  have hline : (after color calls).lineAt disk = recalledLine (history calls) disk := by
    funext label
    rw [lineAt, linesOf_after, recalledLine]
  rw [render_eq, linesFor, hline, color_after]

theorem recalledLine_error {label : Label} {fault : Text.Utf8.Fault}
    (h : recalledLine moments disk label = .error fault) :
    recalled moments disk label.file = .error fault := by
  unfold recalledLine at h
  cases hr : recalled moments disk label.file with
  | error other =>
    rw [hr] at h
    exact congrArg Except.error (Except.error.inj h)
  | ok lines =>
    rw [hr] at h
    cases h

theorem exists_of_recalledLine {label : Label} {line : Option (List Char)}
    (h : recalledLine moments disk label = .ok line) :
    ∃ lines, recalled moments disk label.file = .ok lines := by
  unfold recalledLine at h
  cases hr : recalled moments disk label.file with
  | error other =>
    rw [hr] at h
    cases h
  | ok lines => exact ⟨lines, rfl⟩

/-- Where a diagnostic is not shown, one file is the first that is no text. It is not kept. -/
theorem exists_of_render_error {color : Bool} {calls : List Call} {d : Diagnostic}
    {fault : Text.Utf8.Fault} (h : ((after color calls).render disk d).2 = .error fault) :
    ∃ before label behind, d.labels = before ++ label :: behind ∧
      (∀ earlier ∈ before, ∃ lines, recalled (history calls) disk earlier.file = .ok lines) ∧
      linesOnDisk disk label.file = .error fault ∧
      kept (history (calls ++ [.render disk d])) label.file = none := by
  rw [render_after] at h
  cases hlines : d.labels.mapM (recalledLine (history calls) disk) with
  | ok found =>
    rw [hlines] at h
    cases h
  | error first =>
    rw [hlines] at h
    obtain rfl : first = fault := Except.error.inj h
    obtain ⟨before, label, behind, hlabels, hbefore, hlabel⟩ := exists_of_mapM_eq_error hlines
    obtain ⟨hkept, hdisk⟩ := recalled_error (recalledLine_error hlabel)
    refine ⟨before, label, behind, hlabels, ?_, hdisk, ?_⟩
    · intro earlier hearlier
      obtain ⟨line, hline⟩ := hbefore earlier hearlier
      exact exists_of_recalledLine hline
    · rw [history_concat]
      exact kept_lookups hkept (by rw [hdisk]; rfl) d.labels

theorem kept_render_of_ne {d : Diagnostic} (calls : List Call)
    (h : ∀ label ∈ d.labels, label.file ≠ file) :
    kept (history (calls ++ [.render disk d])) file = kept (history calls) file := by
  rw [history_concat]
  refine kept_append_of_ne fun moment hm => ?_
  obtain ⟨label, hlabel, rfl⟩ := mem_lookups hm
  exact ⟨disk, label.file, rfl, h label hlabel⟩

theorem kept_later {calls later : List Call} (h : kept (history calls) file = some lines)
    (hlater : ∀ source, .addSource source ∈ later → source.name ≠ file) :
    kept (history (calls ++ later)) file = some lines := by
  obtain ⟨more, hmore, hadded⟩ := exists_history_append calls later
  rw [hmore]
  exact kept_append h fun source hs => hlater source (hadded source hs)

/-- What renderers show after calls. -/
structure Recalls (color : Bool) (calls : List Call) : Prop where
  /-- A diagnostic is shown with the recalled line for each label, or not at all where the file of
  a label is no text. -/
  shown : ∀ disk d, ((after color calls).render disk d).2 =
    (d.labels.mapM (recalledLine (history calls) disk)).map (textWith color d)
  /-- Lines that are kept are shown until a source of that name is added, whatever becomes of the
  files. -/
  lasting : ∀ file lines, kept (history calls) file = some lines →
    ∀ later, (∀ source, .addSource source ∈ later → source.name ≠ file) →
      ∀ disk, (after color (calls ++ later)).linesOf disk file = .ok lines
  /-- Where a diagnostic is not shown, the first file that is no text is not kept, and so is looked
  for again. -/
  failing : ∀ disk d fault, ((after color calls).render disk d).2 = .error fault →
    ∃ before label behind, d.labels = before ++ label :: behind ∧
      (∀ earlier ∈ before, ∃ lines, recalled (history calls) disk earlier.file = .ok lines) ∧
      linesOnDisk disk label.file = .error fault ∧
      ∀ disk', (after color (calls ++ [.render disk d])).linesOf disk' label.file =
        linesOnDisk disk' label.file
  /-- To show a diagnostic changes no lines of a file that it has no label in. -/
  apart : ∀ disk d file, (∀ label ∈ d.labels, label.file ≠ file) →
    ∀ disk', (after color (calls ++ [.render disk d])).linesOf disk' file =
      (after color calls).linesOf disk' file

/-- The lines that are shown of a file are those of the source of that name that was added last,
or else those that were found when it was first looked for and was a text, or else those that it
has now. -/
theorem recalls_after (color : Bool) (calls : List Call) : Recalls color calls := by
  constructor
  case shown => exact render_after color calls
  case lasting =>
    intro file lines hkept later hlater disk
    rw [linesOf_after, recalled, kept_later hkept hlater]
  case failing =>
    intro disk d fault hfault
    obtain ⟨before, label, behind, hlabels, hbefore, hdisk, hkept⟩ :=
      exists_of_render_error hfault
    refine ⟨before, label, behind, hlabels, hbefore, hdisk, fun disk' => ?_⟩
    rw [linesOf_after, recalled, hkept]
  case apart =>
    intro disk d file hfile disk'
    rw [linesOf_after, linesOf_after, recalled, recalled, kept_render_of_ne calls hfile]

/-- A working directory with one file. -/
def oneFile (octets : List UInt8) : Disk := ⟨[(["f"], .file octets)], []⟩

/-- The file is no text at first, is then read, and changes. -/
theorem changedFile_recalls :
    let d := Diagnostic.errorAt "f" ⟨⟨0, 0⟩, ⟨0, 2⟩⟩ "E1" "m" "" []
    let failed := [Call.render (oneFile [0x80]) d]
    let calls := failed ++ [.render (oneFile [0x61, 0x62]) d]
    (after false failed).linesOf (oneFile [0x61, 0x62]) "f" =
        linesOnDisk (oneFile [0x61, 0x62]) "f" ∧
      (after false failed).linesOf (oneFile [0x80]) "g" =
        (after false []).linesOf (oneFile [0x80]) "g" ∧
      kept (history calls) "f" = some ["ab".toList] ∧
      (after false (calls ++ [.addSource (Source.ofText "g" "cd".toList)])).linesOf
        (oneFile [0x63, 0x64]) "f" = .ok ["ab".toList] := by
  intro d failed calls
  have hkept : kept (history calls) "f" = some ["ab".toList] := by decide
  refine ⟨?_, ?_, hkept, ?_⟩
  · have hfault : ((after false []).render (oneFile [0x80]) d).2 =
        .error ⟨0, 1, 0x80, .badStart⟩ := by
      decide
    obtain ⟨before, label, behind, hlabels, -, -, hagain⟩ :=
      (recalls_after false []).failing _ _ _ hfault
    have hlabel : label ∈ d.labels := hlabels ▸ List.mem_append_right before List.mem_cons_self
    obtain rfl := List.mem_singleton.mp hlabel
    exact hagain _
  · exact (recalls_after false []).apart _ d "g" (by decide) _
  · refine (recalls_after false calls).lasting "f" ["ab".toList] hkept _ ?_ _
    intro source hsource
    have hsame : Call.addSource source = .addSource (Source.ofText "g" "cd".toList) :=
      List.mem_singleton.mp hsource
    rw [Call.addSource.inj hsame]
    decide

end Renderer

end Offside
