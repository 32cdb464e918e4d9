import Mathlib.Data.List.Forall2
import Offside.Diagnostic.Renderer

/-!
# The rows of a shown diagnostic

The lines that a renderer finds for the labels of a diagnostic do not hang on the order in which
the files are looked up, so the shown text is put together from one line for each label.

- `Renderer.linesOf`: the lines that a renderer finds of a file.
- `Renderer.lineAt`, `Renderer.linesFor`: the line that a label points at, and those of labels.
- `Renderer.linesOf_of_lookUp`: looking up one file changes no lines of another.
- `Renderer.textWith`: the text of a diagnostic, where the line for each label is given.
- `Renderer.render_eq`: the text that is shown, or why there is none.
-/
namespace Offside

set_option autoImplicit false

open Text (Style)

namespace Renderer

variable {renderer looked : Renderer} {disk : Disk} {file other : String} {lines : TextLines}

/-! ## Looking files up -/

/-- The lines that a renderer finds of a file: those it remembers, or else those on the disk. -/
def linesOf (renderer : Renderer) (disk : Disk) (file : String) :
    Except Text.Utf8.Fault TextLines :=
  (renderer.lookUp disk file).map Prod.fst

theorem linesOf_of_known (h : renderer.known.lookup file = some lines) (disk : Disk) :
    renderer.linesOf disk file = .ok lines := by
  simp only [linesOf, lookUp, h]
  rfl

theorem linesOf_of_unknown (h : renderer.known.lookup file = none) (disk : Disk) :
    renderer.linesOf disk file = linesOnDisk disk file := by
  simp only [linesOf, lookUp, h]
  cases linesOnDisk disk file <;> rfl

/-- Renderers that remember the same find the same lines. -/
theorem linesOf_congr (h : renderer.known.lookup file = looked.known.lookup file) (disk : Disk) :
    renderer.linesOf disk file = looked.linesOf disk file := by
  cases hk : looked.known.lookup file with
  | some lines => rw [linesOf_of_known hk, linesOf_of_known (h.trans hk)]
  | none => rw [linesOf_of_unknown hk, linesOf_of_unknown (h.trans hk)]

theorem lookup_filter_ne (known : List (String × TextLines)) (h : other ≠ file) :
    (known.filter (·.1 ≠ file)).lookup other = known.lookup other := by
  induction known with
  | nil => rfl
  | cons entry known ih =>
    obtain ⟨name, lines⟩ := entry
    by_cases hname : name = file
    · have hother : (other == name) = false := by
        rw [hname]
        exact beq_eq_false_iff_ne.mpr h
      rw [List.filter_cons_of_neg (by simpa using hname), List.lookup_cons, hother, ih]
    · rw [List.filter_cons_of_pos (by simpa using hname), List.lookup_cons, List.lookup_cons, ih]

theorem lookup_remember (renderer : Renderer) (file : String) (lines : TextLines)
    (other : String) : (renderer.remember file lines).known.lookup other =
      if other = file then some lines else renderer.known.lookup other := by
  rw [remember, List.lookup_cons]
  by_cases h : other = file
  · rw [if_pos h, beq_iff_eq.mpr h]
  · rw [if_neg h, beq_eq_false_iff_ne.mpr h, lookup_filter_ne _ h]

/-- The lines of an added source are found under its name. -/
theorem linesOf_addSource (renderer : Renderer) (source : Source) (disk : Disk) :
    (renderer.addSource source).linesOf disk source.name = .ok source.lines := by
  refine linesOf_of_known ?_ disk
  rw [addSource, lookup_remember, if_pos rfl]

/-- What a lookup that does not fail does: the file was known, or it is remembered now. -/
theorem lookUp_eq_ok (h : renderer.lookUp disk file = .ok (lines, looked)) :
    (renderer.known.lookup file = some lines ∧ looked = renderer) ∨
      (renderer.known.lookup file = none ∧ linesOnDisk disk file = .ok lines ∧
        looked = renderer.remember file lines) := by
  unfold lookUp at h
  cases hk : renderer.known.lookup file with
  | some known =>
    rw [hk] at h
    simp only [Except.ok.injEq, Prod.mk.injEq] at h
    exact .inl ⟨by rw [h.1], h.2.symm⟩
  | none =>
    rw [hk] at h
    cases hd : linesOnDisk disk file with
    | error fault => simp [hd] at h
    | ok found =>
      simp only [hd, Except.ok.injEq, Prod.mk.injEq] at h
      obtain ⟨rfl, rfl⟩ := h
      exact .inr ⟨rfl, rfl, rfl⟩

theorem color_of_lookUp (h : renderer.lookUp disk file = .ok (lines, looked)) :
    looked.color = renderer.color := by
  obtain ⟨-, rfl⟩ | ⟨-, -, rfl⟩ := lookUp_eq_ok h
  · rfl
  · rfl

/-- Looking up one file changes no lines of another, nor of the file itself. -/
theorem linesOf_of_lookUp (h : renderer.lookUp disk file = .ok (lines, looked)) (other : String) :
    looked.linesOf disk other = renderer.linesOf disk other := by
  obtain ⟨-, rfl⟩ | ⟨hk, hd, rfl⟩ := lookUp_eq_ok h
  · rfl
  · by_cases ho : other = file
    · have hremembered : (renderer.remember file lines).known.lookup file = some lines := by
        rw [lookup_remember, if_pos rfl]
      rw [ho, linesOf_of_known hremembered, linesOf_of_unknown hk, hd]
    · refine linesOf_congr ?_ disk
      rw [lookup_remember, if_neg ho]

/-! ## The lines of labels -/

/-- The line that a label points at, if the file has that many. -/
def lineAt (renderer : Renderer) (disk : Disk) (label : Label) :
    Except Text.Utf8.Fault (Option (List Char)) :=
  (renderer.linesOf disk label.file).map (lineNumbered? · (label.region.start.line + 1))

/-- The line for each of some labels, or the first thing that is wrong with a file. -/
def linesFor (renderer : Renderer) (disk : Disk) (labels : List Label) :
    Except Text.Utf8.Fault (List (Option (List Char))) :=
  labels.mapM (renderer.lineAt disk)

theorem mapM_eq_ok_iff {α β ε : Type} {f : α → Except ε β} {as : List α} {bs : List β} :
    as.mapM f = .ok bs ↔ List.Forall₂ (fun a b => f a = .ok b) as bs := by
  induction as generalizing bs with
  | nil =>
    rw [List.mapM_nil, List.forall₂_nil_left_iff]
    simp [pure, Except.pure, eq_comm]
  | cons a as ih =>
    rw [List.mapM_cons, List.forall₂_cons_left_iff]
    cases ha : f a with
    | error fault => simp [bind, Except.bind]
    | ok b =>
      cases has : as.mapM f with
      | error fault =>
        have hnone (bs : List β) : ¬ List.Forall₂ (fun a b => f a = .ok b) as bs := by
          rw [← ih, has]
          simp
        simp [bind, Except.bind, hnone]
      | ok found =>
        have hsome (bs : List β) :
            List.Forall₂ (fun a b => f a = .ok b) as bs ↔ found = bs := by
          rw [← ih, has, Except.ok.injEq]
        simp [bind, Except.bind, pure, Except.pure, hsome, eq_comm]

theorem lineAt_of_lookUp (h : renderer.lookUp disk file = .ok (lines, looked)) :
    looked.lineAt disk = renderer.lineAt disk := by
  funext label
  rw [lineAt, lineAt, linesOf_of_lookUp h]

/-- The rows of labels are put together from the line for each of them. -/
theorem renderLabels_eq (disk : Disk) (style : Style) (renderer : Renderer)
    (labels : List Label) :
    (renderLabels disk style renderer labels).2 = (renderer.linesFor disk labels).map
      fun found => (labels.zipWith (labelRows renderer.color style) found).flatten := by
  induction labels generalizing renderer with
  | nil => rfl
  | cons label labels ih =>
    rw [renderLabels, linesFor, List.mapM_cons]
    cases hl : renderer.lookUp disk label.file with
    | error fault =>
      have hline : renderer.lineAt disk label = .error fault := by
        rw [lineAt, linesOf, hl]
        rfl
      rw [hline]
      rfl
    | ok pair =>
      obtain ⟨lines, looked⟩ := pair
      have hline : renderer.lineAt disk label =
          .ok (lineNumbered? lines (label.region.start.line + 1)) := by
        rw [lineAt, linesOf, hl]
        rfl
      have hrest : labels.mapM (renderer.lineAt disk) = looked.linesFor disk labels := by
        rw [linesFor, lineAt_of_lookUp hl]
      rw [hline, hrest]
      dsimp only
      rw [ih looked, color_of_lookUp hl]
      cases looked.linesFor disk labels with
      | error fault => rfl
      | ok found => rfl

/-! ## The shown text -/

/-- A number is written with digits, and a sign in front. -/
theorem notMem_toString {c : Char} (hdigit : c.isDigit = false) (hsign : c ≠ '-') (n : Int) :
    c ∉ (toString n).toList := by
  have hdigits (m : Nat) : c ∉ (toString m).toList := by
    intro h
    have hmem : c ∈ Nat.toDigits 10 m := by simpa [toString, Nat.repr] using h
    rw [Nat.isDigit_of_mem_toDigits (by decide) (by decide) hmem] at hdigit
    cases hdigit
  cases n with
  | ofNat m => exact hdigits m
  | negSucc m =>
    rw [show toString (Int.negSucc m) = "-" ++ toString (m + 1) from rfl, String.toList_append,
      List.mem_append]
    rintro (h | h)
    · exact hsign (List.mem_singleton.mp h)
    · exact hdigits (m + 1) h

/-- The rows of a diagnostic, where the line for each label is given. -/
def rowsWith (color : Bool) (d : Diagnostic) (found : List (Option (List Char))) :
    List (List Char) :=
  headline color d :: ((d.labels.zipWith (labelRows color d.severity.style) found).flatten ++
    d.notes.map (noteRow color))

/-- The text of a diagnostic, where the line for each label is given. -/
def textWith (color : Bool) (d : Diagnostic) (found : List (Option (List Char))) : List Char :=
  ['\n'].intercalate (rowsWith color d found)

/-- The text of a diagnostic is that with the lines of its labels, or a file of one of them is no
text. -/
theorem render_eq (renderer : Renderer) (disk : Disk) (d : Diagnostic) :
    (renderer.render disk d).2 =
      (renderer.linesFor disk d.labels).map (textWith renderer.color d) := by
  unfold render
  dsimp only
  rw [renderLabels_eq]
  cases renderer.linesFor disk d.labels with
  | error fault => rfl
  | ok found => rfl

theorem exists_of_forall₂_append_cons {α β : Type} {R : α → β → Prop} {as rest : List α} {a : α}
    {bs : List β} (h : List.Forall₂ R (as ++ a :: rest) bs) :
    ∃ front b behind, bs = front ++ b :: behind ∧ as.length = front.length ∧ R a b := by
  induction as generalizing bs with
  | nil =>
    cases h with
    | cons hab hrest => exact ⟨[], _, _, rfl, rfl, hab⟩
  | cons c as ih =>
    cases h with
    | @cons _ d _ bs _ hrest =>
      obtain ⟨front, b, behind, rfl, hlength, hab⟩ := ih hrest
      exact ⟨d :: front, b, behind, rfl, by rw [List.length_cons, List.length_cons, hlength], hab⟩

/-- The rows of each label stand in the text that is shown. -/
theorem exists_rows {d : Diagnostic} {before behind : List Label} {label : Label}
    {line : Option (List Char)} {text : List Char}
    (hlabels : d.labels = before ++ label :: behind) (hline : renderer.lineAt disk label = .ok line)
    (htext : (renderer.render disk d).2 = .ok text) : ∃ above below : List (List Char),
      text = ['\n'].intercalate
        (above ++ (labelRows renderer.color d.severity.style label line ++ below)) := by
  rw [render_eq] at htext
  cases hlines : renderer.linesFor disk d.labels with
  | error fault =>
    rw [hlines] at htext
    cases htext
  | ok found =>
    rw [hlines] at htext
    obtain rfl : textWith renderer.color d found = text := Except.ok.inj htext
    have hpairs := mapM_eq_ok_iff.mp hlines
    rw [hlabels] at hpairs
    obtain ⟨front, other, rest, rfl, hlength, hother⟩ := exists_of_forall₂_append_cons hpairs
    obtain rfl : line = other := Except.ok.inj (hline.symm.trans hother)
    let rowsOf := labelRows renderer.color d.severity.style
    refine ⟨headline renderer.color d :: (before.zipWith rowsOf front).flatten,
      (behind.zipWith rowsOf rest).flatten ++ d.notes.map (noteRow renderer.color), ?_⟩
    rw [textWith, rowsWith, hlabels, List.zipWith_append hlength, List.zipWith_cons_cons,
      List.flatten_append, List.flatten_cons]
    simp only [List.append_assoc, List.cons_append, rowsOf]

end Renderer

end Offside
