import Mathlib.Data.List.Flatten
import Mathlib.Data.List.Induction
import Mathlib.Data.String.Basic
import Offside.Proofs.FileWriting

/-!
# Where the names of places lead

In a tree of files the name of a place that is written from the root leads to that place and to no
other. Only a name that is too long is refused.

- `Disk.IsTree`: every entry has a proper name and stands in a directory.
- `Path.steps_nameOf`: the steps of a name are those of the place.
- `Path.isStep_resolve`: a path leads along proper steps.
- `Disk.walk_of_entry`, `Disk.place_of_walk`: a walk from the root leads to the place.
- `Disk.Refuses`: the name of a place is too long.
- `Disk.test_nameOf`: a test on the name of a place is a test on what stands there.
-/
namespace Offside

set_option autoImplicit false

/-! ## Names of places -/

/-- What stands before the first separator is the first field. -/
theorem Text.fields_append {separator : Char} {cs rest : List Char} {more : List (List Char)}
    (h : separator ∉ cs) (hr : fields separator rest = [] :: more) :
    fields separator (cs ++ rest) = cs :: more := by
  induction cs with
  | nil => exact hr
  | cons c cs ih =>
    rw [List.mem_cons, not_or] at h
    rw [List.cons_append, fields, if_neg (Ne.symm h.1), ih h.2]

/-- Stretches without a separator, each behind one, are the fields behind an empty first one. -/
theorem Text.fields_flatMap {separator : Char} {parts : List (List Char)}
    (h : ∀ part ∈ parts, separator ∉ part) :
    fields separator (parts.flatMap (separator :: ·)) = [] :: parts := by
  induction parts with
  | nil => rfl
  | cons part parts ih =>
    obtain ⟨hpart, hparts⟩ := List.forall_mem_cons.mp h
    rw [List.flatMap_cons, List.cons_append, fields, if_pos rfl, fields_append hpart (ih hparts)]

/-- A step that names something in a directory. -/
structure Path.IsStep (step : String) : Prop where
  ne_nil : step.toList ≠ []
  noSlash : '/' ∉ step.toList
  noNull : '\x00' ∉ step.toList
  ne_here : step ≠ "."
  ne_above : step ≠ ".."

instance (step : String) : Decidable (Path.IsStep step) :=
  decidable_of_iff (step.toList ≠ [] ∧ '/' ∉ step.toList ∧ '\x00' ∉ step.toList ∧ step ≠ "." ∧
      step ≠ "..")
    ⟨fun h => ⟨h.1, h.2.1, h.2.2.1, h.2.2.2.1, h.2.2.2.2⟩,
      fun h => ⟨h.ne_nil, h.noSlash, h.noNull, h.ne_here, h.ne_above⟩⟩

namespace Path

/-- The name of a place, written from the root. -/
def nameOf (place : List String) : String := (ofPlace place).text

variable {place : List String}

/-- In the name of a place a slash stands before every step. -/
theorem nameOf_toList (hne : place ≠ []) :
    (nameOf place).toList = (place.map String.toList).flatMap ('/' :: ·) := by
  have hjoin : ∀ place : List String, place ≠ [] →
      '/' :: ['/'].intercalate (place.map String.toList) =
        (place.map String.toList).flatMap ('/' :: ·) := by
    intro place hne
    induction place with
    | nil => exact absurd rfl hne
    | cons step place ih =>
      cases place with
      | nil => simp
      | cons next place =>
        rw [List.map_cons, List.flatMap_cons, ← ih (List.cons_ne_nil _ _), List.map_cons,
          List.intercalate_cons_cons, List.append_assoc]
        rfl
  have htext : nameOf place = "/" ++ "/".intercalate place := by
    unfold nameOf text ofPlace
    rw [if_neg fun h => hne h.2]
    rfl
  rw [htext, String.toList_append, String.toList_intercalate]
  exact hjoin place hne

theorem head?_nameOf (place : List String) : (nameOf place).toList.head? = some '/' := by
  cases place with
  | nil => decide
  | cons step place =>
    rw [nameOf_toList (List.cons_ne_nil _ _)]
    rfl

theorem steps_nameOf (h : ∀ step ∈ place, IsStep step) :
    steps (nameOf place).toList = place := by
  cases place with
  | nil => decide
  | cons first rest =>
    have hnoSlash : ∀ part ∈ (first :: rest).map String.toList, '/' ∉ part := by
      intro part hpart
      obtain ⟨step, hstep, rfl⟩ := List.mem_map.mp hpart
      exact (h step hstep).noSlash
    have hne : ∀ part ∈ (first :: rest).map String.toList, decide (part ≠ []) = true := by
      intro part hpart
      obtain ⟨step, hstep, rfl⟩ := List.mem_map.mp hpart
      exact decide_eq_true (h step hstep).ne_nil
    have hback : String.ofList ∘ String.toList = id := funext fun _ => String.ofList_toList
    rw [steps, nameOf_toList (List.cons_ne_nil _ _), Text.fields_flatMap hnoSlash,
      List.filter_cons_of_neg (by decide), List.filter_eq_self.mpr hne, List.map_map, hback,
      List.map_id]

theorem null_notMem_nameOf (h : ∀ step ∈ place, IsStep step) :
    '\x00' ∉ (nameOf place).toList := by
  cases place with
  | nil => decide
  | cons first rest =>
    rw [nameOf_toList (List.cons_ne_nil _ _), List.mem_flatMap]
    rintro ⟨part, hpart, hnull⟩
    obtain ⟨step, hstep, rfl⟩ := List.mem_map.mp hpart
    rcases List.mem_cons.mp hnull with hnull | hnull
    · exact absurd hnull (by decide)
    · exact (h step hstep).noNull hnull

/-- The name of a place ends with its last step, so with a slash only at the root. -/
theorem getLast?_nameOf (h : ∀ step ∈ place, IsStep step) (hne : place ≠ []) :
    (nameOf place).toList.getLast? ≠ some '/' := by
  obtain rfl | ⟨front, step, rfl⟩ := List.eq_nil_or_concat' place
  · exact absurd rfl hne
  · have hstep := h step (List.mem_append_right front (List.mem_singleton_self step))
    rw [nameOf_toList hne, List.map_append, List.flatMap_append, List.map_singleton,
      List.flatMap_singleton, List.getLast?_append_of_ne_nil _ (List.cons_ne_nil _ _),
      List.getLast?_cons_of_ne_nil hstep.ne_nil]
    intro hlast
    exact hstep.noSlash (List.mem_of_getLast? hlast)

/-- A place with more steps has a longer name. -/
theorem utf8ByteSize_nameOf_le {shorter : List String} (hne : shorter ≠ [])
    (h : shorter.Sublist place) : (nameOf shorter).utf8ByteSize ≤ (nameOf place).utf8ByteSize := by
  have hplace : place ≠ [] := by
    rintro rfl
    exact hne (List.sublist_nil.mp h)
  rw [← String.utf8Len_toList, ← String.utf8Len_toList, nameOf_toList hne, nameOf_toList hplace]
  exact String.utf8Len_le_of_sublist ((h.map String.toList).flatMap _)

end Path

/-! ## Where a path leads -/

namespace Path

/-- The parts of a written path are steps, also up. -/
theorem isStep_ofText {text part : String} (h : part ∈ (ofText text).parts)
    (hnull : '\x00' ∉ part.toList) : part = ".." ∨ IsStep part := by
  obtain ⟨hsteps, hhere⟩ := List.mem_filter.mp h
  obtain ⟨field, hfield, rfl⟩ := List.mem_map.mp hsteps
  obtain ⟨hfield, hne⟩ := List.mem_filter.mp hfield
  have hslash := Text.separator_notMem_fields '/' text.toList field hfield
  refine (em _).imp_right fun habove => ⟨?_, ?_, hnull, of_decide_eq_true hhere, habove⟩
  · rw [String.toList_ofList]
    exact of_decide_eq_true hne
  · rwa [String.toList_ofList]

/-- A step that is written alone is a path of one part. -/
theorem ofText_step {step : String} (h : IsStep step) : ofText step = ⟨.here, [step]⟩ := by
  have hfields : Text.fields '/' step.toList = [step.toList] := by
    have hend : Text.fields '/' [] = [[]] := rfl
    have hsplit := Text.fields_append h.noSlash hend
    rwa [List.append_nil] at hsplit
  have hsteps : steps step.toList = [step] := by
    simp [steps, hfields, h.ne_nil]
  have hslashes : step.toList.takeWhile (· = '/') = [] := by
    have hhead : ∀ c ∈ step.toList, c ≠ '/' := fun c hc hslash => h.noSlash (hslash ▸ hc)
    cases hchars : step.toList with
    | nil => rfl
    | cons c rest => simp [hhead c (by simp [hchars])]
  simp [ofText, hslashes, hsteps, h.ne_here]

/-- A path leads along steps. -/
theorem isStep_resolve {path : Path} {directory : List String}
    (hparts : ∀ part ∈ path.parts, part = ".." ∨ IsStep part)
    (hd : ∀ step ∈ directory, IsStep step) :
    ∀ step ∈ path.resolve directory, IsStep step := by
  refine List.foldlRecOn (motive := fun place => ∀ step ∈ place, IsStep step) path.parts _ ?_ ?_
  · split_ifs
    · exact hd
    · nofun
  · intro place hplace part hpart
    split_ifs with habove
    · exact fun step hstep => hplace step (List.dropLast_subset place hstep)
    · intro step hstep
      rcases List.mem_append.mp hstep with hstep | hstep
      · exact hplace step hstep
      · rw [List.mem_singleton.mp hstep]
        exact (hparts part hpart).resolve_left habove

end Path

/-! ## Trees of files -/

namespace Disk

/-- Every entry has a name that a file can have, and stands in a directory. So does the place
where one stands. -/
structure IsTree (disk : Disk) : Prop where
  named : ∀ e ∈ disk.entries, e.1 ≠ [] ∧
    ∀ step ∈ e.1, Path.IsStep step ∧ step.utf8ByteSize ≤ longestStep
  held : ∀ e ∈ disk.entries, disk.entry? e.1.dropLast = some .directory
  working : disk.entry? disk.working = some .directory

instance (disk : Disk) : Decidable disk.IsTree :=
  decidable_of_iff ((∀ e ∈ disk.entries, e.1 ≠ [] ∧
      ∀ step ∈ e.1, Path.IsStep step ∧ step.utf8ByteSize ≤ longestStep) ∧
      (∀ e ∈ disk.entries, disk.entry? e.1.dropLast = some .directory) ∧
      disk.entry? disk.working = some .directory)
    ⟨fun h => ⟨h.1, h.2.1, h.2.2⟩, fun h => ⟨h.named, h.held, h.working⟩⟩

variable {disk : Disk} {place start steps : List String} {entry : Entry}

theorem exists_of_entry? (h : disk.entry? place ≠ none) : place = [] ∨
    ∃ e ∈ disk.entries, e.1 = place := by
  unfold entry? at h
  split_ifs at h with hnil
  · exact .inl hnil
  · obtain ⟨entry, hentry⟩ := Option.ne_none_iff_exists'.mp h
    obtain ⟨before, behind, hsplit, -⟩ := List.lookup_eq_some_iff.mp hentry
    exact .inr ⟨(place, entry), hsplit ▸ List.mem_append_right before List.mem_cons_self, rfl⟩

namespace IsTree

theorem step (ht : disk.IsTree) (h : disk.entry? place ≠ none) :
    ∀ step ∈ place, Path.IsStep step ∧ step.utf8ByteSize ≤ longestStep := by
  obtain rfl | ⟨e, he, rfl⟩ := exists_of_entry? h
  · nofun
  · exact (ht.named e he).2

/-- Nothing stands at a place with a step that is too long. -/
theorem entry?_of_long (ht : disk.IsTree) {step : String} (hm : step ∈ place)
    (hlong : longestStep < step.utf8ByteSize) : disk.entry? place = none := by
  by_contra hsome
  exact absurd (ht.step hsome step hm).2 (Nat.not_le.mpr hlong)

/-- What stands above an entry is a directory. -/
theorem above (ht : disk.IsTree) {below : List String} (hne : below ≠ [])
    (h : disk.entry? (place ++ below) ≠ none) : disk.entry? place = some .directory := by
  induction below using List.reverseRecOn with
  | nil => exact absurd rfl hne
  | append_singleton below step ih =>
    rw [← List.append_assoc] at h
    have hdirectory : disk.entry? (place ++ below) = some .directory := by
      obtain hnil | ⟨e, he, hplace⟩ := exists_of_entry? h
      · exact absurd hnil (by simp)
      · have hheld := ht.held e he
        rwa [hplace, List.dropLast_concat] at hheld
    cases below with
    | nil => rwa [List.append_nil] at hdirectory
    | cons first rest => exact ih (List.cons_ne_nil _ _) (by rw [hdirectory]; exact nofun)

end IsTree

/-! ## Walks from the root -/

/-- A step in a directory, where the rest leads on. -/
theorem walk_step {step : String} {rest : List String} (hstep : Path.IsStep step)
    (hd : disk.entry? start = some .directory) :
    disk.walk start (step :: rest) =
      if longestStep < step.utf8ByteSize then .error .nameTooLong
      else if rest = [] ∧ disk.entry? (start ++ [step]) = none then
        .ok (.vacant (start ++ [step]) false)
      else disk.walk (start ++ [step]) rest := by
  rw [walk_cons hd, if_neg hstep.ne_here, if_neg hstep.ne_above]

/-- In a tree a walk leads to every entry. -/
theorem walk_of_entry (ht : disk.IsTree) (h : disk.entry? (start ++ steps) = some entry) :
    disk.walk start steps = .ok (.occupied (start ++ steps) entry) := by
  induction steps generalizing start with
  | nil =>
    rw [List.append_nil] at h ⊢
    rw [walk, h]
  | cons step rest ih =>
    have hsome : disk.entry? (start ++ step :: rest) ≠ none := by
      rw [h]
      exact Option.some_ne_none entry
    obtain ⟨hstep, hshort⟩ := ht.step hsome step (List.mem_append_right start List.mem_cons_self)
    have hsplit : start ++ step :: rest = (start ++ [step]) ++ rest := by simp
    have hdirectory := ht.above (List.cons_ne_nil step rest) hsome
    have hoccupied : ¬ (rest = [] ∧ disk.entry? (start ++ [step]) = none) := by
      rintro ⟨rfl, hnone⟩
      exact hsome hnone
    rw [walk_step hstep hdirectory, if_neg (Nat.not_lt.mpr hshort), if_neg hoccupied, hsplit]
    exact ih (hsplit ▸ h)

/-- A walk of proper steps leads nowhere but to the place that they name. -/
theorem place_of_walk (hs : ∀ step ∈ steps, Path.IsStep step) {found : List String}
    (h : disk.walk start steps = .ok (.occupied found entry)) :
    disk.entry? (start ++ steps) = some entry := by
  induction steps generalizing start with
  | nil =>
    obtain ⟨other, hother, heq⟩ := walk_nil h
    rw [List.append_nil, hother, (Spot.occupied.inj heq).2]
  | cons step rest ih =>
    obtain ⟨hstep, hrest⟩ := List.forall_mem_cons.mp hs
    rw [walk_step hstep (directory_of_walk h)] at h
    split_ifs at h with hlong hfree
    · cases h
    · have hentry := ih hrest h
      rwa [List.append_assoc, List.singleton_append] at hentry

/-! ## Names that are too long -/

/-- A step that is too long is met where it is taken in a directory. -/
theorem walk_of_long (ht : disk.IsTree) {step : String} (hstep : Path.IsStep step)
    (hlong : longestStep < step.utf8ByteSize)
    (hd : disk.entry? (start ++ steps) = some .directory) (more : List String) :
    disk.walk start (steps ++ step :: more) = .error .nameTooLong := by
  induction steps generalizing start with
  | nil =>
    rw [List.append_nil] at hd
    rw [List.nil_append, walk_step hstep hd, if_pos hlong]
  | cons first rest ih =>
    have hsome : disk.entry? (start ++ first :: rest) ≠ none := by
      rw [hd]
      exact nofun
    obtain ⟨hfirst, hshort⟩ :=
      ht.step hsome first (List.mem_append_right start List.mem_cons_self)
    have hdirectory := ht.above (List.cons_ne_nil first rest) hsome
    rw [List.cons_append, walk_step hfirst hdirectory, if_neg (Nat.not_lt.mpr hshort),
      if_neg fun h => List.append_ne_nil_of_right_ne_nil rest (List.cons_ne_nil step more) h.1]
    apply ih
    rwa [List.append_assoc, List.singleton_append]

/-- A walk is too long only for a step that is taken in a directory. -/
theorem long_of_walk (hs : ∀ step ∈ steps, Path.IsStep step)
    (h : disk.walk start steps = .error .nameTooLong) :
    ∃ above step, above ++ [step] <+: start ++ steps ∧ disk.entry? above = some .directory ∧
      longestStep < step.utf8ByteSize := by
  induction steps generalizing start with
  | nil =>
    unfold walk at h
    cases he : disk.entry? start with
    | none => simp [he] at h
    | some entry => simp [he] at h
  | cons step rest ih =>
    obtain ⟨hstep, hrest⟩ := List.forall_mem_cons.mp hs
    cases hd : disk.entry? start with
    | none => simp [walk, hd] at h
    | some entry =>
      cases entry with
      | file octets => simp [walk, hd] at h
      | directory =>
        rw [walk_step hstep hd] at h
        split_ifs at h with hlong hfree
        · refine ⟨start, step, ?_, hd, hlong⟩
          exact ⟨rest, by simp⟩
        · have hrest' := ih hrest h
          rwa [List.append_assoc, List.singleton_append] at hrest'

/-- The name of a place is refused: it is too long, or a step that is taken in a directory is. -/
def Refuses (disk : Disk) (place : List String) : Prop :=
  longestName < (Path.nameOf place).utf8ByteSize ∨
    ∃ above step, above ++ [step] <+: place ∧ disk.entry? above = some .directory ∧
      longestStep < step.utf8ByteSize

theorem Refuses.congr {other : Disk} (h : other.Refuses place)
    (hsame : ∀ above step, above ++ [step] <+: place → other.entry? above = disk.entry? above) :
    disk.Refuses place := by
  obtain hlong | ⟨above, step, hstep, hd, hlong⟩ := h
  · exact .inl hlong
  · exact .inr ⟨above, step, hstep, (hsame above step hstep) ▸ hd, hlong⟩

/-- The name of a place leads where a walk from the root does, if it is not too long. -/
theorem status_nameOf (hs : ∀ step ∈ place, Path.IsStep step) :
    disk.status (Path.nameOf place) =
      if longestName < (Path.nameOf place).utf8ByteSize then .error .nameTooLong
      else match disk.walk [] place with
        | .error fault => .error fault
        | .ok (.occupied _ entry) => .ok entry
        | .ok (.vacant _ _) => .error .noEntry := by
  have hhead := Path.head?_nameOf place
  have hne : (Path.nameOf place).toList ≠ [] := by
    intro hnil
    rw [hnil] at hhead
    cases hhead
  unfold status find
  simp only [if_neg (Path.null_notMem_nameOf hs), if_neg hne, hhead, if_pos, Path.steps_nameOf hs]
  by_cases hlong : longestName < (Path.nameOf place).utf8ByteSize
  · rw [if_pos hlong, if_pos hlong]
  · rw [if_neg hlong, if_neg hlong]
    cases hw : disk.walk [] place with
    | error fault => rfl
    | ok spot =>
      cases spot with
      | vacant found asDirectory => rfl
      | occupied found entry =>
        cases entry with
        | directory => rfl
        | file octets =>
          have hplace : place ≠ [] := by
            rintro rfl
            obtain ⟨other, hother, heq⟩ := walk_nil hw
            rw [entry?_nil, ← (Spot.occupied.inj heq).2] at hother
            cases hother
          simp [Path.getLast?_nameOf hs hplace]

/-- What is not refused below a place is not refused above it. -/
theorem not_refuses_above {base : List String} {last : String}
    (hshort : last.utf8ByteSize ≤ longestStep) (h : ¬ disk.Refuses (base ++ [last]))
    (hplace : place <+: base) : ¬ disk.Refuses (place ++ [last]) := by
  rintro (hlong | ⟨above, step, hstep, hd, hlong⟩)
  · refine h (.inl (hlong.trans_le (Path.utf8ByteSize_nameOf_le ?_ ?_)))
    · exact List.append_ne_nil_of_right_ne_nil place (List.cons_ne_nil last [])
    · exact hplace.sublist.append_right [last]
  · obtain heq | habove := List.prefix_concat_iff.mp hstep
    · obtain rfl := List.singleton_inj.mp (List.append_inj' heq rfl).2
      omega
    · exact h (.inr ⟨above, step, (habove.trans hplace).trans (List.prefix_append base [last]), hd,
        hlong⟩)

theorem refuses_iff (ht : disk.IsTree) (hs : ∀ step ∈ place, Path.IsStep step) :
    disk.Refuses place ↔ disk.status (Path.nameOf place) = .error .nameTooLong := by
  rw [Refuses, status_nameOf hs]
  split_ifs with hlong
  · exact iff_of_true (.inl hlong) rfl
  · rw [or_iff_right hlong]
    constructor
    · rintro ⟨above, step, ⟨more, hplace⟩, hd, hstep⟩
      have hproper : Path.IsStep step := hs step (by rw [← hplace]; simp)
      have hfrom : disk.entry? ([] ++ above) = some .directory := hd
      have hwalk := walk_of_long ht hproper hstep hfrom more
      rw [← hplace, List.append_assoc, List.singleton_append, hwalk]
    · intro h
      cases hw : disk.walk [] place with
      | ok spot => cases spot <;> simp [hw] at h
      | error fault =>
        have hlongWalk : disk.walk [] place = .error .nameTooLong := by
          simpa [hw] using h
        exact long_of_walk hs hlongWalk

/-- In a tree a name that is not refused leads to what stands at its place. -/
theorem status_of_not_refuses (ht : disk.IsTree) (hs : ∀ step ∈ place, Path.IsStep step)
    (h : ¬ disk.Refuses place) :
    (∃ entry, disk.entry? place = some entry ∧ disk.status (Path.nameOf place) = .ok entry) ∨
      (disk.entry? place = none ∧ ∃ fault, fault ≠ .nameTooLong ∧
        disk.status (Path.nameOf place) = .error fault) := by
  have hstatus : disk.status (Path.nameOf place) = _ := status_nameOf hs
  rw [if_neg fun hlong => h (.inl hlong)] at hstatus
  cases he : disk.entry? place with
  | some entry =>
    have hwalk : disk.walk [] place = .ok (.occupied place entry) := walk_of_entry ht he
    rw [hwalk] at hstatus
    exact .inl ⟨entry, rfl, hstatus⟩
  | none =>
    refine .inr ⟨rfl, ?_⟩
    cases hst : disk.status (Path.nameOf place) with
    | error fault =>
      refine ⟨fault, ?_, rfl⟩
      rintro rfl
      exact h ((refuses_iff ht hs).mpr hst)
    | ok entry =>
      exfalso
      rw [hst] at hstatus
      cases hw : disk.walk [] place with
      | error fault => simp [hw] at hstatus
      | ok spot =>
        cases spot with
        | vacant found asDirectory => simp [hw] at hstatus
        | occupied found other =>
          have hentry := place_of_walk hs hw
          rw [List.nil_append, he] at hentry
          cases hentry

/-- A test on the name of a place, if it is not refused, is one on what stands there. -/
theorem test_nameOf (ht : disk.IsTree) (hs : ∀ step ∈ place, Path.IsStep step)
    (h : ¬ disk.Refuses place) (holds : Entry → Bool) :
    disk.test holds (Path.nameOf place) = .ok ((disk.entry? place).any holds) := by
  unfold test
  obtain ⟨entry, hentry, hstatus⟩ | ⟨hnone, fault, hfault, hstatus⟩ :=
    status_of_not_refuses ht hs h
  · rw [hstatus, hentry]
    rfl
  · rw [hstatus, hnone]
    cases fault with
    | nameTooLong => exact absurd rfl hfault
    | _ => rfl

theorem test_of_refuses (ht : disk.IsTree) (hs : ∀ step ∈ place, Path.IsStep step)
    (h : disk.Refuses place) (holds : Entry → Bool) :
    disk.test holds (Path.nameOf place) = .error .nameTooLong := by
  rw [test, (refuses_iff ht hs).mp h]

/-- What is read from an entry. -/
def Entry.content : Entry → Except Fault (List UInt8)
  | .file octets => .ok octets
  | .directory => .error .isDirectory

/-- What is read under the name of an entry is what stands there. -/
theorem read_nameOf (ht : disk.IsTree) (h : disk.entry? place = some entry)
    (hr : ¬ disk.Refuses place) : disk.read (Path.nameOf place) = entry.content := by
  have hsome : disk.entry? place ≠ none := by
    rw [h]
    exact nofun
  have hs : ∀ step ∈ place, Path.IsStep step := fun step hm => (ht.step hsome step hm).1
  obtain ⟨other, hother, hstatus⟩ | ⟨hnone, -⟩ := status_of_not_refuses ht hs hr
  · obtain rfl := Option.some.inj (h.symm.trans hother)
    rw [read, hstatus]
    cases entry <;> rfl
  · exact absurd hnone hsome

end Disk

end Offside
