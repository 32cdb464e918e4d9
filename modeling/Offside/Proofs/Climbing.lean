import Offside.Filing
import Offside.Proofs.Places

/-!
# The climb to a document

A document is searched for in a directory and in those above it. The search ends at the deepest
that has one.

- `Disk.IsNearest`: the deepest of the directories above a place that have a document.
- `Disk.Climbs`: the search as a climb that counts nothing, with the root as its own parent.
- `Disk.climbs_firstDocument`: the climb ends, and ends as the search does.
- `Disk.firstDocument_cases`: it ends at the nearest document, or there is none.
-/
namespace Offside

set_option autoImplicit false

namespace Path

theorem parent_ofPlace_concat (place : List String) (step : String) :
    (ofPlace (place ++ [step])).parent = ofPlace place := by
  rw [parent, ofPlace, ofPlace, List.dropLast_concat]

theorem ofPlace_injective : Function.Injective ofPlace := by
  intro place other h
  exact congrArg Path.parts h

end Path

namespace Disk

variable {disk other : Disk} {base place near : List String}

/-! ## The nearest of the documents -/

/-- The document that belongs to a directory. -/
def documentOf (place : List String) : Path := (Path.ofPlace place).child documentName

/-- What stands where the document of a directory does. -/
def document? (disk : Disk) (place : List String) : Option Entry :=
  disk.entry? (place ++ [documentName])

/-- The place is the deepest from the base up that has a document. -/
structure IsNearest (disk : Disk) (base place : List String) : Prop where
  above : place <+: base
  holds : disk.document? place ≠ none
  deepest : ∀ other, other <+: base → disk.document? other ≠ none → other <+: place

theorem IsNearest.unique (h : disk.IsNearest base place) (h' : disk.IsNearest base near) :
    place = near :=
  (h'.deepest place h.above h.holds).eq_of_length_le (h.deepest near h'.above h'.holds).length_le

theorem IsNearest.self (h : disk.document? base ≠ none) : disk.IsNearest base base where
  above := List.prefix_rfl
  holds := h
  deepest _ hother _ := hother

/-- Below a directory without a document nothing changes. -/
theorem IsNearest.concat {step : String} (h : disk.IsNearest base place)
    (hnone : disk.document? (base ++ [step]) = none) :
    disk.IsNearest (base ++ [step]) place where
  above := h.above.trans (List.prefix_append base [step])
  holds := h.holds
  deepest other hother hholds := by
    obtain rfl | hother := List.prefix_concat_iff.mp hother
    · exact absurd hnone hholds
    · exact h.deepest other hother hholds

/-- A nearest document stays the nearest where no document from it down to the base is changed. -/
theorem IsNearest.congr (h : disk.IsNearest base near)
    (hsame : ∀ place, place <+: base → near <+: place → other.document? place = disk.document? place) :
    other.IsNearest base near where
  above := h.above
  holds := by
    rw [hsame near h.above List.prefix_rfl]
    exact h.holds
  deepest place hplace hholds := by
    obtain hle | hge := List.prefix_or_prefix_of_prefix hplace h.above
    · exact hle
    · rw [hsame place hplace hge] at hholds
      exact h.deepest place hplace hholds

/-! ## The climb -/

/-- The search climbs from a path to its parent until a document is found or the path is its own
parent. -/
inductive Climbs (disk : Disk) : Path → Except Failure Path → Prop
  | found {path : Path} (h : disk.exists? (path.child documentName).text = .ok true) :
      Climbs disk path (.ok (path.child documentName))
  | refused {path : Path} {fault : Fault}
      (h : disk.exists? (path.child documentName).text = .error fault) :
      Climbs disk path (.error (.disk fault (path.child documentName).text))
  | top {path : Path} (h : disk.exists? (path.child documentName).text = .ok false)
      (htop : path.parent = path) : Climbs disk path (.error .noDocument)
  | up {path : Path} {result : Except Failure Path}
      (h : disk.exists? (path.child documentName).text = .ok false)
      (hup : path.parent ≠ path) (hrest : Climbs disk path.parent result) :
      Climbs disk path result

/-- A climb ends in one way, as no two rules ask for the same answer of the test and the same
parent. -/
theorem Climbs.unique {path : Path} {result result' : Except Failure Path}
    (h : Climbs disk path result) (h' : Climbs disk path result') : result = result' := by
  induction h with
  | found h =>
    cases h' with
    | found h' => rfl
    | _ h' => rw [h] at h'; cases h'
  | refused h =>
    cases h' with
    | refused h' =>
      rw [h] at h'
      cases h'
      rfl
    | _ h' => rw [h] at h'; cases h'
  | top h htop =>
    cases h' with
    | top h' htop' => rfl
    | up h' hup' => exact absurd htop hup'
    | _ h' => rw [h] at h'; cases h'
  | up h hup hrest ih =>
    cases h' with
    | top h' htop' => exact absurd htop' hup
    | up h' hup' hrest' => exact ih hrest'
    | _ h' => rw [h] at h'; cases h'

theorem upward_concat (place : List String) (step : String) :
    upward (place ++ [step]) = (place ++ [step]) :: upward place := by
  have htop : (place ++ [step]).take (place.length + 1) = place ++ [step] :=
    List.take_of_length_le (by simp)
  have hrest : (List.range (place.length + 1)).reverse.map (fun n => (place ++ [step]).take n) =
      (List.range (place.length + 1)).reverse.map fun n => place.take n := by
    refine List.map_congr_left fun n hn => ?_
    rw [List.mem_reverse, List.mem_range] at hn
    exact List.take_append_of_le_length (Nat.le_of_lt_succ hn)
  rw [upward, List.length_append, List.length_singleton, List.range_succ, List.reverse_append,
    List.reverse_singleton, List.singleton_append, List.map_cons, htop, hrest]
  rfl

/-- The list of places from a base up begins with the base. -/
theorem exists_upward (base : List String) : ∃ rest, upward base = base :: rest := by
  obtain rfl | ⟨place, step, rfl⟩ := List.eq_nil_or_concat' base
  · exact ⟨[], rfl⟩
  · exact ⟨upward place, upward_concat place step⟩

theorem firstDocument_cons (disk : Disk) (place : List String) (rest : List (List String)) :
    disk.firstDocument (place :: rest) = match disk.exists? (documentOf place).text with
      | .error fault => .error (.disk fault (documentOf place).text)
      | .ok true => .ok (documentOf place)
      | .ok false => disk.firstDocument rest := rfl

/-- Where the test on a document tells what stands there, the search ends at the document or goes
on without it. -/
theorem firstDocument_of_test (htest : disk.exists? (documentOf place).text =
      .ok (disk.document? place).isSome) (rest : List (List String)) :
    disk.firstDocument (place :: rest) = match disk.document? place with
      | some _ => .ok (documentOf place)
      | none => disk.firstDocument rest := by
  rw [firstDocument_cons, htest]
  cases disk.document? place <;> rfl

/-- The climb from a place ends as the search along the places above does. -/
theorem climbs_firstDocument (disk : Disk) (base : List String) :
    Climbs disk (Path.ofPlace base) (disk.firstDocument (upward base)) := by
  induction base using List.reverseRecOn with
  | nil =>
    rw [show upward [] = [[]] from rfl, firstDocument]
    cases h : disk.exists? ((Path.ofPlace []).child documentName).text with
    | error fault => exact .refused h
    | ok found =>
      cases found with
      | true => exact .found h
      | false => exact .top h rfl
  | append_singleton place step ih =>
    rw [upward_concat, firstDocument]
    cases h : disk.exists? ((Path.ofPlace (place ++ [step])).child documentName).text with
    | error fault => exact .refused h
    | ok found =>
      cases found with
      | true => exact .found h
      | false =>
        refine .up h ?_ ?_
        · rw [Path.parent_ofPlace_concat]
          intro heq
          have hlength := congrArg List.length (Path.ofPlace_injective heq)
          simp at hlength
        · rwa [Path.parent_ofPlace_concat]

/-- Where the test on every document from the base up tells what stands there, the search finds
the nearest, or there is none. -/
theorem firstDocument_cases (htest : ∀ place, place <+: base →
      disk.exists? (documentOf place).text = .ok (disk.document? place).isSome) :
    (∃ near, disk.IsNearest base near ∧ disk.firstDocument (upward base) = .ok (documentOf near)) ∨
      ((∀ place, place <+: base → disk.document? place = none) ∧
        disk.firstDocument (upward base) = .error .noDocument) := by
  induction base using List.reverseRecOn with
  | nil =>
    rw [show upward [] = [[]] from rfl, firstDocument_of_test (htest [] List.prefix_rfl)]
    cases h : disk.document? [] with
    | some entry => exact .inl ⟨[], .self (by rw [h]; exact nofun), rfl⟩
    | none =>
      refine .inr ⟨fun place hplace => ?_, rfl⟩
      rwa [List.prefix_nil.mp hplace]
  | append_singleton place step ih =>
    have hrest := ih fun above habove => htest above (habove.trans (List.prefix_append place [step]))
    rw [upward_concat, firstDocument_of_test (htest _ List.prefix_rfl)]
    cases h : disk.document? (place ++ [step]) with
    | some entry => exact .inl ⟨_, .self (by rw [h]; exact nofun), rfl⟩
    | none =>
      obtain ⟨near, hnear, hfound⟩ | ⟨hnone, hfound⟩ := hrest
      · exact .inl ⟨near, hnear.concat h, hfound⟩
      · refine .inr ⟨fun above habove => ?_, hfound⟩
        obtain rfl | habove := List.prefix_concat_iff.mp habove
        · exact h
        · exact hnone above habove

end Disk

end Offside
