import Mathlib.Tactic.SplitIfs
import Offside.Disk
import Offside.Proofs.Octets

/-!
# Writing a file

A file is written where its name leads. The name leads there afterwards, the text is read again
from it, and nothing else changes.

- `Disk.LeadsTo`: a name leads to a file, or to a place where one can be made.
- `Disk.walk_put`, `Disk.find_put`: the steps to a file that is put lead to it.
- `Disk.Wrote`: a tree becomes another as one file is written.
-/
namespace Offside

set_option autoImplicit false

open Text

namespace Disk

/-! ## Where a name leads -/

/-- A file stands at the place, or one can be made there. -/
inductive Spot.FileAt (place : List String) : Spot → Prop
  | held (octets : List UInt8) : FileAt place (.occupied place (.file octets))
  | free : FileAt place (.vacant place false)

/-- A name leads to a file, or to a place where one can be made. -/
def LeadsTo (disk : Disk) (name : String) (place : List String) : Prop :=
  ∃ spot, disk.find name = .ok spot ∧ spot.FileAt place

theorem entry?_nil (disk : Disk) : disk.entry? [] = some .directory := rfl

/-- Where the entries of one key are replaced, those of the others are found as before. -/
theorem lookup_replace {α β : Type} [DecidableEq α] [BEq α] [LawfulBEq α] (l : List (α × β))
    (a : α) (b : β) (x : α) : (l.map fun e => if e.1 = a then (a, b) else e).lookup x =
      if x = a then (l.lookup a).map fun _ => b else l.lookup x := by
  induction l with
  | nil => simp
  | cons e l ih =>
    obtain ⟨y, c⟩ := e
    rw [List.map_cons]
    by_cases hy : y = a
    · subst hy
      by_cases hx : x = y
      · simp [hx]
      · simp [hx, List.lookup_cons, ih, beq_false_of_ne hx]
    · by_cases hx : x = a
      · subst hx
        simp [List.lookup_cons, ih, hy, beq_false_of_ne (Ne.symm hy)]
      · simp [List.lookup_cons, ih, hy, hx]

/-- What stands at a place after an entry is put at one. -/
theorem entry?_put (disk : Disk) {place : List String} (hp : place ≠ []) (entry : Entry)
    (other : List String) :
    entry? (disk.put place entry) other =
      if other = place then some entry else disk.entry? other := by
  unfold put entry?
  by_cases ho : other = []
  · rw [if_pos ho, if_neg (by rintro rfl; exact hp ho), if_pos ho]
  rw [if_neg ho, if_neg ho]
  by_cases hfound : (disk.entries.lookup place).isSome = true
  · obtain ⟨old, hold⟩ := Option.isSome_iff_exists.mp hfound
    rw [if_pos hfound, lookup_replace, hold, Option.map_some]
  · have hnone := Option.not_isSome_iff_eq_none.mp hfound
    rw [if_neg hfound, List.lookup_append]
    by_cases hsame : other = place
    · rw [if_pos hsame, hsame, hnone, Option.none_or, List.lookup_cons_self]
    · rw [if_neg hsame, List.lookup_cons, beq_false_of_ne hsame, List.lookup_nil, Option.or_none]

theorem working_put (disk : Disk) (place : List String) (entry : Entry) :
    (disk.put place entry).working = disk.working := by
  unfold put
  split <;> rfl

/-! ## Steps -/

variable {disk : Disk} {start place rest steps : List String} {step : String} {spot : Spot}

theorem walk_nil (he : disk.walk start [] = .ok spot) :
    ∃ entry, disk.entry? start = some entry ∧ spot = .occupied start entry := by
  unfold walk at he
  cases hs : disk.entry? start with
  | none => simp [hs] at he
  | some entry =>
    rw [hs] at he
    exact ⟨entry, rfl, (Except.ok.inj he).symm⟩

/-- A step is taken in a directory. -/
theorem directory_of_walk (h : disk.walk start (step :: rest) = .ok spot) :
    disk.entry? start = some .directory := by
  unfold walk at h
  cases he : disk.entry? start with
  | none => simp [he] at h
  | some entry =>
    cases entry with
    | file octets => simp [he] at h
    | directory => rfl

theorem walk_cons (he : disk.entry? start = some .directory) :
    disk.walk start (step :: rest) =
      if step = "." then disk.walk start rest
      else if step = ".." then disk.walk start.dropLast rest
      else if longestStep < step.utf8ByteSize then .error .nameTooLong
      else if rest = [] ∧ disk.entry? (start ++ [step]) = none then
        .ok (.vacant (start ++ [step]) false)
      else disk.walk (start ++ [step]) rest := by
  rw [walk, he]

/-- A walk ends at an entry, or at a place where none stands. -/
theorem spot_of_walk (h : disk.walk start steps = .ok spot) :
    (∃ place entry, spot = .occupied place entry ∧ disk.entry? place = some entry) ∨
      ∃ place, spot = .vacant place false ∧ disk.entry? place = none := by
  induction steps generalizing start with
  | nil =>
    obtain ⟨entry, he, rfl⟩ := walk_nil h
    exact .inl ⟨start, entry, rfl, he⟩
  | cons step rest ih =>
    rw [walk_cons (directory_of_walk h)] at h
    split_ifs at h with hdot hdots hlong hfree
    · exact ih h
    · exact ih h
    · exact .inr ⟨_, (Except.ok.inj h).symm, hfree.2⟩
    · exact ih h

/-- No directory stands where a file does or can be made. -/
theorem entry?_of_walk (h : disk.walk start steps = .ok spot) (hs : spot.FileAt place) :
    disk.entry? place ≠ some .directory := by
  obtain ⟨place, entry, rfl, he⟩ | ⟨place, rfl, he⟩ := spot_of_walk h
  · cases hs
    simp [he]
  · cases hs
    simp [he]

theorem ne_nil_of_ne_directory (h : disk.entry? place ≠ some .directory) : place ≠ [] := by
  rintro rfl
  exact h disk.entry?_nil

/-- Where a file is put, the same steps lead to it. -/
theorem walk_put (h : disk.walk start steps = .ok spot) (hs : spot.FileAt place)
    (octets : List UInt8) :
    (disk.put place (.file octets)).walk start steps =
      .ok (.occupied place (.file octets)) := by
  have hplace := entry?_of_walk h hs
  have hput := disk.entry?_put (ne_nil_of_ne_directory hplace) (.file octets)
  have hend : (disk.put place (.file octets)).walk place [] =
      .ok (.occupied place (.file octets)) := by
    rw [walk, hput, if_pos rfl]
  induction steps generalizing start with
  | nil =>
    obtain ⟨entry, he, rfl⟩ := walk_nil h
    cases hs
    exact hend
  | cons step rest ih =>
    have hdirectory := directory_of_walk h
    -- the place of the file is passed by no step, as no directory stands there
    have hstart : start ≠ place := by
      rintro rfl
      exact hplace hdirectory
    rw [walk_cons hdirectory] at h
    rw [walk_cons (by rw [hput, if_neg hstart, hdirectory])]
    split_ifs at h with hdot hdots hlong hfree
    · rw [if_pos hdot]
      exact ih h
    · rw [if_neg hdot, if_pos hdots]
      exact ih h
    · obtain rfl := Except.ok.inj h
      cases hs
      rw [if_neg hdot, if_neg hdots, if_neg hlong, if_neg (by simp [hput]), hfree.1]
      exact hend
    · have hfree' : ¬ (rest = [] ∧
          entry? (disk.put place (.file octets)) (start ++ [step]) = none) := by
        rintro ⟨hrest, hnone⟩
        rw [hput] at hnone
        split_ifs at hnone
        exact hfree ⟨hrest, hnone⟩
      rw [if_neg hdot, if_neg hdots, if_neg hlong, if_neg hfree']
      exact ih h

/-! ## Names -/

/-- The directory that the steps of a name start at. -/
def firstPlace (disk : Disk) (name : String) : List String :=
  if name.toList.head? = some '/' then [] else disk.working

/-- A name that some file could have. -/
def Sayable (name : String) : Prop :=
  '\x00' ∉ name.toList ∧ name.toList ≠ [] ∧ ¬ longestName < name.utf8ByteSize ∧
    name.toList.getLast? ≠ some '/'

theorem find_of_walk {name : String} (hn : Sayable name)
    (h : disk.walk (disk.firstPlace name) (Path.steps name.toList) = .ok spot) :
    disk.find name = .ok spot := by
  obtain ⟨hnull, hempty, hlong, hlast⟩ := hn
  rw [firstPlace] at h
  unfold find
  simp only [if_neg hnull, if_neg hempty, if_neg hlong, h, if_neg hlast]
  obtain ⟨place, entry, rfl, -⟩ | ⟨place, rfl, -⟩ := spot_of_walk h
  · cases entry <;> rfl
  · simp [hlast]

theorem walk_of_leadsTo {name : String} (h : disk.LeadsTo name place) :
    Sayable name ∧ ∃ spot, disk.walk (disk.firstPlace name) (Path.steps name.toList) = .ok spot ∧
      spot.FileAt place := by
  obtain ⟨spot, hfind, hs⟩ := h
  unfold find at hfind
  simp only at hfind
  rw [← firstPlace] at hfind
  cases hw : disk.walk (disk.firstPlace name) (Path.steps name.toList) with
  | error fault =>
    rw [hw] at hfind
    split_ifs at hfind
  | ok found =>
    rw [hw] at hfind
    split_ifs at hfind with hnull hempty hlong hlast
    · exfalso
      obtain ⟨found, entry, rfl, -⟩ | ⟨found, rfl, -⟩ := spot_of_walk hw
      · cases entry with
        | file octets => cases hfind
        | directory =>
          obtain rfl := Except.ok.inj hfind
          cases hs
      · obtain rfl := Except.ok.inj hfind
        rw [decide_eq_true hlast] at hs
        cases hs
    · have hsame : found = spot := by
        obtain ⟨found, entry, rfl, -⟩ | ⟨found, rfl, -⟩ := spot_of_walk hw
        · cases entry <;> exact Except.ok.inj hfind
        · rw [← Except.ok.inj hfind, decide_eq_false hlast]
      exact ⟨⟨hnull, hempty, hlong, hlast⟩, found, rfl, hsame ▸ hs⟩

theorem find_put {name : String} (h : disk.LeadsTo name place) (octets : List UInt8) :
    (disk.put place (.file octets)).find name = .ok (.occupied place (.file octets)) := by
  obtain ⟨hn, spot, hw, hs⟩ := walk_of_leadsTo h
  have hput := walk_put hw hs octets
  rw [firstPlace, ← working_put disk place (.file octets)] at hput
  exact find_of_walk hn hput

/-! ## Writing -/

/-- A tree becomes another as one file is written: the file that the name leads to, or one made
where it leads. That file holds the text, and nothing else changes. -/
structure Wrote (before after : Disk) (name : String) (text : List Char) : Prop where
  only : ∃ place, before.LeadsTo name place ∧
    (∃ octets, after.find name = .ok (.occupied place (.file octets))) ∧
    ∀ other, other ≠ place → after.entry? other = before.entry? other
  holds : ∃ octets, after.read name = .ok octets ∧ Utf8.decode octets = .ok text
  working : after.working = before.working

theorem write_ok {name : String} {octets : List UInt8} {after : Disk}
    (h : disk.write name octets = .ok after) :
    ∃ place, disk.LeadsTo name place ∧ after = disk.put place (.file octets) := by
  unfold write at h
  split at h
  next => cases h
  next => cases h
  next => cases h
  next place old hfind =>
    exact ⟨place, ⟨_, hfind, .held old⟩, (Except.ok.inj h).symm⟩
  next place hfind =>
    exact ⟨place, ⟨_, hfind, .free⟩, (Except.ok.inj h).symm⟩

/-- Octets that are written are the ones that are read. -/
theorem wrote_of_write {name : String} {text : List Char} {after : Disk}
    (h : disk.write name (Utf8.encode text) = .ok after) : disk.Wrote after name text := by
  obtain ⟨place, hleads, rfl⟩ := write_ok h
  have hfind := find_put hleads (Utf8.encode text)
  have hplace : place ≠ [] := by
    obtain ⟨-, spot, hw, hs⟩ := walk_of_leadsTo hleads
    exact ne_nil_of_ne_directory (entry?_of_walk hw hs)
  refine ⟨⟨place, hleads, ⟨_, hfind⟩, fun other ho => ?_⟩, ⟨_, ?_, Utf8.decode_encode text⟩,
    working_put disk place _⟩
  · rw [entry?_put disk hplace, if_neg ho]
  · rw [read, status, hfind]

end Disk

end Offside
