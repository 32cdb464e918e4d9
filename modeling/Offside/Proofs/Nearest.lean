import Offside.Proofs.Climbing

/-!
# The nearest document

A search finds the document that is nearest to its start, and what stands anywhere else has no
influence on it. The settings that hold at the start are those of this document.

- `Disk.searchBase`: the place where a search begins.
- `Disk.Accepts`: the names that a search begins with are not refused.
- `Disk.FindsNearest`, `Disk.nearest_wins`: a search finds the nearest document, or is refused.
- `Disk.findDocument_of_long`: a start that is too long is refused.
-/
namespace Offside

set_option autoImplicit false

namespace Disk

variable {disk other : Disk} {base place near : List String}

/-! ## Where a search begins -/

/-- The place that a start leads to; without a start, the place where one stands. -/
def startPlace (disk : Disk) (start : Option Path) : List String :=
  (start.getD ⟨.here, []⟩).resolve disk.working

/-- The place where a search begins: the start, or the directory that holds the file there. -/
def searchBase (disk : Disk) (start : Option Path) : List String :=
  match disk.entry? (disk.startPlace start) with
  | some (.file _) => (disk.startPlace start).dropLast
  | _ => disk.startPlace start

/-- No part of the start holds a null character. -/
def NoNull (start : Option Path) : Prop :=
  ∀ part ∈ (start.getD ⟨.here, []⟩).parts, '\x00' ∉ part.toList

/-- The names that a search begins with are not refused: that of the start, and that of the
document where the search begins. -/
structure Accepts (disk : Disk) (start : Option Path) : Prop where
  noNull : NoNull start
  place : ¬ disk.Refuses (disk.startPlace start)
  document : ¬ disk.Refuses (disk.searchBase start ++ [documentName])

variable {start : Option Path}

theorem isStep_startPlace (ht : disk.IsTree) {start : Option String}
    (hnull : NoNull (start.map Path.ofText)) :
    ∀ step ∈ disk.startPlace (start.map Path.ofText), Path.IsStep step := by
  have hworking : disk.entry? disk.working ≠ none := by
    rw [ht.working]
    exact nofun
  refine Path.isStep_resolve (fun part hpart => ?_) fun step hstep => (ht.step hworking step hstep).1
  cases start with
  | none => exact absurd hpart List.not_mem_nil
  | some text => exact Path.isStep_ofText hpart (hnull part hpart)

/-- The base of a search is the place of the start, or the one above it. -/
theorem searchBase_above (disk : Disk) (start : Option Path) :
    disk.searchBase start <+: disk.startPlace start := by
  unfold searchBase
  split
  · exact List.dropLast_prefix _
  · exact List.prefix_rfl

theorem isStep_document (hs : ∀ step ∈ base, Path.IsStep step) (hplace : place <+: base) :
    ∀ step ∈ place ++ [documentName], Path.IsStep step := by
  intro step hstep
  rcases List.mem_append.mp hstep with hstep | hstep
  · exact hs step (hplace.subset hstep)
  · rw [List.mem_singleton.mp hstep]
    decide

/-- From the base up the test on a document tells what stands there. -/
theorem exists?_documentOf (ht : disk.IsTree) (hs : ∀ step ∈ base, Path.IsStep step)
    (h : ¬ disk.Refuses (base ++ [documentName])) (hplace : place <+: base) :
    disk.exists? (documentOf place).text = .ok (disk.document? place).isSome := by
  have hrefuses := not_refuses_above (by decide) h hplace
  have htest := test_nameOf ht (isStep_document hs hplace) hrefuses fun _ => true
  rwa [Option.any_true] at htest

theorem findDocument_of_noNull (hnull : NoNull start) :
    disk.findDocument start = match disk.isFile? (Path.nameOf (disk.startPlace start)) with
      | .error fault => .error (.disk fault (Path.nameOf (disk.startPlace start)))
      | .ok isFile => disk.firstDocument
          (upward (if isFile then (disk.startPlace start).dropLast else disk.startPlace start)) := by
  unfold NoNull at hnull
  unfold findDocument
  rw [if_neg (by simpa using hnull)]
  rfl

/-- A search whose start is not refused goes up from its base. -/
theorem findDocument_eq (ht : disk.IsTree) (hs : ∀ step ∈ disk.startPlace start, Path.IsStep step)
    (hnull : NoNull start) (hplace : ¬ disk.Refuses (disk.startPlace start)) :
    disk.findDocument start = disk.firstDocument (upward (disk.searchBase start)) := by
  have htest := test_nameOf ht hs hplace fun entry => entry ≠ .directory
  rw [findDocument_of_noNull hnull, isFile?, htest, searchBase]
  rcases disk.entry? (disk.startPlace start) with - | (octets | -) <;> rfl

/-! ## What a document holds -/

theorem loadSettings_congr {name : String} (h : other.read name = disk.read name) :
    other.loadSettings name = disk.loadSettings name := by
  rw [loadSettings, loadSettings, h]

/-- A document that is loaded fails as the disk does only if it cannot be read. -/
theorem read_of_loadSettings {name failed : String} {fault : Fault}
    (h : disk.loadSettings name = .error (.disk fault failed)) :
    disk.read name = .error fault := by
  unfold loadSettings at h
  cases hread : disk.read name with
  | error fault' =>
    rw [hread] at h
    cases h
    rfl
  | ok octets =>
    exfalso
    simp only [hread] at h
    split at h
    · cases h
    · split at h
      · cases h
      · next table _ =>
        cases hs : Settings.ofTable table with
        | error fault' =>
          rw [hs] at h
          cases h
        | ok settings =>
          rw [hs] at h
          cases h

theorem read_document (ht : disk.IsTree) {entry : Entry} (h : disk.IsNearest base near)
    (hr : ¬ disk.Refuses (base ++ [documentName])) (hentry : disk.document? near = some entry) :
    disk.read (documentOf near).text = entry.content :=
  read_nameOf ht hentry (not_refuses_above (by decide) hr h.above)

/-- The settings at a start with a nearest document are those of the document. It is there to be
read, so the defaults never take its place. -/
theorem discoverSettings_of_nearest (ht : disk.IsTree) (h : disk.IsNearest base near)
    (hr : ¬ disk.Refuses (base ++ [documentName]))
    (hfound : disk.findDocument start = .ok (documentOf near)) :
    disk.discoverSettings start = disk.loadSettings (documentOf near).text := by
  obtain ⟨entry, hentry⟩ := Option.ne_none_iff_exists'.mp h.holds
  have hread := read_document ht h hr hentry
  unfold discoverSettings
  simp only [hfound]
  split
  · next name hload =>
    have hmissing := hread.symm.trans (read_of_loadSettings hload)
    cases entry <;> cases hmissing
  · rfl

theorem discoverSettings_of_missing (h : disk.findDocument start = .error .noDocument) :
    disk.discoverSettings start = .ok Settings.default := by
  rw [discoverSettings, h]

/-! ## Searches that are not refused -/

section Accepted

variable (ht : disk.IsTree) (hs : ∀ step ∈ disk.startPlace start, Path.IsStep step)
  (h : disk.Accepts start)

include ht hs h

theorem findDocument_cases :
    (∃ near, disk.IsNearest (disk.searchBase start) near ∧
      disk.findDocument start = .ok (documentOf near)) ∨
      ((∀ place, place <+: disk.searchBase start → disk.document? place = none) ∧
        disk.findDocument start = .error .noDocument) := by
  have hbase : ∀ step ∈ disk.searchBase start, Path.IsStep step :=
    fun step hstep => hs step ((searchBase_above disk start).subset hstep)
  rw [findDocument_eq ht hs h.noNull h.place]
  exact firstDocument_cases fun place hplace => exists?_documentOf ht hbase h.document hplace

/-- The climb from the base ends, and it ends as the search does. -/
theorem climbs_iff (result : Except Failure Path) :
    disk.Climbs (Path.ofPlace (disk.searchBase start)) result ↔
      disk.findDocument start = result := by
  have hclimbs := climbs_firstDocument disk (disk.searchBase start)
  rw [findDocument_eq ht hs h.noNull h.place]
  constructor
  · exact hclimbs.unique
  · rintro rfl
    exact hclimbs

theorem findDocument_eq_ok_iff (path : Path) : disk.findDocument start = .ok path ↔
    ∃ near, disk.IsNearest (disk.searchBase start) near ∧ disk.entry? near = some .directory ∧
      path = documentOf near := by
  obtain ⟨near, hnear, hfound⟩ | ⟨hnone, hmissing⟩ := findDocument_cases ht hs h
  · rw [hfound]
    constructor
    · intro hpath
      exact ⟨near, hnear, ht.above (List.cons_ne_nil _ _) hnear.holds, (Except.ok.inj hpath).symm⟩
    · rintro ⟨near', hnear', -, rfl⟩
      rw [hnear.unique hnear']
  · rw [hmissing]
    constructor
    · intro hpath
      cases hpath
    · rintro ⟨near, hnear, -⟩
      exact absurd (hnone near hnear.above) hnear.holds

theorem findDocument_eq_missing_iff : disk.findDocument start = .error .noDocument ↔
    ∀ place, place <+: disk.searchBase start → disk.document? place = none := by
  obtain ⟨near, hnear, hfound⟩ | ⟨hnone, hmissing⟩ := findDocument_cases ht hs h
  · rw [hfound]
    constructor
    · intro hmissing
      cases hmissing
    · intro hnone
      exact absurd (hnone near hnear.above) hnear.holds
  · exact iff_of_true hmissing hnone

theorem discoverSettings_of_found {path : Path} (hfound : disk.findDocument start = .ok path) :
    disk.discoverSettings start = disk.loadSettings path.text := by
  obtain ⟨near, hnear, -, rfl⟩ := (findDocument_eq_ok_iff ht hs h path).mp hfound
  exact discoverSettings_of_nearest ht hnear h.document hfound

end Accepted

/-- Two trees with the same documents from the nearest one down to the base lead a search to the
same document and to the same settings. -/
theorem search_congr (ht : disk.IsTree) (ht' : other.IsTree)
    (hs : ∀ step ∈ disk.startPlace start, Path.IsStep step)
    (hs' : ∀ step ∈ other.startPlace start, Path.IsStep step)
    (h : disk.Accepts start) (h' : other.Accepts start)
    (hbase : other.searchBase start = disk.searchBase start)
    (hsame : ∀ place, place <+: disk.searchBase start →
      (∀ near, disk.IsNearest (disk.searchBase start) near → near <+: place) →
      other.document? place = disk.document? place) :
    other.findDocument start = disk.findDocument start ∧
      other.discoverSettings start = disk.discoverSettings start := by
  obtain ⟨near, hnear, hfound⟩ | ⟨hnone, hmissing⟩ := findDocument_cases ht hs h
  · have hbelow : ∀ place, place <+: disk.searchBase start → near <+: place →
        other.document? place = disk.document? place := by
      intro place hplace hle
      refine hsame place hplace fun near' hnear' => ?_
      rwa [hnear'.unique hnear]
    have hnear' : other.IsNearest (other.searchBase start) near := by
      rw [hbase]
      exact hnear.congr hbelow
    have hdirectory := ht'.above (List.cons_ne_nil _ _) hnear'.holds
    have hfound' := (findDocument_eq_ok_iff ht' hs' h' _).mpr ⟨near, hnear', hdirectory, rfl⟩
    refine ⟨hfound'.trans hfound.symm, ?_⟩
    obtain ⟨entry, hentry⟩ := Option.ne_none_iff_exists'.mp hnear.holds
    have hentry' := (hbelow near hnear.above List.prefix_rfl).trans hentry
    have hread := read_document ht hnear h.document hentry
    have hread' := read_document ht' hnear' h'.document hentry'
    rw [discoverSettings_of_found ht hs h hfound, discoverSettings_of_found ht' hs' h' hfound']
    exact loadSettings_congr (hread'.trans hread.symm)
  · have hnone' : ∀ place, place <+: other.searchBase start → other.document? place = none := by
      rw [hbase]
      intro place hplace
      rw [hsame place hplace fun near hnear => absurd (hnone near hnear.above) hnear.holds]
      exact hnone place hplace
    have hmissing' := (findDocument_eq_missing_iff ht' hs' h').mpr hnone'
    exact ⟨hmissing'.trans hmissing.symm,
      (discoverSettings_of_missing hmissing').trans (discoverSettings_of_missing hmissing).symm⟩

/-! ## What has no influence -/

/-- The search begins at the start or right above it. -/
theorem above_searchBase {above : List String} {step : String}
    (h : above ++ [step] <+: disk.startPlace start) : above <+: disk.searchBase start := by
  have hlength := h.length_le
  rw [List.length_append, List.length_singleton] at hlength
  refine List.prefix_of_prefix_length_le ((List.prefix_append above [step]).trans h)
    (searchBase_above disk start) ?_
  unfold searchBase
  split
  · rw [List.length_dropLast]
    omega
  · omega

/-- Whether a search is refused depends on what stands on the way to its start. -/
theorem accepts_congr (hworking : other.working = disk.working)
    (hsame : ∀ place, place <+: disk.startPlace start → other.entry? place = disk.entry? place)
    (h : disk.Accepts start) :
    other.searchBase start = disk.searchBase start ∧ other.Accepts start := by
  have hplace : other.startPlace start = disk.startPlace start := by
    rw [startPlace, startPlace, hworking]
  have hbase : other.searchBase start = disk.searchBase start := by
    rw [searchBase, searchBase, hplace, hsame _ List.prefix_rfl]
  refine ⟨hbase, h.noNull, ?_, ?_⟩
  · rw [hplace]
    refine fun hrefuses => h.place (hrefuses.congr fun above step hstep => ?_)
    exact hsame above ((List.prefix_append above [step]).trans hstep)
  · rw [hbase]
    refine fun hrefuses => h.document (hrefuses.congr fun above step hstep => ?_)
    have habove : above <+: disk.searchBase start := by
      obtain heq | hprefix := List.prefix_concat_iff.mp hstep
      · exact List.append_inj_left' heq rfl ▸ List.prefix_rfl
      · exact (List.prefix_append above [step]).trans hprefix
    exact hsame above (habove.trans (searchBase_above disk start))

/-- A directory is remote from a search if it is not above the base, or if it is above the nearest
document and this one does not stand within its own. -/
def IsRemote (disk : Disk) (base above : List String) : Prop :=
  ¬ above <+: base ∨ ∃ near, disk.IsNearest base near ∧ above <+: near ∧ above ≠ near ∧
    ¬ above ++ [documentName] <+: near

/-- On the way to the start no document of a remote directory is met. -/
theorem IsRemote.not_on_way {above : List String} (h : disk.IsRemote (disk.searchBase start) above)
    (hplace : place <+: disk.startPlace start) : ¬ above ++ [documentName] <+: place := by
  intro hin
  obtain hout | ⟨near, hnear, hle, hne, hout⟩ := h
  · exact hout (above_searchBase (hin.trans hplace))
  · have hlength : above.length ≠ near.length := fun heq => hne (hle.eq_of_length heq)
    have hlt := Nat.lt_of_le_of_ne hle.length_le hlength
    refine hout (List.prefix_of_prefix_length_le (hin.trans hplace)
      (hnear.above.trans (searchBase_above disk start)) ?_)
    rw [List.length_append]
    exact hlt

/-- From the nearest document down to the base no document is that of a remote directory. -/
theorem IsRemote.not_document {above : List String}
    (h : disk.IsRemote (disk.searchBase start) above) (hplace : place <+: disk.searchBase start)
    (hbelow : ∀ near, disk.IsNearest (disk.searchBase start) near → near <+: place) :
    ¬ above ++ [documentName] <+: place ++ [documentName] := by
  intro hin
  obtain heq | hin := List.prefix_concat_iff.mp hin
  · obtain rfl := List.append_inj_left' heq rfl
    obtain hout | ⟨near, hnear, hle, hne, -⟩ := h
    · exact hout hplace
    · exact hne (hle.eq_of_length_le (hbelow near hnear).length_le)
  · exact h.not_on_way (hplace.trans (searchBase_above disk start)) hin

/-! ## Searches that are refused -/

/-- A search is refused for a name, whatever documents there are. -/
def IsRefused (disk : Disk) (start : Option Path) : Prop :=
  ∃ fault name, (fault = .nullInName ∨ fault = .nameTooLong) ∧
    disk.findDocument start = .error (.disk fault name) ∧
    disk.discoverSettings start = .error (.disk fault name)

theorem isRefused_of_error {fault : Fault} {name : String}
    (hfault : fault = .nullInName ∨ fault = .nameTooLong)
    (h : disk.findDocument start = .error (.disk fault name)) : disk.IsRefused start :=
  ⟨fault, name, hfault, h, by rw [discoverSettings, h]⟩

theorem findDocument_of_null (hnull : ¬ NoNull start) : disk.findDocument start =
    .error (.disk .nullInName (start.getD ⟨.here, []⟩).text) := by
  unfold NoNull at hnull
  unfold findDocument
  rw [if_pos (by simpa using hnull)]

theorem findDocument_of_refuses (ht : disk.IsTree) (hnull : NoNull start)
    (hs : ∀ step ∈ disk.startPlace start, Path.IsStep step)
    (hplace : disk.Refuses (disk.startPlace start)) : disk.findDocument start =
      .error (.disk .nameTooLong (Path.nameOf (disk.startPlace start))) := by
  rw [findDocument_of_noNull hnull, isFile?, test_of_refuses ht hs hplace]

theorem findDocument_of_refuses_document (ht : disk.IsTree) (hnull : NoNull start)
    (hs : ∀ step ∈ disk.startPlace start, Path.IsStep step)
    (hplace : ¬ disk.Refuses (disk.startPlace start))
    (hdocument : disk.Refuses (disk.searchBase start ++ [documentName])) :
    disk.findDocument start =
      .error (.disk .nameTooLong (documentOf (disk.searchBase start)).text) := by
  have hbase : ∀ step ∈ disk.searchBase start ++ [documentName], Path.IsStep step :=
    isStep_document hs (searchBase_above disk start)
  have htest : disk.exists? (documentOf (disk.searchBase start)).text = .error .nameTooLong :=
    test_of_refuses ht hbase hdocument _
  obtain ⟨rest, hrest⟩ := exists_upward (disk.searchBase start)
  rw [findDocument_eq ht hs hnull hplace, hrest, firstDocument_cons, htest]

/-! ## The search finds the nearest -/

/-- A search finds the nearest document and nothing else, and the settings are those of this
document. Among trees in which it begins at the same place, only the documents from the nearest
one down to the base matter. A document elsewhere, whatever becomes of it, has no influence. -/
structure FindsNearest (disk : Disk) (start : Option Path) : Prop where
  ends : ∀ result, disk.Climbs (Path.ofPlace (disk.searchBase start)) result ↔
    disk.findDocument start = result
  found : ∀ path, disk.findDocument start = .ok path ↔
    ∃ near, disk.IsNearest (disk.searchBase start) near ∧ disk.entry? near = some .directory ∧
      path = documentOf near
  missing : disk.findDocument start = .error .noDocument ↔
    ∀ place, place <+: disk.searchBase start → disk.document? place = none
  settings : ∀ path, disk.findDocument start = .ok path →
    disk.discoverSettings start = disk.loadSettings path.text
  defaults : disk.findDocument start = .error .noDocument →
    disk.discoverSettings start = .ok Settings.default
  unaffected : ∀ other : Disk, other.IsTree → other.Accepts start →
    other.searchBase start = disk.searchBase start →
    (∀ place, place <+: disk.searchBase start →
      (∀ near, disk.IsNearest (disk.searchBase start) near → near <+: place) →
      other.document? place = disk.document? place) →
    other.findDocument start = disk.findDocument start ∧
      other.discoverSettings start = disk.discoverSettings start
  remote : ∀ (other : Disk) (above : List String), other.IsTree → other.working = disk.working →
    disk.IsRemote (disk.searchBase start) above →
    (∀ place, ¬ above ++ [documentName] <+: place → other.entry? place = disk.entry? place) →
    other.findDocument start = disk.findDocument start ∧
      other.discoverSettings start = disk.discoverSettings start

/-- In a tree of files a search finds the nearest document, if the names that it begins with are
not refused. Otherwise it is refused. -/
theorem nearest_wins (ht : disk.IsTree) (start : Option String) :
    (disk.Accepts (start.map Path.ofText) → disk.FindsNearest (start.map Path.ofText)) ∧
      (¬ disk.Accepts (start.map Path.ofText) → disk.IsRefused (start.map Path.ofText)) := by
  constructor
  · intro h
    have hs := isStep_startPlace ht h.noNull
    constructor
    case ends => exact climbs_iff ht hs h
    case found => exact findDocument_eq_ok_iff ht hs h
    case missing => exact findDocument_eq_missing_iff ht hs h
    case settings => exact fun path => discoverSettings_of_found ht hs h
    case defaults => exact discoverSettings_of_missing
    case unaffected =>
      intro other ht' h' hbase hsame
      exact search_congr ht ht' hs (isStep_startPlace ht' h'.noNull) h h' hbase hsame
    case remote =>
      intro other above ht' hworking hremote hsame
      obtain ⟨hbase, h'⟩ := accepts_congr hworking
        (fun place hplace => hsame place (hremote.not_on_way hplace)) h
      refine search_congr ht ht' hs (isStep_startPlace ht' h'.noNull) h h' hbase ?_
      intro place hplace hbelow
      exact hsame _ (hremote.not_document hplace hbelow)
  · intro h
    by_cases hnull : NoNull (start.map Path.ofText)
    · have hs := isStep_startPlace ht hnull
      by_cases hplace : disk.Refuses (disk.startPlace (start.map Path.ofText))
      · exact isRefused_of_error (.inr rfl) (findDocument_of_refuses ht hnull hs hplace)
      · have hdocument := not_not.mp fun hdocument => h ⟨hnull, hplace, hdocument⟩
        exact isRefused_of_error (.inr rfl)
          (findDocument_of_refuses_document ht hnull hs hplace hdocument)
    · exact isRefused_of_error (.inl rfl) (findDocument_of_null hnull)

/-- Two directories with a document, one within the other. -/
def nestedTree : Disk where
  entries := [(["r"], .directory), (["r", "slag.toml"], .file []), (["r", "a"], .directory),
    (["r", "a", "slag.toml"], .directory), (["r", "a", "b"], .file [])]
  working := ["r", "a"]

theorem nestedTree_nearest : nestedTree.IsTree ∧ nestedTree.Accepts (some (Path.ofText "../a/b")) ∧
    nestedTree.findDocument (some (Path.ofText "../a/b")) = .ok (documentOf ["r", "a"]) := by
  have ht : nestedTree.IsTree := by decide +kernel
  have hnull : NoNull (some (Path.ofText "../a/b")) := by
    unfold NoNull
    decide +kernel
  have hplace : nestedTree.startPlace (some (Path.ofText "../a/b")) = ["r", "a", "b"] := by
    decide +kernel
  have hbase : nestedTree.searchBase (some (Path.ofText "../a/b")) = ["r", "a"] := by
    decide +kernel
  have haccepts : nestedTree.Accepts (some (Path.ofText "../a/b")) := by
    refine ⟨hnull, ?_, ?_⟩
    · rw [hplace, refuses_iff ht (by decide +kernel)]
      decide +kernel
    · rw [hbase, refuses_iff ht (by decide +kernel)]
      decide +kernel
  have hnear : nestedTree.IsNearest ["r", "a"] ["r", "a"] := .self (by decide +kernel)
  refine ⟨ht, haccepts, ?_⟩
  exact (((nearest_wins ht (some "../a/b")).1 haccepts).found _).mpr
    ⟨["r", "a"], hbase ▸ hnear, by decide +kernel, rfl⟩

/-! ## Starts that are too long -/

section Long

variable (ht : disk.IsTree) {step : String} (hstep : Path.IsStep step)
  (hlong : longestStep < step.utf8ByteSize)

include hstep

theorem startPlace_step : disk.startPlace (some (Path.ofText step)) = disk.working ++ [step] := by
  rw [startPlace, Option.getD_some, Path.ofText_step hstep]
  simp [Path.resolve, hstep.ne_above]

include ht hlong

/-- Nothing stands where a step leads that is too long, so a search would begin there. -/
theorem searchBase_of_long :
    disk.searchBase (some (Path.ofText step)) = disk.working ++ [step] := by
  have hnone := ht.entry?_of_long (List.mem_append_right disk.working (List.mem_singleton_self step))
    hlong
  rw [searchBase, startPlace_step hstep, hnone]

/-- A start of one step that is too long is refused, whatever document is nearest. -/
theorem findDocument_of_long : disk.findDocument (some (Path.ofText step)) =
    .error (.disk .nameTooLong (Path.nameOf (disk.working ++ [step]))) := by
  have hnull : NoNull (some (Path.ofText step)) := by
    intro part hpart
    rw [Option.getD_some, Path.ofText_step hstep] at hpart
    rw [List.mem_singleton.mp hpart]
    exact hstep.noNull
  have hwritten : NoNull ((some step).map Path.ofText) := hnull
  have hs := isStep_startPlace ht hwritten
  have hplace : disk.startPlace (some (Path.ofText step)) = _ := startPlace_step hstep
  have hrefuses : disk.Refuses (disk.startPlace (some (Path.ofText step))) := by
    rw [hplace]
    exact .inr ⟨disk.working, step, List.prefix_rfl, ht.working, hlong⟩
  rw [findDocument_of_refuses ht hnull hs hrefuses, hplace]

end Long

/-- A directory that holds nothing but a document. -/
def singleTree : Disk where
  entries := [(["r"], .directory), (["r", "slag.toml"], .file [])]
  working := ["r"]

/-- A name of more bytes than a step may have. -/
def longName : String := String.ofList (List.replicate 256 'a')

theorem toList_longName : longName.toList = List.replicate 256 'a' := String.toList_ofList

theorem isStep_longName : Path.IsStep longName := by
  have hlength : longName.toList.length = 256 := by
    rw [toList_longName, List.length_replicate]
  constructor
  case ne_nil => rw [toList_longName]; exact nofun
  case noSlash => rw [toList_longName, List.mem_replicate]; decide
  case noNull => rw [toList_longName, List.mem_replicate]; decide
  case ne_here =>
    intro h
    rw [h] at hlength
    exact absurd hlength (by decide)
  case ne_above =>
    intro h
    rw [h] at hlength
    exact absurd hlength (by decide)

theorem long_longName : longestStep < longName.utf8ByteSize := by
  rw [← String.utf8Len_toList, toList_longName]
  decide +kernel

/-- A document is nearest and is not found, as the name of the start is too long. -/
theorem longName_refused : singleTree.IsTree ∧
    singleTree.IsNearest (singleTree.searchBase (some (Path.ofText longName))) ["r"] ∧
    singleTree.findDocument (some (Path.ofText longName)) =
      .error (.disk .nameTooLong (Path.nameOf ["r", longName])) := by
  have ht : singleTree.IsTree := by decide +kernel
  have hnear : singleTree.IsNearest ["r"] ["r"] := .self (by decide +kernel)
  have hnone : singleTree.document? ["r", longName] = none :=
    ht.entry?_of_long (by simp) long_longName
  refine ⟨ht, ?_, findDocument_of_long ht isStep_longName long_longName⟩
  rw [searchBase_of_long ht isStep_longName long_longName]
  exact hnear.concat hnone

end Disk

end Offside
