import Offside.Proofs.FileWriting
import Offside.Proofs.Requests

/-!
# What a run does to files

A conversion that fails leaves every file as it was. One that succeeds makes or replaces the file
that it was to write, and leaves every other file as it was.

- `Disk.Converted`: what a source converts to is written where a path leads.
- `Disk.Fails`, `Disk.Leaves`: why the conversion of a file fails, and what it leaves.
- `Command.Request.Leaves`, `Command.Leaves`: what a run of the command leaves.
- `Disk.files_kept`: conversions of files and runs of the command leave just that.
-/
namespace Offside

set_option autoImplicit false

open Text

namespace Disk

/-! ## Converting a file -/

/-- A tree becomes another as what a source converts to is written where a path leads. -/
def Converted (before after : Disk) (settings : Settings) (source target : Path) : Prop :=
  ∃ text output, before.loadSource source = .ok text ∧
    (text.convert settings.rules).result = .ok output ∧ before.Wrote after target.text output

/-- Why the conversion of a file fails. -/
inductive Fails (disk : Disk) (settings : Settings) (source : Path) :
    Option Path → Failure → Prop
  | nowhere {failure : Failure} (h : settings.outputPath source = .error failure) :
    Fails disk settings source none failure
  | unreadable {destination : Option Path} {fault : Fault}
    (h : disk.read source.text = .error fault) :
    Fails disk settings source destination (.disk fault source.text)
  | undecodable {destination : Option Path} {octets : List UInt8} {fault : Utf8.Fault}
    (hread : disk.read source.text = .ok octets) (h : Utf8.decode octets = .error fault) :
    Fails disk settings source destination (.undecodable fault)
  | unconvertible {destination : Option Path} {text : Source} {failure : CompileFailure}
    (hload : disk.loadSource source = .ok text)
    (h : (text.convert settings.rules).result = .error failure) :
    Fails disk settings source destination (.compile failure)
  | unwritable {destination : Option Path} {target : Path} {text : Source} {output : List Char}
    {fault : Fault} (hload : disk.loadSource source = .ok text)
    (hconvert : (text.convert settings.rules).result = .ok output)
    (htarget : destination.elim (settings.outputPath source) .ok = .ok target)
    (h : disk.write target.text (Utf8.encode output) = .error fault) :
    Fails disk settings source destination (.disk fault target.text)

/-- What the conversion of a file leaves: the same tree where it fails, and otherwise the tree in
which the converted text was written where the path that it answers leads. -/
inductive Leaves (disk : Disk) (settings : Settings) (source : Path) (destination : Option Path)
    (filing : Filing) : Prop
  | failed {failure : Failure} (result : filing.result = .error failure)
    (reason : disk.Fails settings source destination failure) (same : filing.disk = disk)
  | wrote {target : Path} (result : filing.result = .ok target)
    (place : destination.elim (settings.outputPath source) .ok = .ok target)
    (converted : disk.Converted filing.disk settings source target)

variable {disk : Disk} {settings : Settings} {source target : Path} {destination : Option Path}

theorem fails_of_loadSource {failure : Failure} (h : disk.loadSource source = .error failure) :
    disk.Fails settings source destination failure := by
  unfold loadSource at h
  cases hread : disk.read source.text with
  | error fault =>
    rw [hread] at h
    cases h
    exact .unreadable hread
  | ok octets =>
    rw [hread] at h
    dsimp only at h
    cases hdecode : Utf8.decode octets with
    | error fault =>
      rw [hdecode] at h
      cases h
      exact .undecodable hread hdecode
    | ok text =>
      rw [hdecode] at h
      cases h

theorem write_of_writeText {output : List Char} {failure : Failure}
    (h : disk.writeText target output = .error failure) :
    ∃ fault, disk.write target.text (Utf8.encode output) = .error fault ∧
      failure = .disk fault target.text := by
  unfold writeText at h
  cases hwrite : disk.write target.text (Utf8.encode output) with
  | error fault =>
    rw [hwrite] at h
    exact ⟨fault, rfl, (Except.error.inj h).symm⟩
  | ok after =>
    rw [hwrite] at h
    cases h

theorem wrote_of_writeText {output : List Char} {after : Disk}
    (h : disk.writeText target output = .ok after) : disk.Wrote after target.text output := by
  unfold writeText at h
  cases hwrite : disk.write target.text (Utf8.encode output) with
  | error fault =>
    rw [hwrite] at h
    cases h
  | ok written =>
    rw [hwrite] at h
    exact Except.ok.inj h ▸ wrote_of_write hwrite

theorem leaves_convertFile (disk : Disk) (settings : Settings) (source : Path)
    (destination : Option Path) :
    disk.Leaves settings source destination (disk.convertFile settings source destination) := by
  unfold convertFile
  extract_lets goal
  have hgoal : destination.elim (settings.outputPath source) .ok = goal := by
    cases destination <;> rfl
  clear_value goal
  cases goal with
  | error failure =>
    cases destination with
    | none => exact .failed rfl (.nowhere hgoal) rfl
    | some path => cases hgoal
  | ok target =>
    dsimp only
    split
    next failure hload => exact .failed rfl (fails_of_loadSource hload) rfl
    next text hload =>
      split
      next failure hconvert => exact .failed rfl (.unconvertible hload hconvert) rfl
      next output hconvert =>
        split
        next failure hwrite =>
          obtain ⟨fault, hfault, rfl⟩ := write_of_writeText hwrite
          exact .failed rfl (.unwritable hload hconvert hgoal hfault) rfl
        next written hwrite =>
          exact .wrote rfl hgoal ⟨text, output, hload, hconvert, wrote_of_writeText hwrite⟩

end Disk

namespace Command

/-! ## Runs of the command -/

/-- The path that arguments give for the output. An empty word gives none. -/
def Arguments.destination (arguments : Arguments) : Option Path :=
  ((arguments.value? .output).filter (· ≠ "")).map Path.ofText

/-- What a request takes over from the arguments that make it. -/
theorem Request.ofArguments_ok {disk : Disk} {arguments : Arguments} {request : Request}
    (h : Request.ofArguments disk arguments = .ok request) :
    arguments.words = [request.source] ∧
      request.toStdout = decide (0 < arguments.count .stdout) ∧
      request.output.map Path.ofText = arguments.destination := by
  obtain ⟨-, hwords, -, hrequest⟩ := (ofArguments_eq_ok_iff disk arguments request).mp h
  rw [hrequest]
  exact ⟨hrequest ▸ hwords, rfl, rfl⟩

theorem Request.target_eq (request : Request) (settings : Settings) :
    request.target settings =
      (request.output.map Path.ofText).elim (settings.outputPath (Path.ofText request.source))
        .ok := by
  unfold Request.target
  cases request.output <;> rfl

/-- What the run of a request leaves: the same tree where it fails or shows the text, and otherwise
the tree in which the text was written where the request says. -/
inductive Request.Leaves (request : Request) (disk : Disk) (outcome : Outcome) : Prop
  | failed (code : outcome.exitCode ≠ 0) (same : outcome.disk = disk)
  | shown (stdout : request.toStdout = true) (same : outcome.disk = disk)
  | wrote {settings : Settings} {target : Path} (code : outcome.exitCode = 0)
    (stdout : request.toStdout = false) (config : request.settings disk = .ok settings)
    (place : request.target settings = .ok target)
    (converted : disk.Converted outcome.disk settings (Path.ofText request.source) target)

theorem Request.leaves_run (request : Request) (color : Bool) (disk : Disk) :
    request.Leaves disk (request.run color disk) := by
  cases request.does_run color disk with
  | failed code same => exact .failed code same
  | shown stdout _ _ _ same => exact .shown stdout same
  | wrote stdout converts code place written =>
    exact .wrote code stdout converts.config place
      ⟨_, _, converts.load, converts.convert, Disk.wrote_of_writeText written⟩

/-- What a run of the command leaves: the same tree where it fails, where it is told to show the
text, and where it is asked for no conversion; otherwise the tree in which the converted text was
written where the arguments say. -/
structure Leaves (disk : Disk) (words : List String) (outcome : Outcome) : Prop where
  failed : outcome.exitCode ≠ 0 → outcome.disk = disk
  shown {arguments : Arguments} : Arguments.read words = .ok arguments →
    0 < arguments.count .stdout → outcome.disk = disk
  refused {arguments : Arguments} {refusal : Refusal} : Arguments.read words = .ok arguments →
    Request.ofArguments disk arguments = .error refusal → outcome.disk = disk
  wrote {arguments : Arguments} {request : Request} : Arguments.read words = .ok arguments →
    Request.ofArguments disk arguments = .ok request → arguments.count .stdout = 0 →
    outcome.exitCode = 0 →
    ∃ source settings target, arguments.words = [source] ∧
      request.settings disk = .ok settings ∧
      arguments.destination.elim (settings.outputPath (Path.ofText source)) .ok = .ok target ∧
      disk.Converted outcome.disk settings (Path.ofText source) target

/-- A run is that of the request that its words make. Where they make none, nothing changes. -/
theorem run_eq (color : Bool) (disk : Disk) (words : List String) :
    (∃ arguments request, Arguments.read words = .ok arguments ∧
      Request.ofArguments disk arguments = .ok request ∧
      run color disk words = request.run color disk) ∨
    ((∀ arguments request, Arguments.read words = .ok arguments →
      Request.ofArguments disk arguments ≠ .ok request) ∧
      (run color disk words).disk = disk) := by
  unfold run
  cases hread : Arguments.read words with
  | error fault =>
    right
    exact ⟨fun _ _ h => (nomatch h), rfl⟩
  | ok arguments =>
    dsimp only
    cases hrequest : Request.ofArguments disk arguments with
    | ok request =>
      left
      exact ⟨arguments, request, rfl, hrequest, rfl⟩
    | error refusal =>
      right
      refine ⟨fun _ _ h => ?_, ?_⟩
      · obtain rfl := Except.ok.inj h
        simp [hrequest]
      · cases refusal <;> rfl

theorem leaves_run (color : Bool) (disk : Disk) (words : List String) :
    Leaves disk words (run color disk words) := by
  obtain ⟨arguments, request, hread, hrequest, hrun⟩ | ⟨hnone, hsame⟩ := run_eq color disk words
  · obtain ⟨hsource, hstdout, houtput⟩ := Request.ofArguments_ok hrequest
    have hleaves := request.leaves_run color disk
    rw [← hrun] at hleaves
    have hsole {other : Arguments} (h : Arguments.read words = .ok other) : other = arguments :=
      Except.ok.inj (h.symm.trans hread)
    constructor
    case failed =>
      intro hcode
      cases hleaves with
      | failed _ same => exact same
      | shown _ same => exact same
      | wrote code => exact absurd code hcode
    case shown =>
      intro other hother hcount
      obtain rfl := hsole hother
      cases hleaves with
      | failed _ same => exact same
      | shown _ same => exact same
      | wrote _ stdout => simp [hstdout, hcount] at stdout
    case refused =>
      intro other refusal hother hrefusal
      obtain rfl := hsole hother
      cases hrequest.symm.trans hrefusal
    case wrote =>
      intro other asked hother hasked hcount hcode
      obtain rfl := hsole hother
      obtain rfl := Except.ok.inj (hasked.symm.trans hrequest)
      cases hleaves with
      | failed code => exact absurd hcode code
      | shown stdout => simp [hstdout, hcount] at stdout
      | wrote _ _ config place converted =>
        rw [Request.target_eq, houtput] at place
        exact ⟨_, _, _, hsource, config, place, converted⟩
  · exact ⟨fun _ => hsame, fun _ _ => hsame, fun _ _ => hsame,
      fun hread hrequest => absurd hrequest (hnone _ _ hread)⟩

end Command

/-- Conversions of a file and runs of the command change no file but the one that they are to
write, and that one only if the text is converted and can be written. -/
theorem Disk.files_kept (disk : Disk) :
    (∀ settings source destination, disk.Leaves settings source destination
      (disk.convertFile settings source destination)) ∧
    ∀ color words, Command.Leaves disk words (Command.run color disk words) :=
  ⟨disk.leaves_convertFile, fun color words => Command.leaves_run color disk words⟩

/-- A source in the working directory. -/
def oneSource : Disk := ⟨[(["a"], .file (Utf8.encode "f =>\n    x\n".toList))], []⟩

/-- The source is converted into a file that was not there. -/
theorem oneSource_files_kept :
    let words := ["-o", "b", "a"]
    let request : Command.Request := ⟨"a", some "b", false, none, none, 0⟩
    let outcome := Command.run false oneSource words
    oneSource.entry? ["b"] = none ∧ outcome.exitCode = 0 ∧
      ∃ source settings target, ["a"] = [source] ∧ request.settings oneSource = .ok settings ∧
        Except.ok (Path.ofText "b") = (.ok target : Except Failure Path) ∧
        oneSource.Converted outcome.disk settings (Path.ofText source) target := by
  intro words request outcome
  have hread : Command.Arguments.read words = .ok ⟨[⟨.output, some "b"⟩], ["a"]⟩ := by decide
  have hrequest : Command.Request.ofArguments oneSource ⟨[⟨.output, some "b"⟩], ["a"]⟩ =
      .ok request := rfl
  have hcode : outcome.exitCode = 0 := by decide +kernel
  exact ⟨by decide, hcode,
    (oneSource.files_kept.2 false words).wrote hread hrequest (by decide) hcode⟩

end Offside
