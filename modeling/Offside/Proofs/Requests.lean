import Offside.Command

/-!
# Requests

- `Request.ofArguments_eq_ok_iff`: which arguments make a request, and which one.
- `Request.Converts`: what a run of a request converts.
- `Request.Does`: what a run of a request does.
-/
namespace Offside.Command

set_option autoImplicit false

/-! ## Requests from arguments -/

/-- The request for a source that arguments make if nothing is wrong with them. -/
def Arguments.requesting (arguments : Arguments) (source : String) : Request where
  source := source
  output := (arguments.value? .output).filter (· ≠ "")
  toStdout := 0 < arguments.count .stdout
  marker := (arguments.value? .marker).bind Layout.MarkerPolicy.ofWord?
  config := arguments.value? .config
  verbosity := arguments.count .verbose

theorem forM_eq_ok_iff {α ε : Type} (f : α → Except ε Unit) (l : List α) :
    l.forM f = .ok () ↔ ∀ a ∈ l, f a = .ok () := by
  induction l with
  | nil => exact ⟨fun _ _ h => absurd h List.not_mem_nil, fun _ => rfl⟩
  | cons a l ih =>
    rw [List.forall_mem_cons, ← ih]
    show (f a >>= fun _ => l.forM f) = .ok () ↔ _
    cases f a with
    | error e => exact ⟨fun h => (nomatch h), fun h => (nomatch h.1)⟩
    | ok u => exact ⟨fun h => ⟨rfl, h⟩, fun h => h.2⟩

/-- Arguments make a request if they ask for no version and no help, every option that is given
passes its check, and the only other word names a file. -/
theorem Request.ofArguments_eq_ok_iff (disk : Disk) (arguments : Arguments) (request : Request) :
    Request.ofArguments disk arguments = .ok request ↔
      (∀ given ∈ arguments.options, given.switch.isEager = false ∧
        checkSwitch disk arguments given.switch = .ok ()) ∧
      arguments.words = [request.source] ∧
      checkFile disk true "\x27SOURCE\x27" request.source = .ok () ∧
      request = arguments.requesting request.source := by
  have hchecks : (∀ given ∈ arguments.options, given.switch.isEager = false ∧
      checkSwitch disk arguments given.switch = .ok ()) ↔
      arguments.order.find? Switch.isEager = none ∧
        arguments.order.forM (checkSwitch disk arguments) = .ok () := by
    rw [forM_eq_ok_iff, List.find?_eq_none]
    simp only [Arguments.order, List.mem_eraseDups, List.forall_mem_map, Bool.not_eq_true]
    constructor
    · intro h
      exact ⟨fun given hgiven => (h given hgiven).1, fun given hgiven => (h given hgiven).2⟩
    · intro h given hgiven
      exact ⟨h.1 given hgiven, h.2 given hgiven⟩
  rw [hchecks]
  constructor
  · intro h
    unfold Request.ofArguments at h
    simp only [bind, Except.bind, pure, Except.pure] at h
    split at h
    next => cases h
    next => cases h
    next hfind =>
      split at h
      next => cases h
      next u hform =>
        split at h
        next => cases h
        next source extra hwords =>
          split at h
          next => cases h
          next v hfile =>
            split at h
            next => cases h
            next hextra =>
              obtain rfl := Except.ok.inj h
              rw [Decidable.not_not.mp hextra] at hwords
              exact ⟨⟨hfind, hform⟩, hwords, hfile, rfl⟩
  · rintro ⟨⟨hfind, hform⟩, hwords, hfile, hrequest⟩
    unfold Request.ofArguments
    simp only [bind, Except.bind, pure, Except.pure, hfind, hform, hwords, hfile]
    rw [if_neg (Decidable.not_not.mpr rfl), hrequest]
    rfl

/-! ## Runs of a request -/

/-- The settings that hold for a request, the source that it names, and what that converts to. -/
structure Request.Converts (request : Request) (disk : Disk) (settings : Settings)
    (source : Source) (output : List Char) : Prop where
  config : request.settings disk = .ok settings
  load : disk.loadSource (Path.ofText request.source) = .ok source
  convert : (source.convert settings.rules).result = .ok output

/-- What a run of a request does: it fails and changes nothing, it shows what the source converts
to and changes nothing, or it writes that where the request says. -/
inductive Request.Does (request : Request) (color : Bool) (disk : Disk) (outcome : Outcome) : Prop
  | failed (code : outcome.exitCode ≠ 0) (same : outcome.disk = disk)
  | shown {settings : Settings} {source : Source} {output : List Char}
    (stdout : request.toStdout = true) (converts : request.Converts disk settings source output)
    (code : outcome.exitCode = 0) (printed : outcome.stdout = echoed color output)
    (same : outcome.disk = disk)
  | wrote {settings : Settings} {source : Source} {output : List Char} {target : Path}
    (stdout : request.toStdout = false) (converts : request.Converts disk settings source output)
    (code : outcome.exitCode = 0) (place : request.target settings = .ok target)
    (written : disk.writeText target output = .ok outcome.disk)

theorem Request.does_run (request : Request) (color : Bool) (disk : Disk) :
    request.Does color disk (request.run color disk) := by
  unfold Request.run
  split
  next failure hsettings =>
    split
    · exact .failed Nat.one_ne_zero rfl
    · exact .failed Nat.one_ne_zero rfl
  next settings hsettings =>
    dsimp only
    split
    next failure hload => exact .failed Nat.one_ne_zero rfl
    next source hload =>
      split
      next failure hconvert => exact .failed Nat.one_ne_zero rfl
      next output hconvert =>
        have hconverts : request.Converts disk settings source output :=
          ⟨hsettings, hload, hconvert⟩
        split
        next hstdout => exact .shown hstdout hconverts rfl rfl rfl
        next hstdout =>
          split
          next failure htarget => exact .failed Nat.one_ne_zero rfl
          next target htarget =>
            split
            next failure hwrite => exact .failed Nat.one_ne_zero rfl
            next written hwrite =>
              exact .wrote (eq_false_of_ne_true hstdout) hconverts rfl htarget hwrite

/-- A request to show the text prints what its source converts to. -/
theorem Request.run_shown {request : Request} {disk : Disk} {settings : Settings} {source : Source}
    {output : List Char} (hstdout : request.toStdout = true)
    (h : request.Converts disk settings source output) (color : Bool) :
    (request.run color disk).exitCode = 0 ∧
      (request.run color disk).stdout = echoed color output := by
  unfold Request.run
  simp only [h.config, h.load, h.convert, if_pos hstdout]
  exact ⟨trivial, trivial⟩

end Offside.Command
