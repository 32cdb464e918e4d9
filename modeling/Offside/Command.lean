import Offside.Command.Arguments
import Offside.Diagnostic.Renderer
import Offside.Filing

/-!
# The command

What a run of the command writes, as a function of its arguments and of the files it finds.

- `Request`, `Request.ofArguments`: what is asked for, after every parameter is checked.
- `Outcome`: the exit code, the two outputs and the files after a run.
- `run`: a run of the command.
-/
namespace Offside.Command

set_option autoImplicit false

/-! ## Texts -/

def textLines (rows : List String) : String := String.join (rows.map (· ++ "\n"))

def usage : String := "Usage: slag [OPTIONS] SOURCE"

def helpText : String := textLines
  [usage,
   "",
   "  Add braces and semicolons to indentation-structured Rust source.",
   "",
   "Options:",
   "  --version                   Show the version and exit.",
   "  -o, --output FILE           The output file to emit source to (default:",
   "                              SOURCE.rs).",
   "  --stdout                    Write the result to stdout.",
   "  --marker [always|selector]  Keep `=>` always, or only on selector arms.",
   "  --config FILE               Use this slag.toml instead of searching for one.",
   "  -v, --verbose               Log progress (-vv for debug).",
   "  --help                      Show this message and exit."]

def versionText : String := textLines ["slag, version " ++ version]

def UsageFault.text (fault : UsageFault) : String :=
  textLines ((if fault.showsUsage then [usage, "Try \x27slag --help\x27 for help.", ""] else []) ++
    ["Error: " ++ fault.message])

/-! ## Requests -/

structure Request where
  source : String
  output : Option String
  toStdout : Bool
  marker : Option Layout.MarkerPolicy
  config : Option String
  verbosity : Nat
  deriving DecidableEq, Repr

/-- Why there is no request: a text to show in place of one, a fault of the arguments, or a name
that no file can have. -/
inductive Refusal where
  | shows (text : String)
  | usage (fault : UsageFault)
  | failure (failure : Failure)

def checkFile (disk : Disk) (mustExist : Bool) (parameter name : String) :
    Except Refusal Unit :=
  match disk.status name with
  | .error .nullInName => .error (.failure (.disk .nullInName name))
  | .error _ => if mustExist then .error (.usage (.noFile parameter name)) else .ok ()
  | .ok .directory => .error (.usage (.isDirectory parameter name))
  | .ok (.file _) => .ok ()

def checkSwitch (disk : Disk) (arguments : Arguments) (switch : Switch) : Except Refusal Unit :=
  match switch, arguments.value? switch with
  | .output, some name => checkFile disk false switch.shown name
  | .config, some name => checkFile disk true switch.shown name
  | .marker, some word =>
    match Layout.MarkerPolicy.ofWord? word with
    | some _ => .ok ()
    | none =>
      .error (.usage (.noChoice switch.shown word (Layout.MarkerPolicy.all.map (·.word))))
  | _, _ => .ok ()

/-- The request that arguments make. The version and the help are shown before anything is
checked; then the options are checked in the order given, then the source, then that nothing is
left over. -/
def Request.ofArguments (disk : Disk) (arguments : Arguments) : Except Refusal Request := do
  match arguments.order.find? Switch.isEager with
  | some .version => throw (.shows versionText)
  | some _ => throw (.shows helpText)
  | none => pure ()
  arguments.order.forM (checkSwitch disk arguments)
  match arguments.words with
  | [] => throw (.usage .missingSource)
  | source :: extra =>
    checkFile disk true "\x27SOURCE\x27" source
    if extra ≠ [] then throw (.usage (.extraArguments extra))
    return {
      source := source
      output := (arguments.value? .output).filter (· ≠ "")
      toStdout := 0 < arguments.count .stdout
      marker := (arguments.value? .marker).bind Layout.MarkerPolicy.ofWord?
      config := arguments.value? .config
      verbosity := arguments.count .verbose }

/-! ## Runs -/

/-- What a run leaves. A failure that is not reported ends the run and is told apart. -/
structure Outcome where
  exitCode : Nat
  stdout : List Char
  stderr : List Char
  disk : Disk
  unreported : Option Failure

/-- A text as an output shows it, which keeps control sequences only where colours are shown. -/
def echoed (color : Bool) (cs : List Char) : List Char := if color then cs else Text.stripped cs

def told (verbosity : Nat) (records : List Log.Record) : List Char :=
  (Log.atLeast (Log.Level.ofVerbosity verbosity) records).flatMap fun record =>
    (record.text ++ "\n").toList

def shownDiagnostics (color : Bool) (disk : Disk) (source : Source) (failure : CompileFailure) :
    List Char :=
  let renderer := (Renderer.fresh true).addSource source
  failure.diagnostics.flatMap fun d =>
    match (renderer.render disk d).2 with
    | .ok text => echoed color (text ++ ['\n'])
    | .error _ => []

def Request.settings (request : Request) (disk : Disk) : Except Failure Settings := do
  let settings ← match request.config with
    | some name => disk.loadSettings (Path.ofText name).text
    | none => disk.discoverSettings (some (Path.ofText request.source))
  return { settings with marker := request.marker.getD settings.marker }

def Request.target (request : Request) (settings : Settings) : Except Failure Path :=
  match request.output with
  | some name => .ok (Path.ofText name)
  | none => settings.outputPath (Path.ofText request.source)

/-- A run that ends with a failure that is not reported. -/
def Outcome.escape (disk : Disk) (stderr : List Char) (failure : Failure) : Outcome :=
  ⟨1, [], stderr, disk, some failure⟩

def Request.run (request : Request) (color : Bool) (disk : Disk) : Outcome :=
  match request.settings disk with
  | .error failure =>
    if failure.isBadValue then
      let complaint := "error: invalid config: " ++ failure.message ++ "\n"
      ⟨1, [], echoed color complaint.toList, disk, none⟩
    else .escape disk [] failure
  | .ok settings =>
    let path := Path.ofText request.source
    match disk.loadSource path with
    | .error failure => .escape disk [] failure
    | .ok source =>
      let conversion := source.convert settings.rules
      let log := told request.verbosity conversion.log
      match conversion.result with
      | .error failure =>
        ⟨1, [], log ++ shownDiagnostics color disk source failure, disk, none⟩
      | .ok output =>
        if request.toStdout then ⟨0, echoed color output, log, disk, none⟩
        else
          match request.target settings with
          | .error failure => .escape disk log failure
          | .ok target =>
            match disk.writeText target output with
            | .error failure => .escape disk log failure
            | .ok written =>
              ⟨0, echoed color ("wrote " ++ target.text ++ "\n").toList,
                log ++ told request.verbosity
                  [⟨.info, Log.commandLogger, "converted " ++ path.text⟩], written, none⟩

def run (color : Bool) (disk : Disk) (words : List String) : Outcome :=
  let asked : Except Refusal Request :=
    match Arguments.read words with
    | .error fault => .error (.usage fault)
    | .ok arguments => Request.ofArguments disk arguments
  match asked with
  | .ok request => request.run color disk
  | .error (.shows text) => ⟨0, echoed color text.toList, [], disk, none⟩
  | .error (.usage fault) => ⟨2, [], echoed color fault.text.toList, disk, none⟩
  | .error (.failure failure) => .escape disk [] failure

end Offside.Command
