import Offside.Failure
import Offside.Text.Lines
import Offside.Toml.Document

/-!
# Files in and out

- `Disk.loadSettings`, `Disk.findDocument`, `Disk.discoverSettings`: the settings of a document,
  the nearest document, and the settings that hold at a place.
- `Disk.loadSource`, `Disk.writeText`, `outputPath`: a source, a text, and where it goes.
- `Disk.convertFile`: the conversion of one file into another.
-/
namespace Offside

set_option autoImplicit false

namespace Disk

/-! ## Settings -/

def loadSettings (disk : Disk) (name : String) : Except Failure Settings :=
  match disk.read name with
  | .error fault => .error (.disk fault name)
  | .ok octets =>
    match Text.Utf8.decode octets with
    | .error fault => .error (.undecodable fault)
    | .ok text =>
      match Toml.parse text with
      | .error fault => .error (.document fault)
      | .ok table => (Settings.ofTable table).mapError .settings

def upward (place : List String) : List (List String) :=
  (List.range (place.length + 1)).reverse.map fun n => place.take n

def firstDocument (disk : Disk) : List (List String) → Except Failure Path
  | [] => .error .noDocument
  | place :: rest =>
    let candidate := (Path.ofPlace place).child documentName
    match disk.exists? candidate.text with
    | .error fault => .error (.disk fault candidate.text)
    | .ok true => .ok candidate
    | .ok false => disk.firstDocument rest

/-- The document nearest to a start: in the directory it leads to, or that holds the file it leads
to, or in one above. Without a start the working directory is taken. -/
def findDocument (disk : Disk) (start : Option Path) : Except Failure Path :=
  let path := start.getD ⟨.here, []⟩
  if path.parts.any fun part => '\x00' ∈ part.toList then .error (.disk .nullInName path.text)
  else
    let place := path.resolve disk.working
    let name := (Path.ofPlace place).text
    match disk.isFile? name with
    | .error fault => .error (.disk fault name)
    | .ok isFile => disk.firstDocument (upward (if isFile then place.dropLast else place))

/-- The settings that hold at a start: those of the nearest document, or the defaults where there
is none. -/
def discoverSettings (disk : Disk) (start : Option Path) : Except Failure Settings :=
  match disk.findDocument start with
  | .error .noDocument => .ok Settings.default
  | .error failure => .error failure
  | .ok path =>
    match disk.loadSettings path.text with
    | .error (.disk .noEntry _) => .ok Settings.default
    | result => result

/-! ## Texts -/

def loadSource (disk : Disk) (path : Path) : Except Failure Source :=
  match disk.read path.text with
  | .error fault => .error (.disk fault path.text)
  | .ok octets =>
    match Text.Utf8.decode octets with
    | .error fault => .error (.undecodable fault)
    | .ok text => .ok (Source.ofText path.text (Text.unifyLineEnds text))

def writeText (disk : Disk) (path : Path) (text : List Char) : Except Failure Disk :=
  (disk.write path.text (Text.Utf8.encode text)).mapError fun fault => .disk fault path.text

end Disk

def Path.extended (path : Path) (extension : String) : Except Path.NameFault Path :=
  path.withName (path.name?.getD "" ++ extension)

def Settings.outputPath (settings : Settings) (source : Path) : Except Failure Path :=
  match settings.extension.text? with
  | none => .error .badExtension
  | some extension => (source.extended extension).mapError .outputName

/-! ## Converting a file -/

/-- What the conversion of a file leaves: the tree, what was told, and the path that was written
or why there is none. -/
structure Filing where
  disk : Disk
  log : List Log.Record
  result : Except Failure Path

/-- Converts the file that a path leads to and writes the result, to the given path or to the one
that belongs to the source. The tree changes only if all went well. -/
def Disk.convertFile (disk : Disk) (settings : Settings) (source : Path)
    (destination : Option Path) : Filing :=
  let target : Except Failure Path := match destination with
    | some path => .ok path
    | none => settings.outputPath source
  match target with
  | .error failure => ⟨disk, [], .error failure⟩
  | .ok target =>
    match disk.loadSource source with
    | .error failure => ⟨disk, [], .error failure⟩
    | .ok text =>
      let conversion := text.convert settings.rules
      match conversion.result with
      | .error failure => ⟨disk, conversion.log, .error (.compile failure)⟩
      | .ok output =>
        match disk.writeText target output with
        | .error failure => ⟨disk, conversion.log, .error failure⟩
        | .ok written =>
          ⟨written, conversion.log ++ [⟨.info, Log.filingLogger, "wrote " ++ target.text⟩],
            .ok target⟩

end Offside
