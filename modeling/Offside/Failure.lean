import Offside.Conversion
import Offside.Disk
import Offside.Settings
import Offside.Text.Utf8
import Offside.Toml.Fault

/-!
# Failures

- `Failure`: why the program does not do what it was asked.
- `Failure.message`: what it says about it.
- `Failure.isBadValue`: whether a value that cannot be used is to blame.
-/
namespace Offside

set_option autoImplicit false

inductive Failure where
  | compile (failure : CompileFailure)
  | disk (fault : Disk.Fault) (name : String)
  | undecodable (fault : Text.Utf8.Fault)
  | document (fault : Toml.Fault)
  | settings (fault : Settings.Fault)
  /-- No directory above the start holds a configuration document. -/
  | noDocument
  | outputName (fault : Path.NameFault)
  /-- The extension of output files is no text. -/
  | badExtension

def documentName : String := "slag.toml"

namespace Failure

def message : Failure → String
  | compile failure => failure.message
  | disk fault name => fault.message name
  | undecodable fault => fault.message
  | document fault => fault.message
  | settings fault => fault.message
  | noDocument => "No " ++ documentName ++ " found in any parent directory"
  | outputName fault => fault.message
  | badExtension => "the extension is no text"

/-- Whether a failure is about a value that cannot be used. Only such failures of a configuration
document are reported as faults of the configuration. -/
def isBadValue : Failure → Bool
  | disk .nullInName _ => true
  | undecodable _ => true
  | document _ => true
  | settings (.unknownMarker _) => true
  | settings .unshowableMarker => true
  | outputName _ => true
  | _ => false

end Failure

end Offside
