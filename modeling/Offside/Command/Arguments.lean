import Offside.Text.Quoted
import Offside.Text.Similar

/-!
# Arguments of the command

- `Switch`: the options of the command and how they are spelled.
- `UsageFault`: what can be wrong with the arguments.
- `Arguments`, `Arguments.read`: the options that are given, in their order, and the other words.
-/
namespace Offside.Command

set_option autoImplicit false

inductive Switch where
  | version
  | output
  | stdout
  | marker
  | config
  | verbose
  | help
  deriving DecidableEq, Repr

namespace Switch

def all : List Switch := [version, output, stdout, marker, config, verbose, help]

def long : Switch → String
  | version => "--version"
  | output => "--output"
  | stdout => "--stdout"
  | marker => "--marker"
  | config => "--config"
  | verbose => "--verbose"
  | help => "--help"

def letter? : Switch → Option Char
  | output => some 'o'
  | verbose => some 'v'
  | _ => none

def takesValue : Switch → Bool
  | output => true
  | marker => true
  | config => true
  | _ => false

/-- Whether an option is answered before all others, and alone. -/
def isEager : Switch → Bool
  | version => true
  | help => true
  | _ => false

def shown (switch : Switch) : String :=
  match switch.letter? with
  | none => Text.quoted switch.long
  | some letter =>
    Text.quoted ("-" ++ String.singleton letter) ++ " / " ++ Text.quoted switch.long

def ofLong? (name : String) : Option Switch := all.find? (·.long = name)

def ofLetter? (letter : Char) : Option Switch := all.find? (·.letter? = some letter)

end Switch

/-! ## Faults -/

inductive UsageFault where
  | unknownOption (name : String) (similar : List String)
  | missingValue (name : String)
  | unwantedValue (name : String)
  | missingSource
  | extraArguments (arguments : List String)
  | noFile (parameter name : String)
  | isDirectory (parameter name : String)
  | noChoice (parameter value : String) (choices : List String)
  deriving DecidableEq, Repr

namespace UsageFault

def suggestion : List String → String
  | [] => ""
  | [name] => " Did you mean " ++ Text.quoted name ++ "?"
  | names => " (Did you mean one of: " ++ ", ".intercalate (names.map Text.quoted) ++ "?)"

def invalid (parameter complaint : String) : String :=
  "Invalid value for " ++ parameter ++ ": " ++ complaint

def message : UsageFault → String
  | unknownOption name similar => "No such option " ++ Text.quoted name ++ "." ++ suggestion similar
  | missingValue name => "Option " ++ Text.quoted name ++ " requires an argument."
  | unwantedValue name => "Option " ++ Text.quoted name ++ " does not take a value."
  | missingSource => "Missing argument \x27SOURCE\x27."
  | extraArguments [argument] => "Got unexpected extra argument (" ++ argument ++ ")"
  | extraArguments arguments =>
    "Got unexpected extra arguments (" ++ " ".intercalate arguments ++ ")"
  | noFile parameter name => invalid parameter ("File " ++ Text.quoted name ++ " does not exist.")
  | isDirectory parameter name =>
    invalid parameter ("File " ++ Text.quoted name ++ " is a directory.")
  | noChoice parameter value choices =>
    invalid parameter (Text.quoted value ++ " is not one of " ++
      ", ".intercalate (choices.map Text.quoted) ++ ".")

/-- Whether the usage is shown before the message. It is not for a fault of an option's value. -/
def showsUsage : UsageFault → Bool
  | missingValue _ => false
  | unwantedValue _ => false
  | _ => true

end UsageFault

/-! ## Reading -/

structure Given where
  switch : Switch
  value : Option String
  deriving DecidableEq, Repr

structure Arguments where
  options : List Given
  words : List String
  deriving DecidableEq, Repr

/-- The options in one argument, and one that takes the next argument as its value, with the name
it was given by. -/
structure Cluster where
  options : List Given
  waiting : Option (Switch × String)
  deriving DecidableEq, Repr

/-- The options that letters give. A letter whose option takes a value takes the rest as it, or the
next argument if there is no rest. -/
def readLetters : List Char → Except UsageFault Cluster
  | [] => .ok ⟨[], none⟩
  | letter :: rest =>
    let name := "-" ++ String.singleton letter
    match Switch.ofLetter? letter with
    | none => .error (.unknownOption name [])
    | some switch =>
      if switch.takesValue then
        if rest = [] then .ok ⟨[], some (switch, name)⟩
        else .ok ⟨[⟨switch, some (String.ofList rest)⟩], none⟩
      else (readLetters rest).map fun cluster =>
        { cluster with options := ⟨switch, none⟩ :: cluster.options }

/-- The options that one argument gives. A long spelling may carry a value behind an equals
sign. -/
def readOption (argument : List Char) : Except UsageFault Cluster :=
  let name := String.ofList (argument.takeWhile (· ≠ '='))
  let value :=
    if '=' ∈ argument then some (String.ofList ((argument.dropWhile (· ≠ '=')).drop 1)) else none
  match Switch.ofLong? name with
  | some switch =>
    match switch.takesValue, value with
    | true, some text => .ok ⟨[⟨switch, some text⟩], none⟩
    | true, none => .ok ⟨[], some (switch, name)⟩
    | false, some _ => .error (.unwantedValue name)
    | false, none => .ok ⟨[⟨switch, none⟩], none⟩
  | none =>
    if ['-', '-'].isPrefixOf argument then
      .error (.unknownOption name (Text.similar name (Switch.all.map Switch.long)))
    else readLetters (argument.drop 1)

def isOption (argument : String) : Bool :=
  argument.toList.head? = some '-' && 1 < argument.toList.length

namespace Arguments

def withOptions (options : List Given) (arguments : Arguments) : Arguments :=
  { arguments with options := options ++ arguments.options }

/-- Reads arguments. Options may stand among the other words; after two hyphens there are only
words. -/
def read : List String → Except UsageFault Arguments
  | [] => .ok ⟨[], []⟩
  | argument :: rest =>
    if argument = "--" then .ok ⟨[], rest⟩
    else if isOption argument then
      match readOption argument.toList with
      | .error fault => .error fault
      | .ok ⟨options, none⟩ => (read rest).map (withOptions options)
      | .ok ⟨options, some (switch, name)⟩ =>
        match rest with
        | [] => .error (.missingValue name)
        | value :: rest => (read rest).map (withOptions (options ++ [⟨switch, some value⟩]))
    else (read rest).map fun arguments =>
      { arguments with words := argument :: arguments.words }

def value? (arguments : Arguments) (switch : Switch) : Option String :=
  (arguments.options.filter (·.switch = switch)).getLast?.bind Given.value

def count (arguments : Arguments) (switch : Switch) : Nat :=
  arguments.options.countP (·.switch = switch)

/-- The options that are given, each where it is given first. -/
def order (arguments : Arguments) : List Switch :=
  (arguments.options.map Given.switch).eraseDups

end Arguments

end Offside.Command
