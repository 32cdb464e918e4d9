import Offside.Path

/-!
# Disk

A tree of directories and files, as far as the program looks at it, and a working directory.

- `Disk`, `Disk.Entry`: the tree, by place.
- `Disk.find`: the spot that a written name leads to.
- `Disk.read`, `Disk.write`: the content of a file, and the tree after it is written.
- `Disk.changes`: the files that differ between two trees.
-/
namespace Offside

set_option autoImplicit false

inductive Disk.Entry where
  | file (octets : List UInt8)
  | directory
  deriving DecidableEq, Repr

/-- The entries by place, each place a list of names from the root down, and the directory that
relative names start at. The root is a directory without an entry. -/
structure Disk where
  entries : List (List String × Disk.Entry)
  working : List String
  deriving DecidableEq, Repr

namespace Disk

inductive Fault where
  | noEntry
  | notDirectory
  | isDirectory
  | nameTooLong
  | nullInName
  deriving DecidableEq, Repr

def Fault.wording : Fault → String
  | .noEntry => "[Errno 2] No such file or directory"
  | .notDirectory => "[Errno 20] Not a directory"
  | .isDirectory => "[Errno 21] Is a directory"
  | .nameTooLong => "[Errno 36] File name too long"
  | .nullInName => "embedded null byte"

def Fault.message (fault : Fault) (name : String) : String :=
  match fault with
  | .nullInName => fault.wording
  | _ => fault.wording ++ ": " ++ Text.quoted name

def entry? (disk : Disk) (place : List String) : Option Entry :=
  if place = [] then some .directory else disk.entries.lookup place

/-- Where a name leads: to an entry, or to a free place in a directory. A name that ends with a
slash asks for a directory. -/
inductive Spot where
  | occupied (place : List String) (entry : Entry)
  | vacant (place : List String) (asDirectory : Bool)
  deriving DecidableEq, Repr

def longestStep : Nat := 255

def longestName : Nat := 4095

/-- Follows steps from a place. Each step is taken in a directory; only the last may lead to a
place where nothing stands. -/
def walk (disk : Disk) (place : List String) : List String → Except Fault Spot
  | [] =>
    match disk.entry? place with
    | some entry => .ok (.occupied place entry)
    | none => .error .noEntry
  | step :: rest =>
    match disk.entry? place with
    | none => .error .noEntry
    | some (.file _) => .error .notDirectory
    | some .directory =>
      if step = "." then disk.walk place rest
      else if step = ".." then disk.walk place.dropLast rest
      else if longestStep < step.utf8ByteSize then .error .nameTooLong
      else if rest = [] ∧ disk.entry? (place ++ [step]) = none then
        .ok (.vacant (place ++ [step]) false)
      else disk.walk (place ++ [step]) rest

def find (disk : Disk) (name : String) : Except Fault Spot :=
  let text := name.toList
  if '\x00' ∈ text then .error .nullInName
  else if text = [] then .error .noEntry
  else if longestName < name.utf8ByteSize then .error .nameTooLong
  else
    let start := if text.head? = some '/' then [] else disk.working
    let asDirectory := text.getLast? = some '/'
    match disk.walk start (Path.steps text) with
    | .error fault => .error fault
    | .ok (.occupied place (.file octets)) =>
      if asDirectory then .error .notDirectory else .ok (.occupied place (.file octets))
    | .ok (.occupied place .directory) => .ok (.occupied place .directory)
    | .ok (.vacant place _) => .ok (.vacant place asDirectory)

def status (disk : Disk) (name : String) : Except Fault Entry :=
  match disk.find name with
  | .error fault => .error fault
  | .ok (.occupied _ entry) => .ok entry
  | .ok (.vacant _ _) => .error .noEntry

/-- The answer of a test on the entry that a name leads to. A name that leads nowhere fails the
test; only one that is too long is refused. -/
def test (disk : Disk) (holds : Entry → Bool) (name : String) : Except Fault Bool :=
  match disk.status name with
  | .ok entry => .ok (holds entry)
  | .error .nameTooLong => .error .nameTooLong
  | .error _ => .ok false

def exists? (disk : Disk) (name : String) : Except Fault Bool := disk.test (fun _ => true) name

def isFile? (disk : Disk) (name : String) : Except Fault Bool :=
  disk.test (fun entry => entry ≠ .directory) name

def read (disk : Disk) (name : String) : Except Fault (List UInt8) :=
  match disk.status name with
  | .error fault => .error fault
  | .ok .directory => .error .isDirectory
  | .ok (.file octets) => .ok octets

def put (disk : Disk) (place : List String) (entry : Entry) : Disk :=
  if (disk.entries.lookup place).isSome then
    { disk with entries := disk.entries.map fun e => if e.1 = place then (place, entry) else e }
  else { disk with entries := disk.entries ++ [(place, entry)] }

/-- The tree with the file that a name leads to holding the octets and nothing else. The file is
made if its directory is there. -/
def write (disk : Disk) (name : String) (octets : List UInt8) : Except Fault Disk :=
  match disk.find name with
  | .error fault => .error fault
  | .ok (.occupied _ .directory) => .error .isDirectory
  | .ok (.vacant _ true) => .error .isDirectory
  | .ok (.occupied place (.file _)) => .ok (disk.put place (.file octets))
  | .ok (.vacant place false) => .ok (disk.put place (.file octets))

/-! ## Building and comparing trees -/

def ancestors (place : List String) : List (List String) :=
  (List.range (place.length - 1)).map fun n => place.take (n + 1)

def install (disk : Disk) (place : List String) (entry : Entry) : Disk :=
  ((ancestors place).foldl (fun d above =>
    if (d.entry? above).isSome then d else d.put above .directory) disk).put place entry

def remove (disk : Disk) (place : List String) : Disk :=
  { disk with entries := disk.entries.filter fun e => e.1 ≠ place }

def ofEntries (base : List String) (entries : List (List String × Entry)) : Disk :=
  entries.foldl (fun disk e => disk.install (base ++ e.1) e.2)
    ((Disk.mk [] base).install base .directory)

/-- The files of a tree that another tree did not hold, or not with that content. -/
def changes (before after : Disk) : List (List String × List UInt8) :=
  after.entries.filterMap fun e =>
    match e.2 with
    | .file octets => if before.entry? e.1 = some (.file octets) then none else some (e.1, octets)
    | .directory => none

end Disk

end Offside
