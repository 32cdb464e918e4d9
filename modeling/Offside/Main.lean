import Offside.Command

/-!
# The program

The command on the files of this machine: what it may look at is gathered first, the run is
computed, and what it leaves is written.

- `snapshot`: the part of the files that a run may look at.
- `main`: one run.
-/
namespace Offside.Program

set_option autoImplicit false

/-- The names that an argument may hold: itself, and what follows an equals sign or a letter. -/
def namesIn (argument : String) : List String :=
  let cs := argument.toList
  [argument, String.ofList ((cs.dropWhile (· ≠ '=')).drop 1)] ++
    (List.range cs.length).map fun n => String.ofList (cs.drop n)

def passed (directory : List String) (name : String) : List (List String) :=
  let start := if name.toList.head? = some '/' then [] else directory
  (Path.steps name.toList).foldl (fun places step =>
    let here := places.headD start
    (if step = "." then here else if step = ".." then here.dropLast else here ++ [step]) :: places)
    [start]

/-- The places that a run with the given arguments may look at. -/
def placesOfInterest (directory : List String) (arguments : List String) : List (List String) :=
  let visited := (directory :: (arguments.flatMap namesIn).flatMap (passed directory)).eraseDups
  let above := (visited.flatMap Disk.upward).eraseDups
  (above ++ above.map (· ++ [documentName])).filter (· ≠ [])

def probe (disk : Disk) (place : List String) : IO Disk := do
  let path := (← IO.currentDir) / (Path.ofPlace place).text
  if ← path.isDir then return disk.install place .directory
  else if ← path.pathExists then
    return disk.install place (.file (← IO.FS.readBinFile path).toList)
  else return disk

/-- The part of the files of this machine that a run may look at. -/
def snapshot (directory : List String) (arguments : List String) : IO Disk :=
  (placesOfInterest directory arguments).foldlM probe ⟨[], directory⟩

def put (stream : IO.FS.Stream) (cs : List Char) : IO Unit := do
  stream.putStr (String.ofList cs)
  stream.flush

end Offside.Program

open Offside Offside.Program in
def main (arguments : List String) : IO UInt32 := do
  let directory := Path.steps (← IO.currentDir).toString.toList
  let before ← snapshot directory arguments
  let stdout ← IO.getStdout
  let stderr ← IO.getStderr
  let outcome := Command.run (← stdout.isTty) before arguments
  for (place, octets) in Disk.changes before outcome.disk do
    IO.FS.writeBinFile (Path.ofPlace place).text ⟨octets.toArray⟩
  put stderr outcome.stderr
  put stdout outcome.stdout
  if let some failure := outcome.unreported then
    put stderr (failure.message ++ "\n").toList
  return UInt32.ofNat outcome.exitCode
