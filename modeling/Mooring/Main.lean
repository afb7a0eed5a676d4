import Mooring.CommandLine.Perform
import Mooring.Store.Folder

/-!
# The program

Reads what a call names, performs the call, and writes what it leaves.  Nothing is decided here.
-/

namespace Mooring.CommandLine

/-- What is found under a path of the file system. -/
def entryAt (path : String) : IO Store.Entry := do
  let place := (← IO.currentDir) / path
  if ← place.isDir then return .directory
  else if ← place.pathExists then return .file (← IO.FS.readBinFile place)
  else return .nothing

/-- What is found under a path that a call may or may not name. -/
def entryOf (path : Option String) : IO Store.Entry :=
  match path with
  | some path => entryAt path
  | none => return .nothing

/-- Writes a file in one go, in the directory of its path. -/
def save (path : String) (bytes : ByteArray) : IO Unit := do
  let whole := Path.ofText path
  let directory := (← IO.currentDir) / whole.parent.text
  IO.FS.createDirAll directory
  let draft := Store.draftName (toString (← IO.monoNanosNow))
  for action in Store.saving draft (whole.names.getLastD "") bytes do
    match action with
    | .write name bytes => IO.FS.writeBinFile (directory / name) bytes
    | .rename old new => IO.FS.rename (directory / old) (directory / new)

/-- The present, which is when a file made just now was made. -/
def present : IO Moment := do
  let (_, file) ← IO.FS.createTempFile
  let seconds := (← file.metadata).modified.sec
  IO.FS.removeFile file
  return .ofSeconds seconds

/-- The variables that are looked at. -/
def environmentNow : IO Settings.Environment := do
  let names := Health.strictnessName :: Settings.Stage.all.map (·.environmentName)
  let values ← names.mapM fun name => return (← IO.getEnv name).map fun value => (name, value)
  return values.filterMap id

/-- What surrounds a call that is made now. -/
def surroundings : IO Surroundings := do
  return { directory := Path.ofText (← IO.currentDir).toString
           environment := ← environmentNow
           missingPage := some "no browser is attached"
           now := ← present }

/-- The failure in words. -/
def Breakdown.message : Breakdown → String
  | .unreadable bad => bad.message
  | .blocked obstacle => obstacle.message
  | .capture (.error error) => error.message
  | .capture (.overload overload) => overload.message
  | .capture (.unsupported digest) => digest.message
  | .capture (.invalid problems) => "; ".intercalate (problems.map (·.message))

/-- Tells how a call ended; gives the exit code. -/
def Ending.tell : Ending → IO UInt32
  | .exit code lines => do
    lines.forM fun line => IO.println line
    return UInt32.ofNat code
  | .misuse wrong => do
    IO.eprintln wrong.message
    return 2
  | .breakdown reason => do
    IO.eprintln reason.message
    return 1

end Mooring.CommandLine

open Mooring.CommandLine in
/-- Runs the program on its arguments. -/
def main (arguments : List String) : IO UInt32 := do
  match Call.ofArguments arguments with
  | .error misuse => (Ending.misuse misuse).tell
  | .ok call =>
    let source ← entryOf call.source?
    let store ← entryOf call.store?
    let performance := call.perform (← surroundings) source store
    match performance.saved, call.store? with
    | some bytes, some store => save store bytes
    | _, _ => pure ()
    performance.ending.tell
