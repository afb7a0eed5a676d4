import Mooring.CommandLine.Disk
import Mooring.CommandLine.Perform

/-!
# Calls on a disk

Calls are made one after the other, each on the disk that the one before has left.  A call changes
nothing on the disk but its document file.
-/

namespace Mooring.CommandLine

open Mooring.Store

namespace Disk

/-- What is found under a path that a call may or may not name. -/
def look (disk : Disk) (base : Path) (path : Option String) : Entry :=
  match path with
  | some path => disk.entry base (Path.ofText path)
  | none => .nothing

/-- The disk after a performance, if its document file can be written. -/
def keep (disk : Disk) (base : Path) (store : Option String) (performance : Performance) :
    Ending × Disk :=
  match performance.saved, store with
  | some bytes, some store =>
    match disk.write base (Path.ofText store) bytes with
    | .ok disk => (performance.ending, disk)
    | .error obstacle => (.breakdown (.blocked obstacle), disk)
  | _, _ => (performance.ending, disk)

/-- A call with these arguments: how it ends, and the disk after it. -/
def call (around : Surroundings) (arguments : List String) (disk : Disk) : Ending × Disk :=
  match Call.ofArguments arguments with
  | .error misuse => (.misuse misuse, disk)
  | .ok call =>
    let base := around.directory
    disk.keep base call.store?
      (call.perform around (disk.look base call.source?) (disk.look base call.store?))

/-- Calls one after the other: how each ends, and the disk after the last. -/
def calls (around : Surroundings) : List (List String) → Disk → List Ending × Disk
  | [], disk => ([], disk)
  | arguments :: rest, disk =>
    let (ending, disk) := disk.call around arguments
    let (endings, disk) := disk.calls around rest
    (ending :: endings, disk)

end Disk

end Mooring.CommandLine
