import Mooring.CommandLine.Path
import Mooring.Store.File

/-!
# Files and directories

A disk holds files, each under the names that lead to it from the root.  A directory is whatever
leads to a file, or was made as a directory.  Paths are followed name by name, so a way through a
file, or through something that is not there, leads nowhere, even if it turns back by `..`.
-/

namespace Mooring.CommandLine

open Mooring.Store

/-- The files, and the directories that were made. -/
structure Disk where
  files : List (List String × ByteArray) := []
  directories : List (List String) := []

/-- Where a path leads. -/
inductive Reach
  /-- To these names from the root, whether anything is there or not. -/
  | place (names : List String)
  /-- Through something that is not there. -/
  | missing
  /-- Through a file. -/
  | blocked
  deriving Repr, DecidableEq

namespace Disk

/-- The names lead to a directory. -/
def isDirectory (disk : Disk) (names : List String) : Bool :=
  names.isEmpty || disk.directories.any (names.isPrefixOf ·) ||
    disk.files.any fun (file, _) => names.isPrefixOf file && names != file

/-- The bytes of the file that the names lead to. -/
def file? (disk : Disk) (names : List String) : Option ByteArray :=
  disk.files.lookup names

/-- Where one gets by some names from `place`. -/
def reach (disk : Disk) (place : List String) : List String → Reach
  | [] => .place place
  | name :: rest =>
    if disk.isDirectory place then
      disk.reach (if name == ".." then place.dropLast else place ++ [name]) rest
    else if (disk.file? place).isSome then .blocked
    else .missing

/-- What is at a place. -/
def entryAt (disk : Disk) (place : List String) : Entry :=
  if disk.isDirectory place then .directory
  else
    match disk.file? place with
    | some bytes => .file bytes
    | none => .nothing

/-- What is found under a path, seen from the directory `base`. -/
def entry (disk : Disk) (base path : Path) : Entry :=
  match disk.reach (path.start base) path.names with
  | .place place => disk.entryAt place
  | _ => .nothing

/-- One directory made under a path whose parent is there; none if the parent is not there.  It is
no obstacle that the directory is there already. -/
def makeOne (disk : Disk) (base path : Path) : Except Obstacle (Option Disk) :=
  match disk.reach (path.start base) path.names with
  | .missing => .ok none
  | .blocked => .error (.fileAbove path)
  | .place place =>
    match disk.entryAt place with
    | .directory => .ok (some disk)
    | .file _ => .error (.file path)
    | .nothing => .ok (some { disk with directories := disk.directories ++ [place] })

/-- The directory under the first `count` names of a path made, and the directories that lead to
it. -/
def makeAll (disk : Disk) (base path : Path) : Nat → Except Obstacle Disk
  | 0 => .ok disk
  | count + 1 =>
    let path' := { path with names := path.names.take (count + 1) }
    match disk.makeOne base path' with
    | .error obstacle => .error obstacle
    | .ok (some disk) => .ok disk
    | .ok none =>
      match disk.makeAll base path count with
      | .error obstacle => .error obstacle
      | .ok disk => (disk.makeOne base path').map (·.getD disk)

/-- Files with one put in, in the place of the one of the same names. -/
def putFile (names : List String) (bytes : ByteArray) :
    List (List String × ByteArray) → List (List String × ByteArray)
  | [] => [(names, bytes)]
  | (file, old) :: rest =>
    if file = names then (names, bytes) :: rest else (file, old) :: putFile names bytes rest

/-- The disk with a file written, and the directories that lead to it made. -/
def write (disk : Disk) (base path : Path) (bytes : ByteArray) : Except Obstacle Disk :=
  match disk.makeAll base path.parent path.parent.names.length with
  | .error obstacle => .error obstacle
  | .ok disk =>
    match disk.reach (path.start base) path.names with
    | .place place => .ok { disk with files := putFile place bytes disk.files }
    | _ => .ok disk

/-- The files inside a directory, under the names that lead to them from there. -/
def filesIn (disk : Disk) (directory : List String) : List (List String × ByteArray) :=
  disk.files.filterMap fun (file, bytes) =>
    if directory.isPrefixOf file then some (file.drop directory.length, bytes) else none

end Disk

end Mooring.CommandLine
