import Mooring.Text.Blank
import Mooring.Text.Quoted

/-!
# Paths

A path is a list of names.  Names that say nothing, `.` and the empty one, are left out when a path
is read, so equal paths are written alike.
-/

namespace Mooring.CommandLine

open Mooring.Text

/-- A path, from the root or from where one is. -/
structure Path where
  rooted : Bool := false
  names : List String := []
  deriving Repr, DecidableEq

/-- What stands in the way of making a directory: a file of the same path, or a file further up. -/
inductive Obstacle
  | file (path : Path)
  | fileAbove (path : Path)
  deriving Repr, DecidableEq

namespace Path

/-- The path that a text stands for. -/
def ofText (text : String) : Path :=
  { rooted := text.toList.head? == some '/'
    names := ((runs (· == '/') text.toList).map String.ofList).filter (· != ".") }

/-- A path in writing. -/
def text (path : Path) : String :=
  let names := "/".intercalate path.names
  if path.rooted then "/" ++ names else if path.names.isEmpty then "." else names

/-- The names from which one follows a path when one is at `base`. -/
def start (path base : Path) : List String :=
  if path.rooted then [] else base.names

/-- A path as it is from `base`, with each `..` taken together with the name before it. -/
def resolve (base path : Path) : Path :=
  { rooted := path.rooted || base.rooted
    names := path.names.foldl (fun here name =>
      if name == ".." then here.dropLast else here ++ [name]) (path.start base) }

/-- The directory of a path. -/
def parent (path : Path) : Path :=
  { path with names := path.names.dropLast }

end Path

/-- The obstacle in words. -/
def Obstacle.message : Obstacle → String
  | file path => "[Errno 17] File exists: " ++ String.ofList (quoted path.text.toList)
  | fileAbove path => "[Errno 20] Not a directory: " ++ String.ofList (quoted path.text.toList)

end Mooring.CommandLine
