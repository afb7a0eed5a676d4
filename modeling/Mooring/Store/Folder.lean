import Mooring.Store.Handle

/-!
# The folder of a document file

A document file is written in one go: its bytes are written as a draft, which then takes the place
of the file.  So a file never holds half a document, and the draft is gone afterwards.

The draft has a name that nothing else in the folder has.  Who calls finds such a name; here it
comes with each call.
-/

namespace Mooring.Store

/-- What is done to the files of a folder. -/
inductive FileAction
  | write (name : String) (bytes : ByteArray)
  /-- The file gets another name, and takes the place of the file that had it. -/
  | rename (old new : String)

/-- The name of a draft; `token` tells it from other drafts. -/
def draftName (token : String) : String :=
  ".anchors-" ++ token ++ ".json"

/-- What it takes to save a file in one go. -/
def saving (draft name : String) (bytes : ByteArray) : List FileAction :=
  [.write draft bytes, .rename draft name]

/-- The files of a folder, each under its name. -/
abbrev Folder := Table ByteArray

namespace Folder

/-- The folder after something is done to it. -/
def perform (folder : Folder) : FileAction → Folder
  | .write name bytes => folder.put name bytes
  | .rename old new =>
    match folder.get? old with
    | some bytes => (folder.without old).put new bytes
    | none => folder

/-- What is found under a name. -/
def entry (folder : Folder) (name : String) : Entry :=
  match folder.get? name with
  | some bytes => .file bytes
  | none => .nothing

end Folder

/-- A request to a handle at some time, and how a draft is told from the files that are there. -/
structure Call where
  stamp : String
  token : Folder → String
  request : Request

/-- A call to a handle on the file `name` of a folder: its answer, and what then are the folder and
the handle. -/
def askIn (name : String) (call : Call) (folder : Folder) (handle : Handle) :
    Except LoadError Reply × Folder × Handle :=
  let (reply, entry, handle) := ask call.stamp call.request (folder.entry name, handle)
  match call.request, reply, entry with
  | .put _, .ok _, .file bytes =>
    (reply, (saving (draftName (call.token folder)) name bytes).foldl Folder.perform folder, handle)
  | _, _, _ => (reply, folder, handle)

/-- Calls to a handle one after the other, with all the answers. -/
def runIn (name : String) :
    List Call → Folder → Handle → List (Except LoadError Reply) × Folder × Handle
  | [], folder, handle => ([], folder, handle)
  | call :: rest, folder, handle =>
    let (reply, folder, handle) := askIn name call folder handle
    let (replies, folder, handle) := runIn name rest folder handle
    (reply :: replies, folder, handle)

end Mooring.Store
