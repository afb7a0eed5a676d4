import Mooring.Anchor.Basic
import Mooring.Json.Reader
import Mooring.Json.Writer
import Mooring.Text.Lines
import Mooring.Text.Utf8

/-!
# Document files

A document is kept in a file as indented JSON.  Reading such a file can fail in five ways, from
bytes that are no text to fields that describe no anchor; each is told apart.
-/

namespace Mooring.Store

open Mooring.Record Mooring.Text

/-- What is found under a path. -/
inductive Entry
  | nothing
  | directory
  | file (bytes : ByteArray)

/-- Why a file holds no document. -/
inductive LoadError
  | directory
  | notText (bad : BadBytes)
  | notJson (error : Json.ReadError)
  | notObject
  | invalid (problems : List Problem)
  deriving Repr, DecidableEq

/-- The error in words, for a file that is known as `path`. -/
def LoadError.message (path : String) : LoadError → String
  | directory =>
    "Cannot read anchors file " ++ path ++ ": [Errno 21] Is a directory: " ++
      String.ofList (quoted path.toList)
  | notText bad => bad.message
  | notJson error => "Cannot read anchors file " ++ path ++ ": " ++ error.message
  | notObject => "Anchors file " ++ path ++ " must contain a JSON object"
  | invalid _ => "Invalid anchors file " ++ path

/-- The text of a text file, its line ends unified. -/
def textOf (bytes : ByteArray) : Except BadBytes String :=
  (ofBytes bytes).map fun text => String.ofList (unifyNewlines text.toList)

/-- The document that a value describes; `stamp` is the time stamp of anchors that have none. -/
def documentOfJson (stamp : String) : Json → Except LoadError Document
  | .object fields =>
    match Document.ofFields stamp fields with
    | .ok document => .ok document
    | .error problems => .error (.invalid problems)
  | _ => .error .notObject

/-- The document that the text of a file describes. -/
def documentOfText (stamp text : String) : Except LoadError Document :=
  match Json.parse text with
  | .ok value => documentOfJson stamp value
  | .error error => .error (.notJson error)

/-- The document in a file; an empty one where there is no file. -/
def load (stamp : String) : Entry → Except LoadError Document
  | .nothing => .ok {}
  | .directory => .error .directory
  | .file bytes =>
    match textOf bytes with
    | .ok text => documentOfText stamp text
    | .error bad => .error (.notText bad)

/-- The text that is written for a document. -/
def fileText (document : Document) : String :=
  document.toJson.render Json.fileStyle ++ "\n"

/-- The file that is written for a document. -/
def fileOf (document : Document) : ByteArray :=
  (fileText document).toUTF8

end Mooring.Store
