import Mooring.Record.Fields

/-!
# Anchors

An anchor remembers one element of a user interface: the selector that last found it, the lines of
the source it was found in, the source fragment with its hash, and hints on how to find it again.
Anchors are kept in documents, each under an id that no other anchor of the document has.

Anchors and documents are read from JSON and written as JSON.  Reading reports every problem at
once.  Writing leaves out what is not there, and writes the fields in a fixed order with the unknown
ones after them.
-/

namespace Mooring

open Mooring.Record

/-- Lines of a source, counted from 1, both included. -/
structure SourceRange where
  first : Int
  last : Int
  extra : Table Json := []
  one_le_first : 1 ≤ first
  first_le_last : first ≤ last

/-- What identifies an element besides its selector. -/
structure Hint where
  testid : Option String := none
  role : Option String := none
  label : Option String := none
  expectedText : Option String := none
  /-- The preferred strategies, the best first. -/
  prefer : Option (List String) := none
  extra : Table Json := []

/-- What an anchor is for, in people's words. -/
structure About where
  component : Option String := none
  description : Option String := none
  tags : Option (List String) := none
  extra : Table Json := []

/-- A durable reference to one element. -/
structure Anchor where
  id : String
  selector : String
  snippetHash : Option String := none
  sourceFile : Option String := none
  range : Option SourceRange := none
  /-- How certain the last resolution was, from 0 to 1. -/
  stability : Float := 0
  updatedAt : String
  snippet : Option String := none
  hint : Option Hint := none
  about : Option About := none
  extra : Table Json := []

/-- Anchors in order, with distinct ids. -/
structure Document where
  version : String := "1.0.0"
  anchors : List Anchor := []
  extra : Table Json := []

/-! ### Reading -/

namespace SourceRange

/-- The lines from `first` to `last`, if they are in order. -/
def ofLines (first last : LineNumber) (extra : Table Json := []) : Checked SourceRange :=
  if h : first.val ≤ last.val then .ok ⟨first, last, extra, first.property, h⟩
  else .refuse (.reversedRange first last)

/-- The two fields of a range. -/
def keys : List Key :=
  [.plain "start", .plain "end"]

/-- The range that some fields describe. -/
def ofFields (fields : Table Json) : Checked SourceRange :=
  match Checked.both ((Key.plain "start").required lineNumber fields)
      ((Key.plain "end").required lineNumber fields) with
  | .ok (first, last) => ofLines first last (extras keys fields)
  | .error problems => .error problems

/-- The range that a value describes. -/
def ofJson (value : Json) : Checked SourceRange := do
  ofFields (← objectOf "SourceRange" value)

end SourceRange

namespace Hint

/-- The field of the accessible label. -/
def labelKey : Key := ⟨"ariaLabel", "aria_label"⟩

/-- The field of the text that the element should have. -/
def expectedTextKey : Key := ⟨"expectedText", "expected_text"⟩

/-- The fields of a hint. -/
def keys : List Key :=
  [.plain "testid", .plain "role", labelKey, expectedTextKey, .plain "prefer"]

/-- The hint that a value describes. -/
def ofJson (value : Json) : Checked Hint := do
  let fields ← objectOf "AnchorHint" value
  let (testid, role, label, expectedText, prefer) ←
    ((Key.plain "testid").optional text fields).both <|
    ((Key.plain "role").optional text fields).both <|
    (labelKey.optional text fields).both <|
    (expectedTextKey.optional text fields).both <|
    (Key.plain "prefer").optional (listOf text) fields
  return { testid, role, label, expectedText, prefer, extra := extras keys fields }

end Hint

namespace About

/-- The fields of a description. -/
def keys : List Key :=
  [.plain "component", .plain "description", .plain "tags"]

/-- The description that a value stands for. -/
def ofJson (value : Json) : Checked About := do
  let fields ← objectOf "AnchorMeta" value
  let (component, description, tags) ←
    ((Key.plain "component").optional text fields).both <|
    ((Key.plain "description").optional text fields).both <|
    (Key.plain "tags").optional (listOf text) fields
  return { component, description, tags, extra := extras keys fields }

end About

namespace Anchor

/-- The field of the stored fragment's hash. -/
def hashKey : Key := ⟨"snippetHash", "snippet_hash"⟩

/-- The field of the source file's path. -/
def fileKey : Key := ⟨"sourceFile", "source_file"⟩

/-- The field of the recorded lines. -/
def rangeKey : Key := ⟨"sourceRange", "source_range"⟩

/-- The field of the time stamp. -/
def updatedKey : Key := ⟨"updatedAt", "updated_at"⟩

/-- The fields of an anchor. -/
def keys : List Key :=
  [.plain "id", .plain "selector", hashKey, fileKey, rangeKey, .plain "stability", updatedKey,
    .plain "snippet", .plain "hint", .plain "meta"]

/-- The id of an anchor: a text that is not blank. -/
def visibleId (value : Json) : Checked String := do
  let id ← text value
  if id == "" then .refuse .emptyText
  else if (Text.trim id.toList).isEmpty then .refuse .blankId
  else return id

/-- The anchor that a value describes; `stamp` is the time stamp of an anchor that has none. -/
def ofJson (stamp : String) (value : Json) : Checked Anchor := do
  let fields ← objectOf "Anchor" value
  let (id, selector, snippetHash, sourceFile, range, stability, updatedAt, snippet, hint, about) ←
    ((Key.plain "id").required visibleId fields).both <|
    ((Key.plain "selector").required text fields).both <|
    (hashKey.optional text fields).both <|
    (fileKey.optional text fields).both <|
    (rangeKey.optional SourceRange.ofJson fields).both <|
    ((Key.plain "stability").defaulting 0 fraction fields).both <|
    (updatedKey.defaulting stamp text fields).both <|
    ((Key.plain "snippet").optional text fields).both <|
    ((Key.plain "hint").optional Hint.ofJson fields).both <|
    (Key.plain "meta").optional About.ofJson fields
  return { id, selector, snippetHash, sourceFile, range, stability, updatedAt, snippet, hint, about,
           extra := extras keys fields }

end Anchor

/-- The first text that comes up a second time in a list; `seen` came before the list. -/
def firstRepeated? (seen : List String) : List String → Option String
  | [] => none
  | s :: rest => if seen.contains s then some s else firstRepeated? (s :: seen) rest

namespace Document

/-- The fields of a document. -/
def keys : List Key :=
  [.plain "version", .plain "anchors"]

/-- A list of anchors with distinct ids. -/
def distinctAnchors (stamp : String) (value : Json) : Checked (List Anchor) := do
  let anchors ← listOf (Anchor.ofJson stamp) value
  match firstRepeated? [] (anchors.map (·.id)) with
  | some id => .refuse (.repeatedId id)
  | none => return anchors

/-- The document that some fields describe. -/
def ofFields (stamp : String) (fields : Table Json) : Checked Document := do
  let (version, anchors) ←
    ((Key.plain "version").defaulting "1.0.0" text fields).both <|
    (Key.plain "anchors").defaulting [] (distinctAnchors stamp) fields
  return { version, anchors, extra := extras keys fields }

/-- The document that a value describes. -/
def ofJson (stamp : String) (value : Json) : Checked Document := do
  ofFields stamp (← objectOf "AnchorsDocument" value)

end Document

/-! ### Writing -/

/-- A field that is written if it is there. -/
def fieldOf? {α : Type} (name : String) (encode : α → Json) (value : Option α) : Table Json :=
  value.toList.map fun value => (name, encode value)

/-- The unknown fields of a record as they are written: null ones are left out. -/
def extraFields (extra : Table Json) : Table Json :=
  (extra.filter fun (_, value) => !value.isNull).map fun (name, value) => (name, value.finite)

/-- A range as JSON. -/
def SourceRange.toJson (range : SourceRange) : Json :=
  .object ([("start", .int range.first), ("end", .int range.last)] ++ extraFields range.extra)

/-- A hint as JSON. -/
def Hint.toJson (hint : Hint) : Json :=
  .object (fieldOf? "testid" .string hint.testid ++ fieldOf? "role" .string hint.role ++
    fieldOf? labelKey.name .string hint.label ++
    fieldOf? expectedTextKey.name .string hint.expectedText ++
    fieldOf? "prefer" .ofTexts hint.prefer ++ extraFields hint.extra)

/-- A description as JSON. -/
def About.toJson (about : About) : Json :=
  .object (fieldOf? "component" .string about.component ++
    fieldOf? "description" .string about.description ++ fieldOf? "tags" .ofTexts about.tags ++
    extraFields about.extra)

/-- An anchor as JSON. -/
def Anchor.toJson (anchor : Anchor) : Json :=
  .object ([("id", .string anchor.id), ("selector", .string anchor.selector)] ++
    fieldOf? hashKey.name .string anchor.snippetHash ++
    fieldOf? fileKey.name .string anchor.sourceFile ++
    fieldOf? rangeKey.name SourceRange.toJson anchor.range ++
    [("stability", .float anchor.stability), (updatedKey.name, .string anchor.updatedAt)] ++
    fieldOf? "snippet" .string anchor.snippet ++ fieldOf? "hint" Hint.toJson anchor.hint ++
    fieldOf? "meta" About.toJson anchor.about ++ extraFields anchor.extra)

/-- A document as JSON. -/
def Document.toJson (document : Document) : Json :=
  .object ([("version", .string document.version),
    ("anchors", .array (document.anchors.map Anchor.toJson))] ++ extraFields document.extra)

/-! ### Anchors of a document -/

namespace Document

/-- The anchor with an id. -/
def get? (document : Document) (id : String) : Option Anchor :=
  document.anchors.find? (·.id == id)

/-- An anchor of this id is in the document. -/
def has (document : Document) (id : String) : Bool :=
  (document.get? id).isSome

/-- The anchors with one put in: in the place of the first one with its id, else at the end. -/
def putAnchor (anchor : Anchor) : List Anchor → List Anchor
  | [] => [anchor]
  | existing :: rest =>
    if existing.id == anchor.id then anchor :: rest else existing :: putAnchor anchor rest

/-- The document with an anchor put in, in the place of the one with its id if there is one. -/
def put (document : Document) (anchor : Anchor) : Document :=
  { document with anchors := putAnchor anchor document.anchors }

/-- The ids, in order. -/
def ids (document : Document) : List String :=
  document.anchors.map (·.id)

end Document

end Mooring
