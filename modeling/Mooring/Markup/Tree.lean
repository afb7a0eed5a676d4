import Mooring.Markup.Event
import Mooring.Table

/-!
# The element tree

The events of a document build a forest of elements and texts with a stack of open elements.  An end
tag closes the innermost open element of its name and everything inside it; an end tag that has
nothing to close is ignored, and nothing is ever closed by a start tag.  Elements that cannot have
content are closed at once, and one later end tag of their name is swallowed for each of them.

Some elements keep their text to themselves: a text inside a script, a style sheet, a template or a
ruby annotation belongs to the innermost such element and is no part of the text of those around
it.
-/

namespace Mooring.Markup

open Mooring.Text

/-- An element as its start tag describes it. -/
structure Element where
  name : String
  attributes : Table String
  /-- The place of its `<`. -/
  offset : Nat

/-- A part of a document. -/
inductive Tree
  | element (element : Element) (children : List Tree)
  /-- A text; `owner` is the kind of element that keeps it to itself, if one does. -/
  | text (owner : Option String) (text : List Char)

/-- Elements without content. -/
def voidNames : List String :=
  ["area", "base", "br", "col", "embed", "hr", "img", "input", "keygen", "link", "menuitem",
    "meta", "param", "source", "track", "wbr", "basefont", "bgsound", "command", "frame", "image",
    "isindex", "nextid", "spacer"]

/-- Elements that keep their text to themselves. -/
def ownerNames : List String :=
  ["script", "style", "template", "rt", "rp"]

/-- The attribute's value is a list of words, for elements of this name. -/
def isWordList (element attr : String) : Bool :=
  ["class", "accesskey", "dropzone"].contains attr ||
    (match attr with
      | "rel" => ["a", "link", "area"].contains element
      | "rev" => ["a", "link"].contains element
      | "headers" => ["td", "th"].contains element
      | "accept-charset" => element == "form"
      | "archive" => element == "object"
      | "sizes" => element == "icon"
      | "sandbox" => element == "iframe"
      | "for" => element == "output"
      | _ => false)

/-- Names that some markup dialects use for attributes, with the usual names. -/
def usualName (attr : String) : String :=
  match attr with
  | "classname" => "class"
  | "htmlfor" => "for"
  | name => name

/-- The attributes of an element: of repeated ones the last value, in the first one's place; lists
of words with single spaces; under their usual names. -/
def elementAttributes (element : String) (pairs : List (String × String)) : Table String :=
  let tidy := (Table.ofPairs pairs).map fun (name, value) =>
    (name, if isWordList element name then String.ofList (squeeze value.toList) else value)
  Table.ofPairs (tidy.map fun (name, value) => (usualName name, value))

/-- An element that is still open, with the parts inside it so far, the latest first. -/
structure OpenElement where
  element : Element
  parts : List Tree

/-- The state of the construction. -/
structure Builder where
  /-- The open elements, innermost first. -/
  stack : List OpenElement
  /-- The finished parts outside every open element, the latest first. -/
  roots : List Tree
  /-- Text read since the last cut. -/
  pending : List Char
  /-- Names whose next end tag is swallowed. -/
  swallowed : List String

namespace Builder

/-- Before anything is read. -/
def empty : Builder :=
  ⟨[], [], [], []⟩

/-- Adds a finished part to the innermost open element. -/
def add (b : Builder) (part : Tree) : Builder :=
  match b.stack with
  | [] => { b with roots := part :: b.roots }
  | top :: rest => { b with stack := { top with parts := part :: top.parts } :: rest }

/-- The innermost open element that keeps its text to itself. -/
def owner? (b : Builder) : Option String :=
  (b.stack.find? fun e => ownerNames.contains e.element.name).map (·.element.name)

/-- Finishes the text read so far. -/
def flush (b : Builder) : Builder :=
  if b.pending.isEmpty then b
  else { b.add (.text b.owner? b.pending) with pending := [] }

/-- Finishes the innermost open element. -/
def pop (b : Builder) : Builder :=
  match b.stack with
  | [] => b
  | top :: rest => { b with stack := rest }.add (.element top.element top.parts.reverse)

/-- Finishes open elements up to and with the innermost of a name; none if there is none of it. -/
def close (b : Builder) (name : String) : Builder :=
  match b.stack.findIdx? (·.element.name == name) with
  | none => b
  | some depth => (List.range (depth + 1)).foldl (fun b _ => b.pop) b

/-- Takes in one event. -/
def step (b : Builder) (event : Event) : Builder :=
  match event with
  | .text text => { b with pending := b.pending ++ text }
  | .separateText text =>
    let b := b.flush
    if text.isEmpty then b else b.add (.text none text)
  | .cut => b.flush
  | .finish name =>
    if b.swallowed.contains name then { b with swallowed := b.swallowed.erase name }
    else b.flush.close name
  | .start tag offset =>
    let b := b.flush
    let element := ⟨tag.name, elementAttributes tag.name tag.attributes, offset⟩
    let b := { b with stack := ⟨element, []⟩ :: b.stack }
    if tag.selfClosing then b.pop
    else if voidNames.contains tag.name then
      { b.pop with swallowed := tag.name :: b.swallowed }
    else b

/-- The parts of the document, everything finished. -/
def finish (b : Builder) : List Tree :=
  let b := b.flush
  (b.stack.foldl (fun b _ => b.pop) b).roots.reverse

end Builder

/-- The forest that a document's events build. -/
def treesOf (events : List Event) : List Tree :=
  (events.foldl Builder.step .empty).finish

mutual

/-- The texts inside a part that belong to `owner`, in order. -/
def Tree.texts (owner : Option String) : Tree → List (List Char)
  | .text kept s => if kept = owner then [s] else []
  | .element _ children => Tree.textsOf owner children

/-- The texts inside some parts that belong to `owner`, in order. -/
def Tree.textsOf (owner : Option String) : List Tree → List (List Char)
  | [] => []
  | part :: rest => part.texts owner ++ Tree.textsOf owner rest

end

/-- The part is an element. -/
def Tree.isElement : Tree → Bool
  | .element .. => true
  | .text .. => false

/-- How much of an element's text is kept. -/
def maxTextLength : Nat := 200

/-- The text of an element: the texts inside it without the blanks around them, empty ones left out,
with a space between two, cut to its first characters. -/
def elementText (name : String) (children : List Tree) : List Char :=
  let owner := if ownerNames.contains name then some name else none
  let pieces := ((Tree.textsOf owner children).map trim).filter (!·.isEmpty)
  (join [' '] pieces).take maxTextLength

/-- Reads a document as a forest. -/
def parseTrees (cs : List Char) : Except MarkupError (List Tree) :=
  (eventsOf cs).map treesOf

end Mooring.Markup
