import Mooring.Markup.Extent
import Mooring.Markup.Mask
import Mooring.Markup.Tree
import Mooring.Text.Lines

/-!
# The index of a source

An index lists the elements of a source in document order.  Each entry has what its start tag says,
its text, its lines, and its fragment: the source as written, from the element's start tag to its
end tag.  An element that is never closed ends with the last of its descendants, or with its own
start tag if that is later.

The elements and their nesting come from the masked source (`Mooring.Markup.Mask`), which keeps all
places, so a fragment is cut out of the source itself.
-/

namespace Mooring.Markup

open Mooring.Text

/-- An element of a source. -/
structure Node where
  tag : String
  attrs : Table String
  text : String
  fragment : String
  line : Int
  endLine : Int
  /-- Its place in document order, from 0. -/
  order : Nat
  /-- It contains elements. -/
  hasChildren : Bool

namespace Node

/-- The words of the element's class attribute. -/
def classes (node : Node) : List String :=
  (words ((node.attrs.get? "class").getD "").toList).map String.ofList

/-- The text that a text selector can use: none for an element that contains elements or has no
text. -/
def leafText (node : Node) : Option String :=
  if node.hasChildren || node.text == "" then none else some node.text

/-- The node carries an attribute; with this value, if one is given.  A class value names classes
that must all be there. -/
def satisfies (node : Node) (name : String) (value : Option String) : Bool :=
  match node.attrs.get? name with
  | none => false
  | some own =>
    match value with
    | none => true
    | some value =>
      if name = "class" then
        (words value.toList).all fun word => node.classes.contains (String.ofList word)
      else own == value

/-- The node carries all the attributes. -/
def hasAttrs (node : Node) (attrs : Table (Option String)) : Bool :=
  attrs.all fun (name, value) => node.satisfies name value

end Node

/-- An element with its extent, as a pair of places, and its descendants' number. -/
structure Extent where
  element : Element
  children : List Tree
  start : Nat
  stop : Nat

mutual

/-- The extents of the elements in a part, in document order. -/
def extents (masked : List Char) : Tree → List Extent
  | .text .. => []
  | .element element children =>
    let inner := extentsOf masked children
    let here := masked.drop element.offset
    let rest :=
      match afterElement? element.name here with
      | some rest => masked.length - rest.length
      | none =>
        let own := masked.length - (afterStartTag here).1.length
        inner.foldl (fun stop extent => max stop extent.stop) own
    ⟨element, children, element.offset, rest⟩ :: inner

/-- The extents of the elements in some parts, in document order. -/
def extentsOf (masked : List Char) : List Tree → List Extent
  | [] => []
  | part :: rest => extents masked part ++ extentsOf masked rest

end

/-- An index over a source. -/
structure Index where
  nodes : List Node
  /-- How many lines of the file stand before the source. -/
  lineOffset : Int := 0
  /-- Why the source could not be read. -/
  error : Option MarkupError := none

/-- The node of an extent. -/
def Extent.node (source : List Char) (lineOffset : Int) (order : Nat) (e : Extent) : Node :=
  let fragment := (source.drop e.start).take (e.stop - e.start)
  let line : Int := (lineFeeds (source.take e.start) : Int) + 1 + lineOffset
  { tag := e.element.name
    attrs := e.element.attributes
    text := String.ofList (elementText e.element.name e.children)
    fragment := String.ofList fragment
    line
    endLine := line + lineFeeds fragment
    order
    hasChildren := e.children.any Tree.isElement }

/-- The index of a source whose masked form has these parts. -/
def Index.ofTrees (source masked : List Char) (lineOffset : Int) (trees : List Tree) : Index :=
  { nodes := ((extentsOf masked trees).zipIdx).map fun (e, order) => e.node source lineOffset order
    lineOffset }

/-- The index of a source; empty if the source cannot be read. -/
def Index.ofSource (source : String) (lineOffset : Int := 0) : Index :=
  let source := source.toList
  let masked := mask source
  match parseTrees masked with
  | .ok trees => .ofTrees source masked lineOffset trees
  | .error error => { nodes := [], lineOffset, error := some error }

namespace Index

/-- There are no nodes. -/
def isEmpty (index : Index) : Bool :=
  index.nodes.isEmpty

/-- The first node, which is an outermost one. -/
def primary? (index : Index) : Option Node :=
  index.nodes.head?

/-- The nodes with a tag (any, if none is given) that carry all the attributes. -/
def findByTagAndAttrs (index : Index) (tag : Option String) (attrs : Table (Option String)) :
    List Node :=
  let wanted := (tag.filter (· != "")).map fun tag => String.ofList (lower tag.toList)
  index.nodes.filter fun node => (wanted.all (node.tag == ·)) && node.hasAttrs attrs

/-- The nodes that carry an attribute with exactly this value. -/
def findByAttribute (index : Index) (name value : String) : List Node :=
  index.nodes.filter fun node => node.attrs.get? name == some value

/-- The node's lines contain a line. -/
def Covers (node : Node) (line : Int) : Bool :=
  node.line ≤ line && line ≤ node.endLine

/-- The order of nodes around a line: the latest start first, then the fewest lines, then document
order. -/
def innerFirst (a b : Node) : Bool :=
  if a.line != b.line then b.line < a.line
  else if a.endLine - a.line != b.endLine - b.line then a.endLine - a.line < b.endLine - b.line
  else a.order ≤ b.order

/-- The nodes whose lines contain a line, innermost first. -/
def findAtLine (index : Index) (line : Int) : List Node :=
  (index.nodes.filter (Covers · line)).mergeSort innerFirst

end Index

end Mooring.Markup
