import Mooring.Anchor.Basic
import Mooring.Fragment.Hash
import Mooring.Markup.Index
import Mooring.Pattern.Safe
import Mooring.Selector.Generate

/-!
# Capturing an anchor

A new anchor is made from a place in a source.  With a selector, the element nearest to the place
that matches it is taken: the first one that starts at or after the line, else the innermost one
around it.  Without a selector, or when nothing matches, it is the first element that starts on the
line, else the innermost one around it.
-/

namespace Mooring.Anchor

open Mooring.Markup Mooring.Record Mooring.Text

/-- Why nothing was captured. -/
inductive CaptureError
  | badLine (line : Int)
  | noElements (file : String)
  | noElementAt (file : String) (line : Int)
  deriving Repr, DecidableEq

/-- The error in words. -/
def CaptureError.message : CaptureError → String
  | badLine line => "Line numbers start at 1, got " ++ toString line
  | noElements file => "No elements found in " ++ file
  | noElementAt file line => "No element at " ++ file ++ ":" ++ toString line

/-- Everything that can stop a capture. -/
inductive CaptureFailure
  | error (error : CaptureError)
  /-- The anchor would not be valid. -/
  | invalid (problems : List Problem)
  /-- The expected text is a pattern beyond all limits. -/
  | overload (overload : Pattern.Overload)
  /-- The hash cannot be made. -/
  | unsupported (digest : Fragment.Unsupported)
  deriving Repr, DecidableEq

/-- The nodes whose text is what a shape expects. -/
def nodesWithText (expected : Option String) (nodes : List Node) :
    Except Pattern.Overload (List Node) :=
  match nonEmpty expected with
  | some expected => nodes.filterM fun node => Pattern.textMatches expected node.text
  | none => .ok nodes

/-- The nodes of an index that match a shape, its text included. -/
def matchingNodes (index : Index) (shape : Selector.Shape) :
    Except Pattern.Overload (List Node) :=
  nodesWithText shape.text (index.findByTagAndAttrs shape.tag shape.constraints)

/-- The first of the nodes with the least value. -/
def firstLeast? (value : Node → Int) : List Node → Option Node
  | [] => none
  | node :: rest =>
    match firstLeast? value rest with
    | some best => if value best < value node then some best else some node
    | none => some node

/-- The element at a line when no selector helps. -/
def nodeAtLine? (index : Index) (line : Int) : Option Node :=
  match index.nodes.find? (·.line == line) with
  | some node => some node
  | none => (index.findAtLine line).head?

/-- The matching element that is nearest to a line: the first one that starts there or later, else
the innermost one around it. -/
def nearest? (index : Index) (matching : List Node) (line : Int) : Option Node :=
  match firstLeast? (·.line) (matching.filter (line ≤ ·.line)) with
  | some node => some node
  | none => (index.findAtLine line).find? fun node => matching.any (·.order == node.order)

/-- The element to capture. -/
def nodeToCapture? (index : Index) (selector : Option String) (line : Int) :
    Except Pattern.Overload (Option Node) := do
  match nonEmpty selector with
  | none => return nodeAtLine? index line
  | some selector =>
    let shape := Selector.Shape.ofSelector selector
    if shape.isEmpty then return nodeAtLine? index line
    else
      match nearest? index (← matchingNodes index shape) line with
      | some node => return some node
      | none => return nodeAtLine? index line

/-- Longer texts are not taken as hints. -/
def maxHintText : Nat := 40

/-- The hints that an element gives about itself. -/
def hintOf (node : Node) : Hint :=
  { testid := (Selector.testId? node.attrs).map (·.2)
    role := Selector.filled? node.attrs "role"
    label := Selector.filled? node.attrs "aria-label"
    expectedText := node.leafText.filter fun text => text.length ≤ maxHintText
    prefer := some ((Selector.preferredStrategies node.attrs node.leafText).map (·.name)) }

/-- The selector of a new anchor: the given one, else the best that the element offers, else its
tag. -/
def selectorFor (node : Node) (hint : Hint) (given : Option String) : String :=
  match nonEmpty given with
  | some selector => selector
  | none =>
    let offered := Selector.generate node.attrs node.tag node.leafText (hint.prefer.getD [])
    offered.head?.getD node.tag

/-- The lines of a node. -/
def rangeOf? (node : Node) : Option SourceRange :=
  if h₁ : 1 ≤ node.line then
    if h₂ : node.line ≤ node.endLine then some ⟨node.line, node.endLine, [], h₁, h₂⟩ else none
  else none

/-- Where and how to capture. -/
structure Place where
  source : String
  file : String
  line : Int
  selector : Option String := none
  /-- The digest of the hash, by name. -/
  algorithm : String := "sha1"
  /-- How many digits of the hash are kept. -/
  digits : Int := 16

/-- The new anchor for a node. -/
def ofNode (id : String) (place : Place) (format : Fragment.HashFormat) (stamp : String)
    (node : Node) : Anchor :=
  let hint := hintOf node
  { id
    selector := selectorFor node hint place.selector
    snippetHash := some (Fragment.hash format node.fragment)
    sourceFile := some place.file
    range := rangeOf? node
    updatedAt := stamp
    snippet := some node.fragment
    hint := some hint }

/-- Captures the element at a place under an id; `stamp` is the time stamp of the new anchor. -/
def capture (id : String) (place : Place) (stamp : String) : Except CaptureFailure Anchor := do
  if place.line < 1 then throw (.error (.badLine place.line))
  let index := Index.ofSource place.source
  if index.isEmpty then throw (.error (.noElements place.file))
  match nodeToCapture? index place.selector place.line with
  | .error overload => throw (.overload overload)
  | .ok none => throw (.error (.noElementAt place.file place.line))
  | .ok (some node) =>
    match Fragment.HashFormat.named place.algorithm place.digits with
    | .error digest => throw (.unsupported digest)
    | .ok format =>
      match Checked.under (.field "id") (visibleId (.string id)) with
      | .ok _ => return ofNode id place format stamp node
      | .error problems => throw (.invalid problems)

end Mooring.Anchor
