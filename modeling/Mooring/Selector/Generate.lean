import Mooring.Selector.Shape

/-!
# Selectors for an element

The selectors that an element's attributes and text offer, the most durable first: a test
identifier, the identifier, the role or label, a short text, the first class, the tag with its name
or type.  Each belongs to a strategy, and a caller may prefer strategies; preferring moves the
selectors of a strategy to the front and keeps their order otherwise.
-/

namespace Mooring.Selector

open Mooring.Text

/-- A way of finding an element. -/
inductive Strategy
  | testid
  | role
  | text
  | css
  deriving Repr, DecidableEq

/-- The name of a strategy. -/
def Strategy.name : Strategy → String
  | testid => "testid"
  | role => "role"
  | text => "text"
  | css => "css"

/-- Attributes that exist to be found by tests, the most usual first. -/
def testIdAttributes : List String :=
  ["data-testid", "data-test-id", "data-test", "data-cy", "data-qa"]

/-- Attributes that outlive changes of layout, the most durable first. -/
def stableAttributeNames : List String :=
  testIdAttributes ++ ["name", "aria-label"]

/-- The value of an attribute, unless it is empty. -/
def filled? (attrs : Table String) (name : String) : Option String :=
  (attrs.get? name).filter (· != "")

/-- The durable attributes of an element that are not empty, the most durable first. -/
def stableAttributes (attrs : Table String) : List (String × String) :=
  stableAttributeNames.filterMap fun name => (filled? attrs name).map fun value => (name, value)

/-- A character inside a quoted value. -/
def escapeChar (c : Char) : List Char :=
  if c == '\\' || c == '"' then ['\\', c] else [c]

/-- A value as it stands between double quotes. -/
def escape (value : String) : String :=
  String.ofList (value.toList.flatMap escapeChar)

/-- The selector for an attribute with a value. -/
def attributeSelector (name value : String) : String :=
  "[" ++ name ++ "=\"" ++ escape value ++ "\"]"

/-- The text is short enough for a text selector. -/
def isShortText (text : String) : Bool :=
  1 ≤ text.length && text.length ≤ 24

/-- The text of an element, if it is short enough for a text selector. -/
def shortText? (text : Option String) : Option String :=
  text.filter isShortText

/-- The text is an identifier; a line feed at its end is overlooked. -/
def isIdentifier (text : String) : Bool :=
  let cs := text.toList
  let cs := if cs.getLast? == some '\n' then cs.dropLast else cs
  match cs with
  | c :: rest => isIdentStart c && rest.all isNameChar
  | [] => false

/-- The first of the test attributes that is not empty, with its value. -/
def testId? (attrs : Table String) : Option (String × String) :=
  testIdAttributes.findSome? fun name => (filled? attrs name).map fun value => (name, value)

/-- The strategies that an element supports, the best first. -/
def preferredStrategies (attrs : Table String) (text : Option String) : List Strategy :=
  let best :=
    (if (testId? attrs).isSome then [Strategy.testid] else []) ++
      if (filled? attrs "role").isSome then [Strategy.role] else []
  if !best.isEmpty then best
  else if (shortText? text).isSome then [.text]
  else [.css]

/-- The selector by test identifier. -/
def byTestId (attrs : Table String) : List String :=
  (testId? attrs).toList.map fun (name, value) => attributeSelector name value

/-- The selector by identifier. -/
def byId (attrs : Table String) : List String :=
  ((filled? attrs "id").filter isIdentifier).toList.map ("#" ++ ·)

/-- The selector by role, by role and label, or by label. -/
def byRole (attrs : Table String) : List String :=
  match filled? attrs "role", filled? attrs "aria-label" with
  | some role, some label => ["role:" ++ role ++ "[name=\"" ++ escape label ++ "\"]"]
  | some role, none => ["role:" ++ role]
  | none, some label => [attributeSelector "aria-label" label]
  | none, none => []

/-- The selector by text. -/
def byText (text : Option String) : List String :=
  (shortText? text).toList.map fun text => "text:\"" ++ escape text ++ "\""

/-- The selector by the first class. -/
def byClass (attrs : Table String) : List String :=
  let value := ((filled? attrs "class").or (attrs.get? "className")).getD ""
  let first := ((words value.toList).head?.map String.ofList).getD ""
  if isIdentifier first then ["." ++ first] else []

/-- The selector by tag with name or type, for an element without any identifier. -/
def byTag (attrs : Table String) (tag : String) : List String :=
  if (filled? attrs "id").isSome || (testId? attrs).isSome then []
  else
    match filled? attrs "name", filled? attrs "type" with
    | some name, _ => [tag ++ "[name=\"" ++ escape name ++ "\"]"]
    | none, some type => [tag ++ "[type=\"" ++ escape type ++ "\"]"]
    | none, none => []

/-- A selector with the strategy it belongs to. -/
structure Offer where
  strategy : Strategy
  selector : String
  deriving Repr, DecidableEq

/-- The selectors that an element offers, the most durable first. -/
def offers (attrs : Table String) (tag : String) (text : Option String) : List Offer :=
  (byTestId attrs).map (⟨.testid, ·⟩) ++ (byId attrs).map (⟨.css, ·⟩) ++
    (byRole attrs).map (⟨.role, ·⟩) ++ (byText text).map (⟨.text, ·⟩) ++
    (byClass attrs).map (⟨.css, ·⟩) ++ (byTag attrs tag).map (⟨.css, ·⟩)

/-- The place of a strategy among preferred ones: that of its last mention; for one not mentioned,
the number of strategies that are. -/
def rank (prefer : List String) (strategy : Strategy) : Nat :=
  let ranks := Table.ofPairs prefer.zipIdx
  (ranks.get? strategy.name).getD ranks.length

/-- The selectors of an element, those of preferred strategies first, otherwise the most durable
first. -/
def generate (attrs : Table String) (tag : String) (text : Option String)
    (prefer : List String := []) : List String :=
  let offered := offers attrs tag text
  let sorted :=
    if prefer.isEmpty then offered
    else offered.mergeSort fun a b => rank prefer a.strategy ≤ rank prefer b.strategy
  sorted.map (·.selector)

end Mooring.Selector
