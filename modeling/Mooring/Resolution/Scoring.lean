import Mooring.Anchor.Basic
import Mooring.Fragment.Hash
import Mooring.Fragment.Similarity
import Mooring.Markup.Index
import Mooring.Resolution.Candidate
import Mooring.Selector.Generate

/-!
# Scoring elements against an anchor

An element whose fragment has the stored hash scores 1.  Otherwise it is compared with the stored
fragment, and where none is stored, by the share of the expected features that it has.
-/

namespace Mooring.Resolution

open Mooring.Decimal Mooring.Markup Mooring.Text

/-- Something that an element may have: an attribute, with this value if one is given.  Under the
name `tag` it is the element's tag, under `class` one of its classes. -/
structure Feature where
  name : String
  value : Option String
  deriving Repr, DecidableEq

/-- The element has the feature. -/
def Feature.holds (feature : Feature) (node : Node) : Bool :=
  if feature.name = "tag" then feature.value == some node.tag
  else if feature.name = "class" then feature.value.any (node.classes.contains ·)
  else
    match feature.value with
    | some value => node.attrs.get? feature.name == some value
    | none => node.attrs.has feature.name

/-- A feature with a value. -/
def Feature.valued (name value : String) : Feature :=
  ⟨name, some value⟩

/-- The features that a shape demands. -/
def shapeFeatures (shape : Selector.Shape) : List Feature :=
  ((nonEmpty shape.tag).toList.map (Feature.valued "tag")) ++
    (shape.requiredAttrs.map fun (name, value) => Feature.valued name value) ++
    ((shape.attrs.filter (·.2.isNone)).map fun (name, _) => ⟨name, none⟩) ++
    shape.classes.map (Feature.valued "class")

/-- A list without what came before in it. -/
def distinct : List (String × String) → List (String × String)
  | [] => []
  | pair :: rest => pair :: (distinct rest).filter (· != pair)

/-- A text that is there and not empty, under a name. -/
def named (name : String) (value : Option String) : List (String × String) :=
  (nonEmpty value).toList.map fun value => (name, value)

/-- The durable attributes that are known of an anchor's element: from its selector, from the first
element of its stored fragment, and from its hints. -/
def stablePairs (shape : Selector.Shape) (stored : Option Node) (hint : Option Hint) :
    List (String × String) :=
  distinct <|
    (Selector.stableAttributeNames.flatMap fun name => named name (shape.attrs.get? name).join) ++
      (stored.toList.flatMap fun node => Selector.stableAttributes node.attrs) ++
      named "data-testid" (hint.bind (·.testid)) ++ named "aria-label" (hint.bind (·.label))

variable {α : Type} [Scalar α]

/-- The share of features that an element has; zero if there are none. -/
def featureShare (features : List Feature) (node : Node) : α :=
  if features.isEmpty then Scalar.zero
  else Scalar.ratio (features.filter (·.holds node)).length features.length

/-- The score of an element for an anchor. -/
def matchScore (anchor : Anchor) (features : List Feature) (node : Node) : α :=
  if (nonEmpty anchor.snippetHash).any (Fragment.hashMatches node.fragment ·) then Scalar.one
  else
    match nonEmpty anchor.snippet with
    | some snippet => Fragment.similarity snippet node.fragment
    | none => featureShare features node

/-- The best selector that an element offers, in the order that the anchor prefers. -/
def selectorFor? (anchor : Anchor) (node : Node) : Option String :=
  (Selector.generate node.attrs node.tag node.leafText
    ((anchor.hint.bind (·.prefer)).getD [])).head?

/-- The candidate for an element: its score to six places, and its fragment hashed in the format of
the anchor's hash. -/
def candidateFor (anchor : Anchor) (selector : String) (tier : Tier) (score : α) (node : Node) :
    Candidate α :=
  { selector
    tier
    score := Scalar.round 6 score
    hash := some (Fragment.hash (.ofStored (anchor.snippetHash.getD "")) node.fragment)
    lines := some (node.line, node.endLine)
    snippet := some node.fragment }

end Mooring.Resolution
