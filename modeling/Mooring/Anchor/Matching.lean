import Mooring.Anchor.Basic
import Mooring.Decimal.Scalar
import Mooring.Moment.Basic
import Mooring.Text.Lower

/-!
# Which anchor a selector means

A caller that still uses an old selector wants the anchor it belongs to.  Every stored anchor gets
points for what it has in common with the selector and for being in good shape, and the anchor with
the most points is taken, the first one among equals.
-/

namespace Mooring.Anchor

open Mooring.Decimal Mooring.Text

/-- A selector with its blanks squeezed and its quotes single, in which selectors are compared. -/
def plainSelector (selector : String) : List Char :=
  (squeeze selector.toList).map fun c => if c == '"' then '\'' else c

/-- Something that an anchor gets points for. -/
inductive Merit
  | exactSelector
  | partialSelector
  | testidHint
  | roleHint
  | component
  | snippetHash
  | recentUpdate
  | highStability
  deriving Repr, DecidableEq

/-- The points for a merit. -/
def Merit.points : Merit → Nat
  | exactSelector => 100
  | partialSelector => 50
  | testidHint => 80
  | roleHint => 30
  | component => 20
  | snippetHash => 15
  | recentUpdate => 10
  | highStability => 10

/-- The reason that is given for the points. -/
def Merit.reason : Merit → String
  | exactSelector => "Exact match with stored selector"
  | partialSelector => "Partial match with stored selector"
  | testidHint => "Matches testid hint"
  | roleHint => "Matches role hint"
  | component => "Matches component metadata"
  | snippetHash => "Has snippet hash for robust tracking"
  | recentUpdate => "Recently verified selector"
  | highStability => "High stability score from previous resolution"

/-- The selector names a test identifier, in either notation. -/
def namesTestid (selector testid : String) : Bool :=
  let plain := plainSelector selector
  occursIn ("testid:" ++ testid).toList plain ||
    occursIn ("data-testid='" ++ testid ++ "'").toList plain

/-- The selector names a role, in any of the three notations. -/
def namesRole (selector role : String) : Bool :=
  let plain := plainSelector selector
  occursIn ("role:" ++ role).toList plain || occursIn ("role=" ++ role).toList plain ||
    occursIn ("role='" ++ role ++ "'").toList plain

/-- A text in lower case without hyphens and underscores. -/
def flattened (s : String) : List Char :=
  (lower s.toList).filter fun c => c != '-' && c != '_'

/-- The selector contains the name of a component, however it is joined. -/
def namesComponent (selector component : String) : Bool :=
  let name := flattened component
  !name.isEmpty && occursIn name (flattened selector)

/-- A text that is there, is not empty and satisfies `p`. -/
def anyText (p : String → Bool) (s : Option String) : Bool :=
  s.any fun s => s != "" && p s

/-- The selector is the stored one, or one of the two contains the other. -/
def selectorMerit? (anchor : Anchor) (selector : String) : Option Merit :=
  let stored := plainSelector anchor.selector
  let given := plainSelector selector
  if stored.isEmpty then none
  else if stored == given then some .exactSelector
  else if !given.isEmpty && (occursIn given stored || occursIn stored given) then
    some .partialSelector
  else none

/-- Updates younger than this are recent. -/
def recentMicros : Int := 7 * Moment.dayMicros

/-- The anchor's time stamp is recent; one that lies ahead is. -/
def isRecent (anchor : Anchor) (now : Moment) : Bool :=
  match Moment.ofText? anchor.updatedAt with
  | some updated => now.instant - updated.instant < recentMicros
  | none => false

/-- The anchor's stability is high. -/
def isStable (anchor : Anchor) : Bool :=
  nearest false 7 10 ≤ anchor.stability

/-- The merit, if it is earned. -/
def when (earned : Bool) (merit : Merit) : List Merit :=
  if earned then [merit] else []

/-- The merits of an anchor for a selector. -/
def merits (anchor : Anchor) (selector : String) (now : Moment) : List Merit :=
  (selectorMerit? anchor selector).toList ++
    when (anyText (namesTestid selector) (anchor.hint.bind (·.testid))) .testidHint ++
    when (anyText (namesRole selector) (anchor.hint.bind (·.role))) .roleHint ++
    when (anyText (namesComponent selector) (anchor.about.bind (·.component))) .component ++
    when (anyText (fun _ => true) anchor.snippetHash) .snippetHash ++
    when (anchor.isRecent now) .recentUpdate ++
    when anchor.isStable .highStability

/-- An anchor with its merits. -/
structure Scored where
  anchor : Anchor
  merits : List Merit

/-- The points of an anchor. -/
def Scored.points (s : Scored) : Nat :=
  (s.merits.map Merit.points).foldl (· + ·) 0

/-- The reasons for the points. -/
def Scored.reasons (s : Scored) : List String :=
  s.merits.map Merit.reason

/-- An anchor scored for a selector. -/
def scored (selector : String) (now : Moment) (anchor : Anchor) : Scored :=
  ⟨anchor, merits anchor selector now⟩

/-- All anchors scored for a selector, the best first; equal ones stay in order. -/
def ranking (anchors : List Anchor) (selector : String) (now : Moment) : List Scored :=
  (anchors.map (scored selector now)).mergeSort fun a b => b.points ≤ a.points

/-- The best anchor for a selector, if there is one and it has at least `minimum` points. -/
def best? {α : Type} [Scalar α] (anchors : List Anchor) (selector : String) (now : Moment)
    (minimum : α) : Option Scored :=
  (ranking anchors selector now).head?.filter fun s =>
    !Scalar.less (Scalar.ratio s.points 1) minimum

end Mooring.Anchor
