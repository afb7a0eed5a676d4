import Mooring.Markup.Ranking
import Mooring.Markup.Region
import Mooring.Pattern.Safe
import Mooring.Resolution.Scoring
import Mooring.Resolution.Timeline
import Mooring.Selector.Compound

/-!
# The three searching tiers

When the stored selector is not alive, three tiers look for the element in the source:

* *fast structural* indexes the recorded lines and takes the element that has the stored selector's
  shape and scores best;
* *attribute match* searches the whole source for the durable attributes, one candidate for each;
* *full structural* ranks all elements by their likeness to the stored fragment and keeps the best.

A tier says what it did in a message.  It may fail: the indexer may, and an expected text may be a
pattern beyond all limits.
-/

namespace Mooring.Resolution

open Mooring.Decimal Mooring.Markup Mooring.Text

/-- Why some work has no result. -/
inductive Failure
  /-- It broke off, with a text. -/
  | raised (text : String)
  /-- It gave up waiting for something. -/
  | gaveUp
  deriving Repr, DecidableEq

/-- The account of a failure.  Work that gave up waiting is reported like work that is overdue. -/
def Failure.account (overdue : String) : Failure → String
  | raised text => "failed (" ++ text ++ ")"
  | gaveUp => overdue

/-- What an indexer does with a source: after `cost` milliseconds it has an index, or fails. -/
structure Indexing where
  cost : Rat
  result : Except Failure Index

/-- An indexer, called with the number of earlier calls, a source, and the number of lines before
it. -/
abbrev Indexer := Nat → String → Int → Indexing

/-- The indexer that takes no time and does not fail. -/
def plainIndexer : Indexer :=
  fun _ source lineOffset => ⟨0, .ok (Index.ofSource source lineOffset)⟩

/-- What is to be resolved, and with what. -/
structure Task (α : Type) where
  anchor : Anchor
  source : String
  page : Page
  budgets : Settings.Budgets
  weights : Settings.Blend α
  indexer : Indexer := plainIndexer
  /-- What it costs to look at the clock before each element of the full scan. -/
  clockCost : Rat := 0

/-- What a tier comes up with: candidates, and a message. -/
structure Yield (α : Type) where
  candidates : List (Candidate α)
  message : String

/-- The work of a tier. -/
structure Work (α : Type) where
  calls : List IndexCall := []
  cost : Rat := 0
  /-- The index of the whole source, once there is one. -/
  index : Option Index := none
  /-- The yield, or why there is none. -/
  result : Except Failure (Yield α)

variable {α : Type} [Scalar α]

/-- A tier that has nothing to do, and why. -/
def Work.idle (message : String) : Work α :=
  { result := .ok ⟨[], message⟩ }

/-- A failure for patterns beyond all limits. -/
def orOverload {β : Type} : Except Pattern.Overload β → Except Failure β
  | .ok b => .ok b
  | .error overload => .error (.raised overload.message)

/-- The text is what is expected, if anything is. -/
def expectedHolds (expected : Option String) (text : String) : Except Failure Bool :=
  match nonEmpty expected with
  | some expected => orOverload (Pattern.textMatches expected text)
  | none => .ok true

/-! ### Fast structural -/

/-- The element with the best score, the first one among equals. -/
def bestScored? : List (Ranked α) → Option (Ranked α)
  | [] => none
  | r :: rest =>
    match bestScored? rest with
    | some best => if Scalar.less r.score best.score then some best else some r
    | none => some r

/-- The lines of a range in a message. -/
def linesText (range : SourceRange) : String :=
  toString range.first ++ "-" ++ toString range.last

/-- The last compound of a selector. -/
def lastCompoundText (selector : String) : String :=
  String.ofList (Selector.lastCompound selector.toList)

/-- What fast structural finds in the index of the recorded lines. -/
def fastYield (anchor : Anchor) (shape : Selector.Shape) (range : SourceRange) (index : Index) :
    Except Failure (Yield α) := do
  let nodes ← (index.findByTagAndAttrs shape.tag shape.constraints).filterM fun node =>
    expectedHolds shape.text node.text
  let scored := nodes.map fun node =>
    (⟨node, matchScore anchor (shapeFeatures shape) node⟩ : Ranked α)
  let compound := lastCompoundText anchor.selector
  match bestScored? scored with
  | none =>
    return ⟨[], "no node matching " ++ Settings.quotedText compound ++ " in lines " ++
      linesText range⟩
  | some best =>
    let selector := (selectorFor? anchor best.node).getD compound
    return ⟨[candidateFor anchor selector .fastStructural best.score best.node],
      "<" ++ best.node.tag ++ "> at line " ++ toString best.node.line ++ " matches selector shape"⟩

/-- The work of fast structural; `earlier` is the number of calls of the indexer so far. -/
def fastStructural (task : Task α) (shape : Selector.Shape) (earlier : Nat) : Work α :=
  match task.anchor.range with
  | none => .idle "no source range recorded"
  | some range =>
    if shape.isEmpty then .idle "stored selector has no structural shape"
    else
      let (region, offset) := sliceLines task.source range.first range.last
      if (trim region.toList).isEmpty then .idle ("lines " ++ linesText range ++ " are empty")
      else
        let indexing := task.indexer earlier region offset
        { calls := [⟨region.length, offset⟩]
          cost := indexing.cost
          result := indexing.result.bind (fastYield task.anchor shape range) }

/-! ### Attribute match -/

/-- A later element replaces an earlier one if it scores higher than the candidate made of that. -/
def improve (anchor : Anchor) (features : List Feature) (selector : String)
    (best : Option (Candidate α)) (node : Node) : Option (Candidate α) :=
  let score : α := matchScore anchor features node
  match best with
  | some c =>
    if Scalar.less c.score score then some (candidateFor anchor selector .attributeMatch score node)
    else best
  | none => some (candidateFor anchor selector .attributeMatch score node)

/-- The candidate for an attribute: made of the element that carries it and scores best. -/
def attributeCandidate? (anchor : Anchor) (features : List Feature) (index : Index)
    (pair : String × String) : Option (Candidate α) :=
  (index.findByAttribute pair.1 pair.2).foldl
    (improve anchor features (Selector.attributeSelector pair.1 pair.2)) none

/-- Attributes in a message. -/
def pairsText (pairs : List (String × String)) : String :=
  String.intercalate ", " (pairs.map fun (name, value) => name ++ "=" ++ Settings.quotedText value)

/-- What attribute match finds in the index of the whole source. -/
def attributeYield (anchor : Anchor) (pairs : List (String × String)) (index : Index) :
    Yield α :=
  let features := pairs.map fun (name, value) => Feature.valued name value
  let candidates := pairs.filterMap (attributeCandidate? anchor features index)
  if candidates.isEmpty then ⟨[], "no node carries " ++ pairsText pairs⟩
  else ⟨candidates, toString candidates.length ++ " candidate(s) from " ++ pairsText pairs⟩

/-- The work of attribute match. -/
def attributeMatch (task : Task α) (shape : Selector.Shape) (stored : Option Node) (earlier : Nat) :
    Work α :=
  let pairs := stablePairs shape stored task.anchor.hint
  if pairs.isEmpty then .idle "no stable attributes on selector, snippet or hint"
  else
    let indexing := task.indexer earlier task.source 0
    { calls := [⟨task.source.length, 0⟩]
      cost := indexing.cost
      index := indexing.result.toOption
      result := indexing.result.map (attributeYield task.anchor pairs) }

/-! ### Full structural -/

/-- At most so many candidates below a perfect score are kept. -/
def maxSimilar : Nat := 5

/-- The least similarity of a candidate, in hundredths. -/
def minSimilarity : Nat := 55

/-- The node has a perfect score. -/
def isExact (r : Ranked α) : Bool :=
  Scalar.atMost Scalar.one r.score

/-- The node has a perfect score, or the expected text; of a perfect score no more is asked. -/
def textAdmits (expected : Option String) (r : Ranked α) : Except Failure Bool :=
  if isExact r then .ok true else expectedHolds expected r.node.text

/-- The candidates that a ranking is worth, from the top: all with a perfect score; of the others
those that are similar enough and have the expected text, until there are enough.  Each selector is
taken once; `seen` are those taken. -/
def keepSimilar (anchor : Anchor) (expected : Option String) (seen : List String) :
    List (Ranked α) → Except Failure (List (Candidate α))
  | [] => .ok []
  | r :: rest => do
    if !isExact r &&
        (Scalar.less r.score (Scalar.hundredths minSimilarity) || maxSimilar ≤ seen.length) then
      return []
    else if !(← textAdmits expected r) then keepSimilar anchor expected seen rest
    else
      match selectorFor? anchor r.node with
      | none => keepSimilar anchor expected seen rest
      | some selector =>
        if seen.contains selector then keepSimilar anchor expected seen rest
        else
          let kept ← keepSimilar anchor expected (selector :: seen) rest
          return candidateFor anchor selector .fullStructural r.score r.node :: kept

/-- The text that an element should have: from the hints, else from the selector. -/
def expectedText (anchor : Anchor) (shape : Selector.Shape) : Option String :=
  (nonEmpty (anchor.hint.bind (·.expectedText))).or shape.text

/-- What full structural keeps of a ranking. -/
def fullYield (anchor : Anchor) (shape : Selector.Shape) (ranked : List (Ranked α)) :
    Except Failure (Yield α) := do
  match ← keepSimilar anchor (expectedText anchor shape) [] ranked with
  | [] =>
    let best := ((ranked.head?).map (·.score)).getD Scalar.zero
    return ⟨[], "no node above similarity 0." ++ toString minSimilarity ++ " (best " ++
      String.ofList (Scalar.twoPlaces best) ++ ")"⟩
  | best :: more =>
    return ⟨best :: more, toString (best :: more).length ++ " similar node(s), best score " ++
      String.ofList (Scalar.twoPlaces best.score)⟩

/-- What the scan looks for. -/
def soughtBy (anchor : Anchor) : Sought :=
  { hash := anchor.snippetHash
    fragment := anchor.snippet
    nearLine := anchor.range.map (·.first) }

/-- How many of `count` elements a scan reaches within its budget, when every look at the clock has
a cost, and how long it takes. -/
def scanReach (budget clockCost : Rat) (count : Nat) : Nat × Rat :=
  if clockCost ≤ 0 then (count, 0)
  else
    let inTime := (budget / clockCost).floor.toNat
    if count ≤ inTime then (count, clockCost * count) else (inTime, clockCost * (inTime + 1))

/-- The work of full structural; the index of the whole source is used if there is one already. -/
def fullStructural (task : Task α) (shape : Selector.Shape) (cached : Option Index)
    (earlier : Nat) : Work α :=
  if (nonEmpty task.anchor.snippet).isNone && (nonEmpty task.anchor.snippetHash).isNone then
    .idle "no stored snippet to compare against"
  else
    let (indexing, calls) : Indexing × List IndexCall :=
      match cached with
      | some index => (⟨0, .ok index⟩, [])
      | none => (task.indexer earlier task.source 0, [⟨task.source.length, 0⟩])
    match indexing.result with
    | .error e => { calls, cost := indexing.cost, result := .error e }
    | .ok index =>
      if index.isEmpty then
        { calls, cost := indexing.cost, result := .ok ⟨[], "source produced no nodes"⟩ }
      else
        let (reached, scan) :=
          scanReach (millis (task.budgets.ms .snippetMatch)) task.clockCost index.nodes.length
        { calls
          cost := indexing.cost + scan
          result := fullYield task.anchor shape
            (index.findSimilar (soughtBy task.anchor) (some reached)) }

end Mooring.Resolution
