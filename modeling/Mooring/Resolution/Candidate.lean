import Mooring.Stability

/-!
# Candidates

A candidate is a selector that one of four tiers proposes, with a score for how well it fits the
anchor and with what the live page said about it.  Only a live candidate has any confidence.  The
winner is the most confident one; among equals the earlier tier wins, then the better score, then
the one that was proposed first.
-/

namespace Mooring.Resolution

open Mooring.Decimal

/-- The stage that proposes a candidate, in the order in which they run. -/
inductive Tier
  | storedSelector
  | fastStructural
  | attributeMatch
  | fullStructural
  deriving Repr, DecidableEq

/-- The name of a tier in reports. -/
def Tier.label : Tier → String
  | storedSelector => "stored_selector"
  | fastStructural => "fast_structural"
  | attributeMatch => "attribute_match"
  | fullStructural => "full_structural"

/-- The place of a tier in their order, from 1. -/
def Tier.rank : Tier → Nat
  | storedSelector => 1
  | fastStructural => 2
  | attributeMatch => 3
  | fullStructural => 4

/-- What is known about a selector on the live page. -/
inductive Liveness
  | alive
  | dead
  /-- The page gave no definite answer, or was not asked. -/
  | unknown
  deriving Repr, DecidableEq

/-- The name of a liveness in reports. -/
def Liveness.name : Liveness → String
  | alive => "alive"
  | dead => "dead"
  | unknown => "unknown"

/-- Yes or no, where the answer is definite. -/
def Liveness.definite? : Liveness → Option Bool
  | alive => some true
  | dead => some false
  | unknown => none

/-- A selector that a tier proposes. -/
structure Candidate (α : Type) where
  selector : String
  tier : Tier
  score : α
  liveness : Liveness := .unknown
  /-- Its place among all candidates. -/
  order : Int := 0
  hash : Option String := none
  /-- The first and the last line of the element. -/
  lines : Option (Int × Int) := none
  snippet : Option String := none
  probeError : Option String := none
  stability : Option (Stability α) := none

namespace Candidate

variable {α : Type} [Scalar α]

/-- How much a candidate is to be trusted: its score if it is alive, else nothing. -/
def confidence (c : Candidate α) : α :=
  match c.liveness with
  | .alive => c.score
  | _ => Scalar.zero

/-- The candidate is alive and its score is above zero. -/
def isContender (c : Candidate α) : Bool :=
  Scalar.less Scalar.zero c.confidence

/-- `a` goes before `b`: by confidence, then tier, then score, then order. -/
def before (a b : Candidate α) : Bool :=
  if Scalar.less b.confidence a.confidence then true
  else if Scalar.less a.confidence b.confidence then false
  else if a.tier.rank != b.tier.rank then a.tier.rank < b.tier.rank
  else if Scalar.less b.score a.score then true
  else if Scalar.less a.score b.score then false
  else a.order < b.order

/-- The candidate that goes before all others; the first one if several equal it. -/
def foremost? : List (Candidate α) → Option (Candidate α)
  | [] => none
  | c :: rest =>
    match foremost? rest with
    | some best => if best.before c then some best else some c
    | none => some c

/-- The winner among some candidates. -/
def winner? (candidates : List (Candidate α)) : Option (Candidate α) :=
  foremost? (candidates.filter isContender)

/-- The evidence for rating a candidate.  Whether the fragment is the stored one is not looked at
for the stored selector. -/
def evidence (prefer : List String) (c : Candidate α) : Stability.Evidence :=
  { selector := c.selector
    prefer
    snippetMatched :=
      if c.tier = .storedSelector then none else some (Scalar.atMost Scalar.one c.score)
    alive := c.liveness.definite? }

/-- The candidate with its stability rated. -/
def rated (weights : Settings.Blend α) (prefer : List String) (c : Candidate α) : Candidate α :=
  { c with stability := some (Stability.rate weights (c.evidence prefer)) }

end Candidate

end Mooring.Resolution
