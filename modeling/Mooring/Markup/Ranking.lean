import Mooring.Fragment.Hash
import Mooring.Fragment.Similarity
import Mooring.Markup.Index

/-!
# Ranking nodes against a stored fragment

Each node is scored by how much its fragment is like the stored one, and the best come first; nodes
with the same score go by their distance to a line, then by document order.  A scan that is cut off
ranks the nodes it reached, which are the first ones of the index.
-/

namespace Mooring.Markup

open Mooring.Decimal Mooring.Text

/-- What is known of the fragment that is looked for. -/
structure Sought where
  hash : Option String := none
  fragment : Option String := none
  nearLine : Option Int := none

/-- The fragment hashes to the hash that is looked for. -/
def Sought.hashes (sought : Sought) (fragment : String) : Bool :=
  (nonEmpty sought.hash).any (Fragment.hashMatches fragment ·)

/-- How far a node starts from the line that is looked near; nothing if there is no such line. -/
def Sought.distance (sought : Sought) (node : Node) : Nat :=
  match sought.nearLine with
  | some line => (node.line - line).natAbs
  | none => 0

/-- A node with its score. -/
structure Ranked (α : Type) where
  node : Node
  score : α

variable {α : Type} [Scalar α]

/-- The score of a node: one if its fragment has the hash, else its similarity to the fragment. -/
def Sought.score (sought : Sought) (node : Node) : α :=
  if sought.hashes node.fragment then Scalar.one
  else
    match nonEmpty sought.fragment with
    | some fragment => Fragment.similarity fragment node.fragment
    | none => Scalar.zero

/-- The order of the ranking. -/
def Sought.before (sought : Sought) (a b : Ranked α) : Bool :=
  if Scalar.less b.score a.score then true
  else if Scalar.less a.score b.score then false
  else if sought.distance a.node != sought.distance b.node then
    sought.distance a.node < sought.distance b.node
  else a.node.order ≤ b.node.order

/-- Ranks nodes against what is looked for. -/
def Sought.rank (sought : Sought) (nodes : List Node) : List (Ranked α) :=
  (nodes.map fun node => ⟨node, sought.score node⟩).mergeSort sought.before

/-- Ranks the nodes of an index, or its first `reached` ones if the scan is cut off after them. -/
def Index.findSimilar (index : Index) (sought : Sought) (reached : Option Nat := none) :
    List (Ranked α) :=
  sought.rank (match reached with
    | some n => index.nodes.take n
    | none => index.nodes)

end Mooring.Markup
