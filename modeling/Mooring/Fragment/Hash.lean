import Mooring.Digest.Algorithm
import Mooring.Fragment.Canonical
import Mooring.Text.Find

/-!
# Hashes of fragments

A fragment's hash is the start of a digest of its canonical form, written with the digest's name in
front: `sha1:0123456789abcdef`.  A stored hash thereby says how it was made, so a fragment can be
hashed again in the same format and compared.
-/

namespace Mooring.Fragment

open Mooring.Digest

/-- How a hash is made: the digest, and how many of its digits are kept. -/
structure HashFormat where
  algorithm : Algorithm := .sha1
  digits : Int := 16
  deriving Repr, DecidableEq

/-- A digest that is not supported. -/
structure Unsupported where
  algorithm : String
  deriving Repr, DecidableEq

/-- The complaint in words. -/
def Unsupported.message (u : Unsupported) : String :=
  "Unsupported hash algorithm: " ++ u.algorithm

/-- The format with a digest given by name. -/
def HashFormat.named (algorithm : String) (digits : Int) : Except Unsupported HashFormat :=
  match Algorithm.ofName? algorithm with
  | some algorithm => .ok ⟨algorithm, digits⟩
  | none => .error ⟨algorithm⟩

/-- The number of digits kept: at least six, at most all. -/
def HashFormat.kept (format : HashFormat) : Nat :=
  max 6 (min format.digits format.algorithm.hexLength).toNat

/-- The hash of a fragment in a format. -/
def hash (format : HashFormat) (fragment : String) : String :=
  format.algorithm.name ++ ":" ++
    String.ofList ((format.algorithm.hex (canonical fragment)).take format.kept)

/-- The format that a stored hash is written in; the default format if it names no supported digest
or holds no digits. -/
def HashFormat.ofStored (stored : String) : HashFormat :=
  match Text.splitBefore? (· == ':') stored.toList with
  | some (name, _ :: digits) =>
    match Algorithm.ofName? (String.ofList name) with
    | some algorithm => if digits.isEmpty then {} else ⟨algorithm, digits.length⟩
    | none => {}
  | _ => {}

/-- The fragment hashes to the stored hash, in the stored hash's own format.  An empty stored hash
matches nothing. -/
def hashMatches (fragment stored : String) : Bool :=
  stored != "" && hash (.ofStored stored) fragment == stored

end Mooring.Fragment
