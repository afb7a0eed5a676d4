import Mooring.Digest.Blocks

/-!
# SHA-1

The 160-bit secure hash.
-/

namespace Mooring.Digest.Sha1

/-- The five words of state. -/
structure State where
  a : UInt32
  b : UInt32
  c : UInt32
  d : UInt32
  e : UInt32

/-- The state before the first block. -/
def initial : State :=
  ⟨0x67452301, 0xefcdab89, 0x98badcfe, 0x10325476, 0xc3d2e1f0⟩

/-- The eighty words that a block expands to. -/
def schedule (block : Array UInt32) : Array UInt32 :=
  (List.range 64).foldl
    (fun w i =>
      let t := i + 16
      let mixed := w.getD (t - 3) 0 ^^^ w.getD (t - 8) 0 ^^^ w.getD (t - 14) 0 ^^^ w.getD (t - 16) 0
      w.push (rotate mixed 1))
    block

/-- One of the eighty steps. -/
def step (w : Array UInt32) (s : State) (t : Nat) : State :=
  let (f, k) : UInt32 × UInt32 :=
    if t < 20 then ((s.b &&& s.c) ||| (~~~s.b &&& s.d), 0x5a827999)
    else if t < 40 then (s.b ^^^ s.c ^^^ s.d, 0x6ed9eba1)
    else if t < 60 then ((s.b &&& s.c) ||| (s.b &&& s.d) ||| (s.c &&& s.d), 0x8f1bbcdc)
    else (s.b ^^^ s.c ^^^ s.d, 0xca62c1d6)
  ⟨rotate s.a 5 + f + s.e + k + w.getD t 0, s.a, rotate s.b 30, s.c, s.d⟩

/-- Mixes one block into the state. -/
def absorb (s : State) (block : Array UInt32) : State :=
  let w := schedule block
  let r := (List.range 80).foldl (step w) s
  ⟨s.a + r.a, s.b + r.b, s.c + r.c, s.d + r.d, s.e + r.e⟩

/-- The digest in forty hexadecimal digits. -/
def hex (bytes : List UInt8) : List Char :=
  let s := (blocks true bytes).foldl absorb initial
  wordHex true s.a ++ wordHex true s.b ++ wordHex true s.c ++ wordHex true s.d ++ wordHex true s.e

end Mooring.Digest.Sha1
