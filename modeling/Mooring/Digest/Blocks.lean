import Mooring.Text.Quoted

/-!
# Message blocks

The digests here share one shape: the message gets a one bit, zeros and its length in bits, is cut
into blocks of sixteen 32-bit words, and each block is mixed into a few words of state.  They differ
in the order of bytes in a word, which is the parameter `bigEndian` below, and in how they mix.
-/

namespace Mooring.Digest

/-- The word rotated to the left. -/
def rotate (word : UInt32) (count : UInt32) : UInt32 :=
  (word <<< count) ||| (word >>> (32 - count))

/-- The low `count` bytes of a number, least significant first. -/
def lowBytes : Nat → Nat → List UInt8
  | 0, _ => []
  | count + 1, n => UInt8.ofNat n :: lowBytes count (n / 256)

/-- The message with a one bit, zeros up to eight bytes short of a whole number of blocks, and its
length in bits. -/
def padded (bigEndian : Bool) (bytes : List UInt8) : List UInt8 :=
  let size := bytes.length
  let length := lowBytes 8 (8 * size)
  bytes ++ 0x80 :: List.replicate ((119 - size % 64) % 64) 0 ++
    (if bigEndian then length.reverse else length)

/-- Four bytes as a word. -/
def wordOf (bigEndian : Bool) (a b c d : UInt8) : UInt32 :=
  if bigEndian then
    (a.toUInt32 <<< 24) ||| (b.toUInt32 <<< 16) ||| (c.toUInt32 <<< 8) ||| d.toUInt32
  else (d.toUInt32 <<< 24) ||| (c.toUInt32 <<< 16) ||| (b.toUInt32 <<< 8) ||| a.toUInt32

/-- The bytes as words, four by four. -/
def wordsOf (bigEndian : Bool) : List UInt8 → List UInt32
  | a :: b :: c :: d :: rest => wordOf bigEndian a b c d :: wordsOf bigEndian rest
  | _ => []

/-- The words sixteen by sixteen. -/
def blocksOf (words : List UInt32) : List (Array UInt32) :=
  if _h : words.length < 16 then []
  else (words.take 16).toArray :: blocksOf (words.drop 16)
termination_by words.length

/-- The blocks of a message. -/
def blocks (bigEndian : Bool) (bytes : List UInt8) : List (Array UInt32) :=
  blocksOf (wordsOf bigEndian (padded bigEndian bytes))

/-- A word in eight hexadecimal digits. -/
def wordHex (bigEndian : Bool) (word : UInt32) : List Char :=
  if bigEndian then Text.hexDigits 8 word.toNat
  else (lowBytes 4 word.toNat).flatMap fun byte => Text.hexDigits 2 byte.toNat

/-- A number is written with as many digits as are asked for. -/
theorem length_hexDigits (width n : Nat) : (Text.hexDigits width n).length = width := by
  induction width generalizing n with
  | zero => rfl
  | succ width ih => simp [Text.hexDigits, ih]

end Mooring.Digest
