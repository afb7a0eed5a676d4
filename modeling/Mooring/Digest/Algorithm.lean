import Mooring.Digest.Md5
import Mooring.Digest.Sha1
import Mooring.Digest.Sha256

/-!
# Digest algorithms by name

The three digests that a stored hash may name, each with its fixed number of hexadecimal digits.
-/

namespace Mooring.Digest

/-- A supported digest. -/
inductive Algorithm
  | sha1
  | sha256
  | md5
  deriving Repr, DecidableEq

namespace Algorithm

/-- Every supported digest, in the order messages list them. -/
def all : List Algorithm :=
  [sha1, sha256, md5]

/-- The name that stored hashes and options use. -/
def name : Algorithm → String
  | sha1 => "sha1"
  | sha256 => "sha256"
  | md5 => "md5"

/-- The digest with a name. -/
def ofName? (text : String) : Option Algorithm :=
  all.find? (·.name == text)

/-- How many hexadecimal digits the digest has. -/
def hexLength : Algorithm → Nat
  | sha1 => 40
  | sha256 => 64
  | md5 => 32

/-- The digest of a text's UTF-8 bytes in hexadecimal digits. -/
def hex (algorithm : Algorithm) (text : String) : List Char :=
  let bytes := text.toUTF8.toList
  match algorithm with
  | sha1 => Sha1.hex bytes
  | sha256 => Sha256.hex bytes
  | md5 => Md5.hex bytes

end Algorithm

/-- A word is written with eight digits, whatever the byte order. -/
theorem length_wordHex (bigEndian : Bool) (word : UInt32) :
    (wordHex bigEndian word).length = 8 := by
  unfold wordHex
  split
  · exact length_hexDigits 8 _
  · simp [lowBytes, length_hexDigits]

/-- Every digest has its fixed length. -/
theorem length_hex (algorithm : Algorithm) (text : String) :
    (algorithm.hex text).length = algorithm.hexLength := by
  cases algorithm <;>
    simp [Algorithm.hex, Algorithm.hexLength, Sha1.hex, Sha256.hex, Md5.hex, length_wordHex]

end Mooring.Digest
