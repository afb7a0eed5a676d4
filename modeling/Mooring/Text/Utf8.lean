import Mooring.Text.Quoted

/-!
# Texts as bytes

Files hold texts in UTF-8.  Bytes that are no text are refused with the first defect in them: where
it begins, how many bytes it takes up, and why no character can begin or go on like that.
-/

namespace Mooring.Text

/-- What makes bytes no text. -/
inductive ByteDefect
  /-- No character begins with this byte. -/
  | badStart
  /-- The character that the bytes begin does not go on with the next one. -/
  | badContinuation
  /-- The bytes end within a character. -/
  | unfinished
  deriving Repr, DecidableEq

/-- The defect in words. -/
def ByteDefect.reason : ByteDefect → String
  | badStart => "invalid start byte"
  | badContinuation => "invalid continuation byte"
  | unfinished => "unexpected end of data"

/-- A defect and the bytes that have it: `count` of them from `position` on, beginning with
`first`. -/
structure BadBytes where
  defect : ByteDefect
  position : Nat
  count : Nat
  first : UInt8
  deriving Repr, DecidableEq

/-- The defect and its bytes in words. -/
def BadBytes.message (bad : BadBytes) : String :=
  let bytes :=
    if bad.count = 1 then
      "byte 0x" ++ String.ofList (hexDigits 2 bad.first.toNat) ++ " in position " ++
        toString bad.position
    else
      "bytes in position " ++ toString bad.position ++ "-" ++
        toString (bad.position + bad.count - 1)
  "'utf-8' codec can't decode " ++ bytes ++ ": " ++ bad.defect.reason

/-- A character that has begun: how many bytes of it were read, how many are to come, and between
which bounds the next one lies. -/
structure Begun where
  first : UInt8
  read : Nat
  missing : Nat
  low : Nat := 0x80
  high : Nat := 0xbf

/-- The character that a byte begins, if it takes further bytes.  The bounds leave out longer forms
than necessary, halves of pairs, and values beyond the last character. -/
def Begun.ofByte? (byte : UInt8) : Option Begun :=
  let n := byte.toNat
  if 0xc2 ≤ n && n ≤ 0xdf then some ⟨byte, 1, 1, 0x80, 0xbf⟩
  else if n = 0xe0 then some ⟨byte, 1, 2, 0xa0, 0xbf⟩
  else if n = 0xed then some ⟨byte, 1, 2, 0x80, 0x9f⟩
  else if 0xe1 ≤ n && n ≤ 0xef then some ⟨byte, 1, 2, 0x80, 0xbf⟩
  else if n = 0xf0 then some ⟨byte, 1, 3, 0x90, 0xbf⟩
  else if 0xf1 ≤ n && n ≤ 0xf3 then some ⟨byte, 1, 3, 0x80, 0xbf⟩
  else if n = 0xf4 then some ⟨byte, 1, 3, 0x80, 0x8f⟩
  else none

/-- The character with one more byte read; none if that was its last. -/
def Begun.next? (begun : Begun) : Option Begun :=
  if begun.missing = 1 then none
  else some ⟨begun.first, begun.read + 1, begun.missing - 1, 0x80, 0xbf⟩

/-- The first defect in some bytes that stand at `position`, after the beginning of a character if
there is one. -/
def badBytes? (position : Nat) (begun : Option Begun) : List UInt8 → Option BadBytes
  | [] => begun.map fun b => ⟨.unfinished, position - b.read, b.read, b.first⟩
  | byte :: rest =>
    match begun with
    | some b =>
      if b.low ≤ byte.toNat && byte.toNat ≤ b.high then badBytes? (position + 1) b.next? rest
      else some ⟨.badContinuation, position - b.read, b.read, b.first⟩
    | none =>
      if byte.toNat < 0x80 then badBytes? (position + 1) none rest
      else
        match Begun.ofByte? byte with
        | some b => badBytes? (position + 1) (some b) rest
        | none => some ⟨.badStart, position, 1, byte⟩

/-- The text that bytes stand for.  Bytes that are none have a defect, so the last fallback is never
taken. -/
def ofBytes (bytes : ByteArray) : Except BadBytes String :=
  match String.fromUTF8? bytes with
  | some text => .ok text
  | none =>
    .error ((badBytes? 0 none bytes.toList).getD ⟨.unfinished, bytes.size, 0, 0⟩)

/-- Writing a text and reading it again gives the text. -/
@[simp] theorem ofBytes_toUTF8 (text : String) : ofBytes text.toUTF8 = .ok text := by
  simp [ofBytes, String.fromUTF8?, String.fromUTF8, String.isValidUTF8]

end Mooring.Text
