import Mooring.Markup.Reference
import Mooring.Text.Blank
import Mooring.Text.Find
import Mooring.Text.Letters
import Mooring.Text.Lower

/-!
# Reading a start tag

A start tag is read tolerantly.  Attributes are separated by blanks and slashes; a name runs up to a
blank, a slash, `=` or `>`; a value is quoted, or runs up to a blank or `>`.  A quote that is never
closed is where tolerance shows: the value is then empty if a blank stands before the quote, starts
with the last `=` if there are several, and otherwise there is no value at all.

Whether a name may start at a place depends on the character before it, so the reading position is
that character together with the rest of the text.
-/

namespace Mooring.Markup

open Mooring.Text

/-- A reading position: the character before it, and the text after it. -/
structure Cursor where
  previous : Char
  rest : List Char

/-- Moves past the characters that satisfy `p`. -/
def Cursor.skip (p : Char → Bool) (previous : Char) : List Char → Cursor
  | [] => ⟨previous, []⟩
  | c :: rest => if p c then Cursor.skip p c rest else ⟨previous, c :: rest⟩

/-- Moves past blanks and slashes, but not past a slash that stands before `>`. -/
def Cursor.skipGaps (previous : Char) : List Char → Cursor
  | [] => ⟨previous, []⟩
  | '/' :: '>' :: rest => ⟨previous, '/' :: '>' :: rest⟩
  | c :: rest =>
    if isBlank c || c == '/' then Cursor.skipGaps c rest else ⟨previous, c :: rest⟩

/-- A character that ends the name of an element. -/
def endsElementName (c : Char) : Bool :=
  c == '\t' || c == '\n' || c == '\r' || c == '\x0c' || c == ' ' || c == '/' || c == '>' ||
    c == '\x00'

/-- The name of an element at the start of a text, and the position after it. -/
def elementName? : List Char → Option (List Char × Cursor)
  | [] => none
  | c :: rest =>
    if isAsciiLetter c then
      let name := c :: rest.takeWhile (!endsElementName ·)
      some (name, Cursor.skip (!endsElementName ·) c rest)
    else none

/-- A character of an attribute name after its first one. -/
def isAttributeNameChar (c : Char) : Bool :=
  !(isBlank c || c == '/' || c == '=' || c == '>')

/-- A character of a value without quotes. -/
def isBareChar (c : Char) : Bool :=
  !(c == '>' || isBlank c)

/-- A value in quotes at the start of a text, and the position after its closing quote. -/
def quotedValue? (cs : List Char) : Option (List Char × Cursor) :=
  match cs with
  | quote :: rest =>
    if quote == '"' || quote == '\'' then
      (splitBefore? (· == quote) rest).map fun (value, after) => (value, ⟨quote, after.drop 1⟩)
    else none
  | [] => none

/-- A value without quotes at the start of a text, and the position after it. -/
def bareValue (previous : Char) (cs : List Char) : List Char × Cursor :=
  (cs.takeWhile isBareChar, Cursor.skip isBareChar previous cs)

/-- The text starts with a quote. -/
def startsWithQuote : List Char → Bool
  | [] => false
  | c :: _ => c == '"' || c == '\''

/-- The value after an attribute's name, and the position after it; nothing if there is none. -/
def value? (cs : List Char) : Option (List Char × Cursor) :=
  let equals := (cs.dropWhile isBlank).takeWhile (· == '=')
  let after := (cs.dropWhile isBlank).dropWhile (· == '=')
  if equals.isEmpty then none
  else
    let value := Cursor.skip isBlank '=' after
    if !startsWithQuote value.rest then some (bareValue value.previous value.rest)
    else
      match quotedValue? value.rest with
      | some found => some found
      | none =>
        if value.rest.length < after.length then some ([], value)
        else if 2 ≤ equals.length then
          let (bare, cursor) := bareValue '=' value.rest
          some ('=' :: bare, cursor)
        else none

/-- An attribute with the position after it and the gap that follows. -/
structure ReadAttribute where
  name : List Char
  value : List Char
  after : Cursor

/-- The attribute at a reading position. -/
def attribute? (at_ : Cursor) : Option ReadAttribute :=
  let p := at_.previous
  if !(p == '\'' || p == '"' || p == '/' || isBlank p) then none
  else
    match at_.rest with
    | [] => none
    | c :: rest =>
      if isBlank c || c == '/' || c == '>' then none
      else
        let name := c :: rest.takeWhile isAttributeNameChar
        let cursor := Cursor.skip isAttributeNameChar c rest
        match value? cursor.rest with
        | some (value, cursor) => some ⟨name, value, Cursor.skipGaps cursor.previous cursor.rest⟩
        | none => some ⟨name, [], Cursor.skipGaps cursor.previous cursor.rest⟩

/-- The attributes from a reading position on, while more than `stop` characters remain, and the
position after them.  `fuel` bounds their number. -/
def attributes (stop : Nat) : Nat → Cursor → List ReadAttribute × Cursor
  | 0, cursor => ([], cursor)
  | fuel + 1, cursor =>
    if cursor.rest.length ≤ stop then ([], cursor)
    else
      match attribute? cursor with
      | none => ([], cursor)
      | some found =>
        let (more, after) := attributes stop fuel found.after
        (found :: more, after)

/-- How a start tag ends. -/
inductive TagEnd
  /-- The text ends before the tag does. -/
  | incomplete
  /-- The tag ends before this text. -/
  | before (rest : List Char)

/-- Where the start tag ends whose name is followed by `cursor`. -/
def startTagEnd (cursor : Cursor) : TagEnd :=
  let gap := Cursor.skip (fun c => isBlank c || c == '/') cursor.previous cursor.rest
  let (_, cursor) := attributes 0 gap.rest.length gap
  match cursor.rest.dropWhile isBlank with
  | [] => .incomplete
  | '>' :: rest => .before rest
  | '/' :: '>' :: rest => .before rest
  | c :: rest =>
    if isAsciiLetter c || c == '=' || c == '/' then .incomplete else .before (c :: rest)

/-- A start tag as read. -/
structure ReadTag where
  name : String
  attributes : List (String × String)
  /-- The tag closes itself. -/
  selfClosing : Bool

/-- What a text that opens with `<` and a letter starts with. -/
inductive StartTag
  /-- The text ends before the tag does. -/
  | incomplete
  /-- A tag, and the text after it. -/
  | tag (tag : ReadTag) (rest : List Char)
  /-- Something that is no tag and counts as text, and the text after it. -/
  | text (literal : List Char) (rest : List Char)

/-- Reads the start tag at the start of a text. -/
def readStartTag (cs : List Char) : StartTag :=
  match elementName? (cs.drop 1) with
  | none => .incomplete
  | some (name, cursor) =>
    match startTagEnd cursor with
    | .incomplete => .incomplete
    | .before rest =>
      let gap := Cursor.skipGaps cursor.previous cursor.rest
      let (found, after) := attributes rest.length gap.rest.length gap
      let tail := trim (after.rest.take (after.rest.length - rest.length))
      if tail = ['>'] || tail = ['/', '>'] then
        .tag
          { name := String.ofList (lower name)
            attributes := found.map fun a =>
              (String.ofList (lower a.name), String.ofList (resolveReferences a.value))
            selfClosing := tail = ['/', '>'] }
          rest
      else .text (cs.take (cs.length - rest.length)) rest

end Mooring.Markup
