import Mooring.Text.Blank
import Mooring.Text.Find
import Mooring.Text.Lower

/-!
# Where elements end

The extent of an element runs from the `<` of its start tag to the `>` of its own end tag.  The end
tag is found by counting the tags of the same name: a nested start tag that does not close itself
opens one more level, an end tag closes one.  Start tags are passed by a scan that knows quotes, so
a `>` inside a quoted value ends nothing.
-/

namespace Mooring.Markup

open Mooring.Text

/-- The text after the `>` that ends a start tag, and whether a slash stands before it.  `quote` is
the quote of the value that the scan is in, and `last` the last character that is not blank. -/
def afterTagFrom (quote : Option Char) (last : Char) : List Char → List Char × Bool
  | [] => ([], false)
  | c :: rest =>
    let last' := if isBlank c then last else c
    match quote with
    | some q => afterTagFrom (if c == q then none else some q) last' rest
    | none =>
      if c == '"' || c == '\'' then afterTagFrom (some c) last' rest
      else if c == '>' then (rest, last == '/')
      else afterTagFrom none last' rest

/-- The text after the start tag that a text starts with, and whether the tag closes itself.  A tag
that never ends takes the whole text. -/
def afterStartTag (cs : List Char) : List Char × Bool :=
  match cs with
  | [] => ([], false)
  | c :: rest => afterTagFrom none c rest

/-- Elements without content. -/
def contentless : List String :=
  ["area", "base", "br", "col", "embed", "hr", "img", "input", "link", "meta", "param", "source",
    "track", "wbr"]

/-- The text after a name at its start, letter case ignored. -/
def afterName? : List Char → List Char → Option (List Char)
  | [], text => some text
  | _ :: _, [] => none
  | n :: name, c :: text => if sameLetter n c then afterName? name text else none

/-- A character that may follow the name in a tag. -/
def endsTagName : List Char → Bool
  | [] => false
  | c :: _ => isBlank c || c == '/' || c == '>'

/-- A tag of a name at the start of a text: whether it is an end tag, and the text after the
name. -/
def tagNamed? (name : List Char) : List Char → Option (Bool × List Char)
  | '<' :: '/' :: rest =>
    ((afterName? name rest).filter endsTagName).map fun after => (true, after)
  | '<' :: rest => ((afterName? name rest).filter endsTagName).map fun after => (false, after)
  | _ => none

/-- The next tag of a name. -/
inductive NextTag
  | none
  /-- A start tag; the text from its `<` on. -/
  | opening (here : List Char)
  /-- An end tag; the text after its name. -/
  | closing (afterName : List Char)

/-- The next tag of a name in a text. -/
def nextTag (name : List Char) : List Char → NextTag
  | [] => .none
  | c :: rest =>
    match tagNamed? name (c :: rest) with
    | some (true, after) => .closing after
    | some (false, _) => .opening (c :: rest)
    | .none => nextTag name rest

/-- The text after the end tag that closes `depth` open elements of a name; nothing if it never
comes.  Every round passes a tag, so `fuel` is the length of the text. -/
def afterEndTag? (name : List Char) : Nat → Nat → List Char → Option (List Char)
  | 0, _, _ => none
  | fuel + 1, depth, cs =>
    match nextTag name cs with
    | .none => none
    | .closing after =>
      let rest := (afterFirst? (· == '>') after).getD []
      if depth ≤ 1 then some rest else afterEndTag? name fuel (depth - 1) rest
    | .opening here =>
      let (rest, closed) := afterStartTag here
      afterEndTag? name fuel (if closed then depth else depth + 1) rest

/-- The text after an element, given its name and the text from its `<` on; nothing if the element
is never closed. -/
def afterElement? (name : String) (cs : List Char) : Option (List Char) :=
  let (rest, closed) := afterStartTag cs
  if closed || contentless.contains name then some rest
  else afterEndTag? name.toList rest.length 1 rest

end Mooring.Markup
