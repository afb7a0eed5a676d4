import Mooring.Markup.StartTag
import Mooring.Text.Quoted

/-!
# Markup as events

A document is read into a flat list of events: elements start and finish, text stands between them,
and some constructs (comments, declarations, instructions) say nothing themselves but cut the text
in two.  Reading never gives up on odd markup, with one exception: a marked section with a name that
no standard knows.

The text is gone through twice.  The first time, a construct whose end is missing stops the reading;
the second time starts from there and takes such a construct as text.
-/

namespace Mooring.Markup

open Mooring.Text

/-- One thing that happens while a document is read. -/
inductive Event
  /-- An element starts, and finishes at once if its tag closes itself; `offset` is the place of its
  `<`. -/
  | start (tag : ReadTag) (offset : Nat)
  /-- An element of this name finishes. -/
  | finish (name : String)
  /-- Some text. -/
  | text (text : List Char)
  /-- Text on its own, not joined with the text around it. -/
  | separateText (text : List Char)
  /-- The text before and the text after are two texts. -/
  | cut

/-- Why a document cannot be read. -/
inductive MarkupError
  /-- A marked section without a name; the text from its `<` on. -/
  | missingSectionName (shown : List Char)
  /-- A marked section with an unknown name, as it stands in the text. -/
  | unknownSection (keyword : List Char)
  deriving Repr, DecidableEq

/-- The error in words. -/
def MarkupError.message (e : MarkupError) : String :=
  let detail :=
    match e with
    | missingSectionName shown => "expected name token at " ++ String.ofList (quoted shown)
    | unknownSection keyword =>
      "unknown status keyword " ++ String.ofList (quoted keyword) ++ " in marked section"
  "The markup you provided was rejected by the parser. Trying a different parser or a different " ++
    "encoding may help.\n\nOriginal exception(s) from parser:\n AssertionError: " ++ detail

/-- What a construct at the start of a text amounts to. -/
inductive Construct
  /-- The text ends before the construct does. -/
  | incomplete
  /-- Its events, the element whose raw text follows it if one does, and the text after it. -/
  | read (events : List Event) (raw : Option String) (rest : List Char)
  /-- The document cannot be read. -/
  | failed (error : MarkupError)

/-- The text before and after the first place where `closes` finds an end. -/
def splitAtClose? (closes : List Char → Option (List Char)) :
    List Char → Option (List Char × List Char)
  | [] => none
  | c :: rest =>
    match closes (c :: rest) with
    | some after => some ([], after)
    | none => (splitAtClose? closes rest).map fun (before, after) => (c :: before, after)

/-- The text after a character, if it starts with it, blanks before it left out. -/
def afterBlanksAnd? (c : Char) (cs : List Char) : Option (List Char) :=
  match cs.dropWhile isBlank with
  | d :: rest => if d == c then some rest else none
  | [] => none

/-- The end of a comment. -/
def closesComment? : List Char → Option (List Char)
  | '-' :: '-' :: rest => afterBlanksAnd? '>' rest
  | _ => none

/-- The end of a marked section with one bracket. -/
def closesShortSection? : List Char → Option (List Char)
  | ']' :: rest => afterBlanksAnd? '>' rest
  | _ => none

/-- The end of a marked section with two brackets. -/
def closesSection? : List Char → Option (List Char)
  | ']' :: rest => (afterBlanksAnd? ']' rest).bind (afterBlanksAnd? '>')
  | _ => none

/-- A character of a marked section's name after its first one. -/
def isSectionNameChar (c : Char) : Bool :=
  isAsciiLetter c || isAsciiDigit c || c == '-' || c == '_' || c == '.'

/-- The text starts with `word`, which is in lower case, whatever the case in the text. -/
def startsWithWord (word cs : List Char) : Bool :=
  startsWith word ((cs.take word.length).map fun c => if c.toNat < 128 then lowerChar c else c)

/-- Reads a marked section, given the text from its `<` on. -/
def readSection (cs : List Char) : Construct :=
  let body := cs.drop 3
  match body with
  | [] => .incomplete
  | c :: rest =>
    if !isAsciiLetter c then .failed (.missingSectionName (cs.take 20))
    else
      let name := c :: rest.takeWhile isSectionNameChar
      let afterName := rest.dropWhile isSectionNameChar
      let after := afterName.dropWhile isBlank
      if after.isEmpty then .incomplete
      else
        let keyword := String.ofList (name.map lowerChar)
        let close :=
          if ["temp", "cdata", "ignore", "include", "rcdata"].contains keyword then
            some (splitAtClose? closesSection? body)
          else if ["if", "else", "endif"].contains keyword then
            some (splitAtClose? closesShortSection? body)
          else none
        match close with
        | none =>
          .failed (.unknownSection (name ++ afterName.takeWhile isBlank))
        | some none => .incomplete
        | some (some (inner, after)) =>
          if startsWithWord ['c', 'd', 'a', 't', 'a', '['] inner then
            .read [.separateText (inner.drop 6)] none after
          else .read [.cut] none after

/-- Goes up to the next `>`, saying nothing. -/
def readToEnd (events : List Event) (cs : List Char) : Construct :=
  match afterFirst? (· == '>') cs with
  | some rest => .read events none rest
  | none => .incomplete

/-- A character of an end tag's name after its first one. -/
def isEndNameChar (c : Char) : Bool :=
  isAsciiLetter c || isAsciiDigit c || c == '-' || c == '.' || c == ':' || c == '_'

/-- A regular end tag: its name, and the text after it. -/
def regularEndTag? (cs : List Char) : Option (List Char × List Char) :=
  match (cs.drop 2).dropWhile isBlank with
  | c :: rest =>
    if isAsciiLetter c then
      (afterBlanksAnd? '>' (rest.dropWhile isEndNameChar)).map fun after =>
        (c :: rest.takeWhile isEndNameChar, after)
    else none
  | [] => none

/-- Reads an end tag, given the text from its `<` on and the element whose raw text is being
read. -/
def readEndTag (raw : Option String) (cs : List Char) : Construct :=
  match afterFirst? (· == '>') (cs.drop 1) with
  | none => .incomplete
  | some afterMark =>
    let asText : Construct := .read [.text (cs.take (cs.length - afterMark.length))] raw afterMark
    match regularEndTag? cs with
    | some (name, after) =>
      let name := String.ofList (lower name)
      if raw.isSome && raw != some name then asText else .read [.finish name] none after
    | none =>
      if raw.isSome then asText
      else
        match elementName? (cs.drop 2) with
        | some (name, cursor) =>
          readToEnd [.finish (String.ofList (lower name))] cursor.rest
        | none =>
          match cs.drop 2 with
          | '>' :: after => .read [] none after
          | other => readToEnd [.cut] other

/-- Reads a start tag and says whether raw text follows it. -/
def readStart (offset : Nat) (cs : List Char) : Construct :=
  match readStartTag cs with
  | .incomplete => .incomplete
  | .text literal rest => .read [.text literal] none rest
  | .tag tag rest =>
    let opensRaw := !tag.selfClosing && (tag.name == "script" || tag.name == "style")
    .read [.start tag offset] (if opensRaw then some tag.name else none) rest

/-- Reads a construct that starts with `<`; nothing if that character is text. -/
def readMarkup? (offset : Nat) (raw : Option String) (cs : List Char) : Option Construct :=
  match cs with
  | '<' :: '/' :: _ => some (readEndTag raw cs)
  | '<' :: '!' :: '-' :: '-' :: rest =>
    some (match splitAtClose? closesComment? rest with
      | some (_, after) => .read [.cut] none after
      | none => .incomplete)
  | '<' :: '?' :: rest => some (readToEnd [.cut] rest)
  | '<' :: '!' :: '[' :: _ => some (readSection cs)
  | '<' :: '!' :: rest =>
    if startsWithWord ['d', 'o', 'c', 't', 'y', 'p', 'e'] rest then
      some (readToEnd [.cut] (rest.drop 7))
    else some (readToEnd [.cut] rest)
  | '<' :: c :: _ => if isAsciiLetter c then some (readStart offset cs) else none
  | _ => none

/-- What an incomplete construct counts as when no more text will come: the text up to and with the
next `>`, else up to the next `<`, else its first character; and the text after that. -/
def takeAsText (cs : List Char) : List Char × List Char :=
  let rest := cs.drop 1
  let after :=
    match afterFirst? (· == '>') rest with
    | some after => after
    | none =>
      match splitBefore? (· == '<') rest with
      | some (_, after) => after
      | none => rest
  (cs.take (cs.length - after.length), after)

/-- What reading at one place leads to. -/
inductive Step
  /-- Events, and the state and text to go on with. -/
  | next (events : List Event) (raw : Option String) (rest : List Char)
  /-- Events, after which the pass stops before this text. -/
  | stop (events : List Event) (rest : List Char)
  /-- The document cannot be read. -/
  | failed (error : MarkupError)

/-- A numeric reference at the start of a text: its number, and the text after it. -/
def numericReference? (cs : List Char) : Option (Nat × List Char) :=
  let finish (n : Nat) (rest : List Char) : Option (Nat × List Char) :=
    match rest with
    | [] => none
    | c :: _ => if isHexDigit c then none else some (n, afterSemicolon rest)
  let body := cs.drop 2
  let decimal := body.takeWhile isAsciiDigit
  if !decimal.isEmpty then finish (digitsValue 10 decimal) (body.dropWhile isAsciiDigit)
  else
    match body with
    | x :: rest =>
      let digits := rest.takeWhile isHexDigit
      if (x == 'x' || x == 'X') && !digits.isEmpty then
        finish (digitsValue 16 digits) (rest.dropWhile isHexDigit)
      else none
    | [] => none

/-- A character of a named reference after its first one. -/
def isEntityChar (c : Char) : Bool :=
  isAsciiLetter c || isAsciiDigit c || c == '-' || c == '.'

/-- A named reference at the start of a text: its name, and the text after it.  The name must be
followed by some character; at the end of the text that is its own last hyphen or point. -/
def namedReference? (cs : List Char) : Option (List Char × List Char) :=
  match cs.drop 1 with
  | c :: rest =>
    if !isAsciiLetter c then none
    else
      let more := rest.takeWhile isEntityChar
      match rest.dropWhile isEntityChar with
      | d :: after => some (c :: more, afterSemicolon (d :: after))
      | [] =>
        let tail := more.reverse.takeWhile fun c => !(c == '-' || c == '.')
        if tail.length < more.length then
          let keep := more.length - tail.length - 1
          some (c :: more.take keep, more.drop keep)
        else none
  | [] => none

/-- What a named reference stands for in text: its character, or the reference without its
semicolon if the name is unknown. -/
def entityText (name : List Char) : List Char :=
  match named? name with
  | some c => [c]
  | none => '&' :: name

/-- Reads at a place that starts with `&`. -/
def readReference (final : Bool) (cs : List Char) : Step :=
  match cs with
  | '&' :: '#' :: rest =>
    match numericReference? cs with
    | some (n, after) => .next [.text [numberedInText n]] none after
    | none =>
      if rest.contains ';' then .stop [.text ['&', '#']] rest else .stop [] cs
  | _ =>
    match namedReference? cs with
    | some (name, after) => .next [.text (entityText name)] none after
    | none =>
      match cs.drop 1 with
      | [] => .stop [] cs
      | c :: rest =>
        if isAsciiLetter c || c == '#' then
          .stop [] (if final && rest.isEmpty then [c] else cs)
        else .next [.text ['&']] none (c :: rest)

/-- Reads at a place that starts with `<` or `&`. -/
def readAt (final : Bool) (offset : Nat) (raw : Option String) (cs : List Char) : Step :=
  if cs.head? == some '<' then
    match readMarkup? offset raw cs with
    | none =>
      match cs.drop 1 with
      | [] => .stop [] cs
      | rest => .next [.text ['<']] raw rest
    | some (.read events raw rest) => .next events raw rest
    | some (.failed error) => .failed error
    | some .incomplete =>
      if final then
        let (text, rest) := takeAsText cs
        .next [.text text] raw rest
      else .stop [] cs
  else readReference final cs

/-- The text starts with the end tag that closes raw text of an element. -/
def closesRaw (name : List Char) (cs : List Char) : Bool :=
  match cs with
  | '<' :: '/' :: rest =>
    let rest := rest.dropWhile isBlank
    let found := rest.take name.length
    found.length == name.length && (found.zip name).all (fun (c, d) => sameLetter c d) &&
      (afterBlanksAnd? '>' (rest.drop name.length)).isSome
  | _ => false

/-- The raw text before the end tag that closes it, and the text from there on. -/
def splitBeforeRawClose? (name : List Char) : List Char → Option (List Char × List Char)
  | [] => none
  | c :: rest =>
    if closesRaw name (c :: rest) then some ([], c :: rest)
    else (splitBeforeRawClose? name rest).map fun (before, after) => (c :: before, after)

/-- The text before the next place where something may start, and the text from there on. -/
def splitBeforeMarkup? (raw : Option String) (cs : List Char) : Option (List Char × List Char) :=
  match raw with
  | some name => splitBeforeRawClose? name.toList cs
  | none => some ((splitBefore? (fun c => c == '<' || c == '&') cs).getD (cs, []))

/-- A text event, unless there is no text. -/
def textEvents (text : List Char) : List Event :=
  if text.isEmpty then [] else [.text text]

/-- Where a pass over the text ended. -/
structure Progress where
  events : List Event
  raw : Option String
  rest : List Char

/-- Goes over a text once.  Every round takes at least one character, so `fuel` is its length. -/
def pass (final : Bool) (size : Nat) :
    Nat → Option String → List Char → Except MarkupError Progress
  | 0, raw, cs => .ok ⟨[], raw, cs⟩
  | fuel + 1, raw, cs =>
    if cs.isEmpty then .ok ⟨[], raw, []⟩
    else
      match splitBeforeMarkup? raw cs with
      | none => .ok ⟨[], raw, cs⟩
      | some (before, here) =>
        if here.isEmpty then .ok ⟨textEvents before, raw, []⟩
        else
          match readAt final (size - here.length) raw here with
          | .failed error => .error error
          | .stop events rest => .ok ⟨textEvents before ++ events, raw, rest⟩
          | .next events raw rest => do
            let later ← pass final size fuel raw rest
            return { later with events := textEvents before ++ events ++ later.events }

/-- The events of a document. -/
def eventsOf (cs : List Char) : Except MarkupError (List Event) := do
  let first ← pass false cs.length (cs.length + 1) none cs
  let second ← pass true cs.length (first.rest.length + 1) first.raw first.rest
  let left := if second.raw.isSome then [] else textEvents second.rest
  return first.events ++ second.events ++ left

end Mooring.Markup
