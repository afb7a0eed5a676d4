import Mooring.Selector.Compound
import Mooring.Table
import Mooring.Text.Find
import Mooring.Text.Letters
import Mooring.Text.Lower

/-!
# The shape of a selector

A shape says what a selector demands of its element: a tag, an identifier, classes, attributes, a
role, a text.  It is read from three notations — `role:button[name="Save"]`, `text:"Save"`, and CSS,
of which the last compound counts.  Reading never fails: what is not understood demands nothing.
-/

namespace Mooring.Selector

open Mooring.Text

/-- What a selector demands of its element. -/
structure Shape where
  tag : Option String := none
  elementId : Option String := none
  classes : List String := []
  /-- Attributes, with the value where one is demanded. -/
  attrs : Table (Option String) := []
  role : Option String := none
  text : Option String := none
  deriving Repr, DecidableEq

/-- There is a text and it is not empty. -/
def hasText (s : Option String) : Bool :=
  s.any (· != "")

namespace Shape

/-- The shape demands nothing. -/
def isEmpty (shape : Shape) : Bool :=
  !(hasText shape.tag || hasText shape.elementId || !shape.classes.isEmpty ||
    !shape.attrs.isEmpty || hasText shape.role || hasText shape.text)

/-- The attributes with the values that they must have. -/
def requiredAttrs (shape : Shape) : Table String :=
  let valued := shape.attrs.filterMap fun (name, value) => value.map fun value => (name, value)
  let withId :=
    if hasText shape.elementId then Table.put "id" (shape.elementId.getD "") valued else valued
  if hasText shape.role then Table.put "role" (shape.role.getD "") withId else withId

/-- Everything the shape demands of an element's attributes; no value where presence is enough. -/
def constraints (shape : Shape) : Table (Option String) :=
  let present := shape.attrs.filter (·.2.isNone)
  let all := Table.union present (shape.requiredAttrs.map fun (name, value) => (name, some value))
  if shape.classes.isEmpty then all
  else Table.put "class" (some (String.intercalate " " shape.classes)) all

end Shape

/-- A character of a name: a word character or a hyphen. -/
def isNameChar (c : Char) : Bool :=
  isWord c || c == '-'

/-- A character of an attribute's name. -/
def isAttrNameChar (c : Char) : Bool :=
  isNameChar c || c == ':'

/-- The first character of an identifier or a class. -/
def isIdentStart (c : Char) : Bool :=
  isAsciiLetter c || c == '_'

/-- A name at the start of a text whose first character satisfies `isFirst`, and what follows. -/
def nameAt? (isFirst : Char → Bool) : List Char → Option (List Char × List Char)
  | [] => none
  | c :: rest =>
    if isFirst c then some (c :: rest.takeWhile isNameChar, rest.dropWhile isNameChar) else none

/-! ### Attribute parts -/

/-- An attribute part: its name, and its value if it is an exact one. -/
structure AttrPart where
  name : String
  value : Option String

/-- The text after a closing bracket, blanks before it left out. -/
def afterBracket? (cs : List Char) : Option (List Char) :=
  match cs.dropWhile isBlank with
  | ']' :: rest => some rest
  | _ => none

/-- The text after the operator of an attribute part, and whether the operator is plain `=`. -/
def operator? : List Char → Option (Bool × List Char)
  | '=' :: rest => some (true, rest)
  | c :: '=' :: rest =>
    if c == '~' || c == '|' || c == '^' || c == '$' || c == '*' then some (false, rest) else none
  | _ => none

/-- A value in a pair of the same quotes, up to the closing bracket. -/
def quotedAttrValue? : List Char → Option (List Char × List Char)
  | quote :: rest =>
    if quote == '"' || quote == '\'' then
      match splitBefore? (· == quote) rest with
      | some (value, after) => (afterBracket? (after.drop 1)).map fun rest => (value, rest)
      | none => none
    else none
  | [] => none

/-- A value without quotes, up to the closing bracket. -/
def bareAttrValue? (cs : List Char) : Option (List Char × List Char) :=
  let value := cs.takeWhile fun c => !(c == ']' || isBlank c)
  if value.isEmpty then none
  else (afterBracket? (cs.drop value.length)).map fun rest => (value, rest)

/-- An attribute part at the start of a text, given what follows its opening bracket, and the text
after it. -/
def attrPart? (cs : List Char) : Option (AttrPart × List Char) :=
  let body := cs.dropWhile isBlank
  let name := body.takeWhile isAttrNameChar
  if name.isEmpty then none
  else
    let name := String.ofList (lower name)
    let after := (body.dropWhile isAttrNameChar).dropWhile isBlank
    match operator? after with
    | none => (afterBracket? after).map fun rest => (⟨name, none⟩, rest)
    | some (exact, rest) =>
      let value := rest.dropWhile isBlank
      ((quotedAttrValue? value).or (bareAttrValue? value)).map fun (value, rest) =>
        (⟨name, if exact then some (String.ofList value) else none⟩, rest)

/-- The attribute parts of a compound, in order, and the compound without them.  `fuel` bounds the
number of characters. -/
def takeAttrParts : Nat → List Char → List AttrPart × List Char
  | 0, cs => ([], cs)
  | _ + 1, [] => ([], [])
  | fuel + 1, c :: rest =>
    match if c == '[' then attrPart? rest else none with
    | some (part, after) =>
      let (parts, left) := takeAttrParts fuel after
      (part :: parts, left)
    | none =>
      let (parts, left) := takeAttrParts fuel rest
      (parts, c :: left)

/-! ### Pseudo-classes -/

/-- What follows the closing parenthesis of an argument list whose opening one has been passed; one
level of parentheses may be nested inside (`nested` tells whether the scan is in one). -/
def afterArguments? (nested : Bool) : List Char → Option (List Char)
  | [] => none
  | c :: rest =>
    if c == '(' then if nested then none else afterArguments? true rest
    else if c == ')' then if nested then afterArguments? false rest else some rest
    else afterArguments? nested rest

/-- What follows a pseudo-class at the start of a text. -/
def afterPseudo? (cs : List Char) : Option (List Char) :=
  let body :=
    match cs with
    | ':' :: ':' :: rest => some rest
    | ':' :: rest => some rest
    | _ => none
  body.bind fun body =>
    if (body.takeWhile isNameChar).isEmpty then none
    else
      let after := body.dropWhile isNameChar
      match after with
      | '(' :: inner => some ((afterArguments? false inner).getD after)
      | _ => some after

/-- The compound without its pseudo-classes.  `fuel` bounds the number of characters. -/
def dropPseudos : Nat → List Char → List Char
  | 0, cs => cs
  | _ + 1, [] => []
  | fuel + 1, c :: rest =>
    match afterPseudo? (c :: rest) with
    | some after => dropPseudos fuel after
    | none => c :: dropPseudos fuel rest

/-- The text before the first quote that a closing parenthesis follows, on one line. -/
def untilQuoteAndParen? : List Char → Option (List Char)
  | [] => none
  | c :: rest =>
    if (c == '"' || c == '\'') && rest.head? == some ')' then some []
    else if c == '\n' then none
    else (untilQuoteAndParen? rest).map (c :: ·)

/-- The text that a `:has-text("…")` demands. -/
def hasTextArgument? : List Char → Option (List Char)
  | [] => none
  | c :: rest =>
    let here :=
      match afterLead? (":has-text(").toList (c :: rest) with
      | some (quote :: inner) =>
        if quote == '"' || quote == '\'' then untilQuoteAndParen? inner else none
      | _ => none
    here.or (hasTextArgument? rest)

/-! ### Identifiers and classes -/

/-- The first name that `mark` introduces. -/
def firstMarked? (mark : Char) : List Char → Option (List Char)
  | [] => none
  | c :: rest =>
    let here := if c == mark then (nameAt? isIdentStart rest).map Prod.fst else none
    here.or (firstMarked? mark rest)

/-- The names that `mark` introduces, in order.  `fuel` bounds the number of characters. -/
def allMarked (mark : Char) : Nat → List Char → List (List Char)
  | 0, _ => []
  | _ + 1, [] => []
  | fuel + 1, c :: rest =>
    match if c == mark then nameAt? isIdentStart rest else none with
    | some (name, after) => name :: allMarked mark fuel after
    | none => allMarked mark fuel rest

/-! ### The three notations -/

/-- The text of the first `name="…"`, in quotes of either kind. -/
def nameArgument? : List Char → Option (List Char)
  | [] => none
  | c :: rest =>
    let here :=
      match afterLead? ("name=").toList (c :: rest) with
      | some (quote :: inner) =>
        if quote == '"' || quote == '\'' then
          (splitBefore? (fun c => c == '"' || c == '\'') inner).map Prod.fst
        else none
      | _ => none
    here.or (nameArgument? rest)

/-- The shape of a role selector. -/
def roleShape? (selector : List Char) : Option Shape :=
  (afterLead? ("role:").toList selector).bind fun rest =>
    let role := rest.takeWhile isNameChar
    if role.isEmpty then none
    else
      let attrs :=
        match nameArgument? selector with
        | some name => [("aria-label", some (String.ofList name))]
        | none => []
      some { role := some (String.ofList role), attrs }

/-- A quote at the start of a text left out. -/
def dropQuote (cs : List Char) : List Char :=
  match cs with
  | c :: rest => if c == '"' || c == '\'' then rest else cs
  | [] => cs

/-- The shape of a text selector; a text over several lines is none. -/
def textShape? (selector : List Char) : Option Shape :=
  let marked := (afterLead? ("text:").toList selector).or (afterLead? ("text=").toList selector)
  marked.bind fun rest =>
    let body := rest.dropWhile isBlank
    if body.contains '\n' then none
    else
      let inner := (dropQuote (dropQuote body).reverse).reverse
      some { text := some (String.ofList inner) }

/-- The shape of a compound selector. -/
def compoundShape (compound : List Char) : Shape :=
  let (parts, bare) := takeAttrParts compound.length compound
  let attrs := Table.ofPairs (parts.map fun part => (part.name, part.value))
  let text := (hasTextArgument? bare).map String.ofList
  let bare := dropPseudos bare.length bare
  let tag := (nameAt? isAsciiLetter bare).map fun (name, _) => String.ofList (lower name)
  let marked := (firstMarked? '#' bare).map String.ofList
  let classes := (allMarked '.' bare.length bare).map String.ofList
  let named := (attrs.get? "id").join
  let elementId := if hasText marked then marked else named.or marked
  let attrs := if named.isSome then attrs.without "id" else attrs
  let role := (attrs.get? "role").join
  let attrs := if role.isSome then attrs.without "role" else attrs
  { tag, elementId, classes, attrs, role, text }

/-- The shape of a selector. -/
def Shape.ofSelector (selector : String) : Shape :=
  let selector := trim selector.toList
  if selector.isEmpty then {}
  else
    match roleShape? selector with
    | some shape => shape
    | none => (textShape? selector).getD (compoundShape (lastCompound selector))

end Mooring.Selector
