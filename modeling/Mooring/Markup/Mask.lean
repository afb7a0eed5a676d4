import Mooring.Text.Blank
import Mooring.Text.Find
import Mooring.Text.Letters

/-!
# Masking brace expressions

A start tag may hold expressions in braces: `onClick={() => save()}` as a value, `{...props}` as a
spread.  Left alone, a `>` or a quote inside them would end the tag or open a value.  `mask` blanks
them: a value becomes a quoted value of blanks, a spread becomes blanks.  No character moves and no
line feed is touched, so places found in the masked text are places in the source.
-/

namespace Mooring.Markup

open Mooring.Text

/-- A quote that opens a string literal inside an expression. -/
def opensLiteral (c : Char) : Bool :=
  c == '"' || c == '\'' || c.toNat == 96

/-- How many characters it takes to reach and pass the brace that closes `depth` open ones, string
literals skipped (`literal` is the quote of the one the scan is in); nothing if the text ends
first. -/
def closingBrace? (literal : Option Char) (depth : Nat) : List Char → Option Nat
  | [] => none
  | c :: rest =>
    match literal with
    | some quote =>
      if c == '\\' then
        match rest with
        | [] => none
        | _ :: more => (closingBrace? (some quote) depth more).map (· + 2)
      else (closingBrace? (if c == quote then none else some quote) depth rest).map (· + 1)
    | none =>
      if opensLiteral c then (closingBrace? (some c) depth rest).map (· + 1)
      else if c == '\x7b' then (closingBrace? none (depth + 1) rest).map (· + 1)
      else if c == '\x7d' then
        if depth ≤ 1 then some 1 else (closingBrace? none (depth - 1) rest).map (· + 1)
      else (closingBrace? none depth rest).map (· + 1)

/-- The expression that follows an opening brace: its length without the closing brace. -/
def expression? (afterBrace : List Char) : Option Nat :=
  (closingBrace? none 1 afterBrace).map (· - 1)

/-- A character made blank, a line feed kept. -/
def blank (c : Char) : Char :=
  if c == '\n' then c else ' '

/-- The last character that is not blank, once `c` has been passed. -/
def solid (previous : Option Char) (c : Char) : Option Char :=
  if isBlank c then previous else some c

/-- A letter follows. -/
def startsWithLetter : List Char → Bool
  | [] => false
  | c :: _ => isLetter c

/-- Where the scan for start tags stands. -/
inductive TagState
  | outside
  | inside
  | inValue (quote : Char)
  deriving Repr, DecidableEq

/-- The state after a character that opens no expression. -/
def TagState.after (state : TagState) (c : Char) (rest : List Char) : TagState :=
  match state with
  | .outside => if c == '<' && startsWithLetter rest then .inside else .outside
  | .inside => if c == '"' || c == '\'' then .inValue c else if c == '>' then .outside else .inside
  | .inValue quote => if c == quote then .inside else .inValue quote

/-- The expression that the text at `c` opens inside a start tag: whether it is an attribute's
value, and its length. -/
def opened? (state : TagState) (previous : Option Char) (c : Char) (rest : List Char) :
    Option (Bool × Nat) :=
  if state = .inside && c == '\x7b' then
    let isValue := previous == some '='
    if isValue || startsWith ['.', '.', '.'] rest then
      (expression? rest).map fun length => (isValue, length)
    else none
  else none

/-- Masks a text, given where the scan stands and the last character before it that is not
blank. -/
def maskFrom (state : TagState) (previous : Option Char) : List Char → List Char
  | [] => []
  | c :: rest =>
    match opened? state previous c rest with
    | some (isValue, length) =>
      let edge := if isValue then '"' else ' '
      edge :: (rest.take length).map blank ++ edge ::
        maskFrom .inside (some '\x7d') (rest.drop (length + 1))
    | none => c :: maskFrom (state.after c rest) (solid previous c) rest
termination_by cs => cs.length
decreasing_by all_goals (simp only [List.length_cons, List.length_drop]; omega)

/-- The text with the expressions in its start tags blanked. -/
def mask (source : List Char) : List Char :=
  maskFrom .outside none source

end Mooring.Markup
