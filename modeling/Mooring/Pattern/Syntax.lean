import Mooring.Decimal.Rounding
import Mooring.Text.Blank
import Mooring.Text.Letters
import Mooring.Text.Lower

/-!
# Patterns

The pieces that a regular expression is made of.  Flags are resolved into the pieces they concern,
so a piece means the same wherever it stands: a character knows whether it ignores case, the start
of a line whether it is a start of the text only.
-/

namespace Mooring.Pattern

open Mooring.Text

/-- The flags in force at a place of a pattern. -/
structure Flags where
  ignoreCase : Bool := false
  multiline : Bool := false
  dotAll : Bool := false
  verbose : Bool := false
  ascii : Bool := false
  unicode : Bool := false
  deriving Repr, DecidableEq

/-- How letter case counts when characters are compared. -/
inductive Fold
  | exact
  /-- Letters of any script are compared without case. -/
  | anyCase
  /-- ASCII letters are compared without case. -/
  | asciiCase
  deriving Repr, DecidableEq

/-- The comparison that the flags ask for. -/
def Flags.fold (flags : Flags) : Fold :=
  if !flags.ignoreCase then .exact else if flags.ascii then .asciiCase else .anyCase

/-- A class of characters with a name of its own. -/
inductive Category
  | digit
  | space
  | word
  deriving Repr, DecidableEq

/-- The character is in the class, or in its ASCII part. -/
def Category.holds (category : Category) (ascii : Bool) (c : Char) : Bool :=
  (!ascii || c.toNat < 128) &&
    match category with
    | digit => (decimalValue? c).isSome
    | space => isBlank c && !(ascii && 28 ≤ c.toNat && c.toNat ≤ 31)
    | word => isWord c

/-- A member of a character set. -/
inductive Member
  | char (c : Char)
  | range (first last : Char)
  | category (category : Category) (negated ascii : Bool)
  deriving Repr, DecidableEq

/-- A place that takes no character. -/
inductive Place
  | textStart
  | lineStart
  | textEnd
  /-- The end of the text, or before a line feed that ends it. -/
  | lastLineEnd
  | lineEnd
  | wordEdge (negated ascii : Bool)
  deriving Repr, DecidableEq

/-- Which of its possible numbers a repetition tries first, and whether it tries others. -/
inductive Greed
  | greedy
  | lazy
  | possessive
  deriving Repr, DecidableEq

/-- A piece of a pattern. -/
inductive Piece
  | char (fold : Fold) (c : Char)
  | any (lineFeedToo : Bool)
  | set (fold : Fold) (negated : Bool) (members : List Member)
  | place (place : Place)
  /-- A group; a numbered one captures what it matches. -/
  | group (number : Option Nat) (body : List Piece)
  | atomic (body : List Piece)
  | either (alternatives : List (List Piece))
  | repetition (greed : Greed) (least : Nat) (most : Option Nat) (body : List Piece)
  /-- A look ahead, or behind by the width of what is looked for. -/
  | look (behind negated : Bool) (body : List Piece)
  /-- What a group captured; `width` bounds its length. -/
  | reference (fold : Fold) (number : Nat) (width : Nat × Nat)
  /-- One way if a group has captured something, else the other. -/
  | conditional (number : Nat) (yes no : List Piece)
  deriving Inhabited

/-- Widths are not counted beyond this. -/
def maxWidth : Nat := 2 ^ 64

mutual

/-- The least and the greatest number of characters that a piece can take. -/
def Piece.width : Piece → Nat × Nat
  | .char .. | .any .. | .set .. => (1, 1)
  | .place .. | .look .. => (0, 0)
  | .group _ body | .atomic body => widthOf body
  | .either alternatives => widthOfEither alternatives
  | .repetition _ least most body =>
    let (low, high) := widthOf body
    let high :=
      match most with
      | some most => high * most
      | none => if high = 0 then 0 else maxWidth
    (min (low * least) maxWidth, min high maxWidth)
  | .reference _ _ width => width
  | .conditional _ yes no =>
    let (l₁, h₁) := widthOf yes
    let (l₂, h₂) := widthOf no
    (min l₁ l₂, max h₁ h₂)

/-- The width of pieces in sequence. -/
def widthOf : List Piece → Nat × Nat
  | [] => (0, 0)
  | piece :: rest =>
    let (l₁, h₁) := piece.width
    let (l₂, h₂) := widthOf rest
    (min (l₁ + l₂) maxWidth, min (h₁ + h₂) maxWidth)

/-- The width of alternatives. -/
def widthOfEither : List (List Piece) → Nat × Nat
  | [] => (0, 0)
  | [body] => widthOf body
  | body :: rest =>
    let (l₁, h₁) := widthOf body
    let (l₂, h₂) := widthOfEither rest
    (min l₁ l₂, max h₁ h₂)

end

mutual

/-- Every look behind in a piece is for something of one fixed width. -/
def Piece.looksFixed : Piece → Bool
  | .char .. | .any .. | .set .. | .place .. | .reference .. => true
  | .group _ body | .atomic body | .repetition _ _ _ body => looksFixedIn body
  | .either alternatives => looksFixedInAll alternatives
  | .look behind _ body => (!behind || (widthOf body).1 == (widthOf body).2) && looksFixedIn body
  | .conditional _ yes no => looksFixedIn yes && looksFixedIn no

/-- Every look behind in these pieces is for something of one fixed width. -/
def looksFixedIn : List Piece → Bool
  | [] => true
  | piece :: rest => piece.looksFixed && looksFixedIn rest

/-- Every look behind in these alternatives is for something of one fixed width. -/
def looksFixedInAll : List (List Piece) → Bool
  | [] => true
  | body :: rest => looksFixedIn body && looksFixedInAll rest

end

/-- What is wrong with the text of a pattern. -/
inductive Flaw
  | unterminatedSet
  | nothingToRepeat
  | multipleRepeat
  | leastAboveMost
  | unterminatedGroup
  | unterminatedComment
  | unbalancedParenthesis
  | badRange (first last : List Char)
  | badEscape (escape : List Char)
  | escapeAtEnd
  | incompleteEscape (escape : List Char)
  | octalTooLarge (escape : List Char)
  | openGroup
  | groupInsideLookBehind
  | invalidReference (number : Nat)
  | badGroupNumber
  | unexpectedEnd
  | missing (what : List Char)
  | unterminatedName (terminator : Char)
  | unknownGroupName (name : List Char)
  | repeatedGroupName (name : List Char) (number earlier : Nat)
  | badGroupName (name : List Char)
  | unknownExtension (text : List Char)
  | tooManyBranches
  | lateGlobalFlags
  | unknownFlag
  | badInlineFlags (what : List Char)
  | undefinedCharacter (name : List Char)
  | variableLookBehind
  deriving Repr, DecidableEq

/-- The flaw in words. -/
def Flaw.message (flaw : Flaw) : String :=
  let text := String.ofList
  match flaw with
  | unterminatedSet => "unterminated character set"
  | nothingToRepeat => "nothing to repeat"
  | multipleRepeat => "multiple repeat"
  | leastAboveMost => "min repeat greater than max repeat"
  | unterminatedGroup => "missing ), unterminated subpattern"
  | unterminatedComment => "missing ), unterminated comment"
  | unbalancedParenthesis => "unbalanced parenthesis"
  | badRange first last => "bad character range " ++ text first ++ "-" ++ text last
  | badEscape escape => "bad escape " ++ text escape
  | escapeAtEnd => "bad escape (end of pattern)"
  | incompleteEscape escape => "incomplete escape " ++ text escape
  | octalTooLarge escape => "octal escape value " ++ text escape ++ " outside of range 0-0o377"
  | openGroup => "cannot refer to an open group"
  | groupInsideLookBehind => "cannot refer to group defined in the same lookbehind subpattern"
  | invalidReference number => "invalid group reference " ++ toString number
  | badGroupNumber => "bad group number"
  | unexpectedEnd => "unexpected end of pattern"
  | missing what => "missing " ++ text what
  | unterminatedName terminator => "missing " ++ text [terminator] ++ ", unterminated name"
  | unknownGroupName name => "unknown group name " ++ text name
  | repeatedGroupName name number earlier =>
    "redefinition of group name " ++ text name ++ " as group " ++ toString number ++
      "; was group " ++ toString earlier
  | badGroupName name => "bad character in group name " ++ text name
  | unknownExtension extension => "unknown extension ?" ++ text extension
  | tooManyBranches => "conditional backref with more than two branches"
  | lateGlobalFlags => "global flags not at the start of the expression"
  | unknownFlag => "unknown flag"
  | badInlineFlags what => "bad inline flags: " ++ text what
  | undefinedCharacter name => "undefined character name " ++ text name
  | variableLookBehind => "look-behind requires fixed-width pattern"

/-- A flaw and its place in the pattern, where it has one. -/
structure SyntaxError where
  flaw : Flaw
  position : Option Nat
  deriving Repr, DecidableEq

/-- The error in words; a pattern of several lines also gets line and column. -/
def SyntaxError.message (pattern : List Char) (e : SyntaxError) : String :=
  match e.position with
  | none => e.flaw.message
  | some position =>
    let before := pattern.take position
    let lineAndColumn :=
      if pattern.contains '\n' then
        " (line " ++ toString (before.count '\n' + 1) ++ ", column " ++
          toString ((before.reverse.takeWhile (· != '\n')).length + 1) ++ ")"
      else ""
    e.flaw.message ++ " at position " ++ toString position ++ lineAndColumn

/-- Why a pattern cannot even be looked at: a limit of the notation itself. -/
inductive Overload
  /-- A repetition number of 4294967295 or more. -/
  | repetition
  /-- Both the ASCII and the Unicode flag, for the whole pattern. -/
  | flags
  deriving Repr, DecidableEq

/-- The limit in words. -/
def Overload.message : Overload → String
  | repetition => "the repetition number is too large"
  | flags => "ASCII and UNICODE flags are incompatible"

/-- Why a pattern was not read. -/
inductive ReadError
  | malformed (error : SyntaxError)
  | overload (overload : Overload)
  deriving Repr, DecidableEq

end Mooring.Pattern
