import Mooring.Decimal.Reading
import Mooring.Pattern.Syntax
import Mooring.Text.Quoted

/-!
# Reading a pattern

A pattern is read token by token, where a token is a character, or a backslash with the character
after it.  One token is always looked at ahead, so a backslash at the very end is found one token
early.  Every round of the recursion takes a token, which bounds it by the pattern's length.
-/

namespace Mooring.Pattern

open Mooring.Text

/-- Repetition numbers must stay below this. -/
def repetitionLimit : Nat := 2 ^ 32 - 1

/-- Group numbers must stay below this. -/
def groupLimit : Nat := 2 ^ 31 - 1

/-- The state of reading. -/
structure Source where
  /-- The token looked at. -/
  token : Option (List Char)
  /-- How many characters come before the end of that token. -/
  index : Nat
  /-- The text after that token. -/
  rest : List Char
  flags : Flags
  /-- The widths of the groups so far, from group 1; none while a group is open. -/
  widths : List (Option (Nat × Nat))
  names : List (List Char × Nat)
  /-- Inside a look behind: the number of the first group that is inside it. -/
  behind : Option Nat
  /-- Groups that conditions refer to, each with the place of its first mention. -/
  conditions : List (Nat × Nat)

/-- A step of reading. -/
abbrev Read := StateT Source (Except ReadError)

/-- The place of the token looked at. -/
def Source.tell (s : Source) : Nat :=
  s.index - (s.token.map List.length).getD 0

/-- Gives up at `back` characters before the token looked at. -/
def fail {α : Type} (flaw : Flaw) (back : Nat := 0) : Read α := do
  let s ← get
  throw (.malformed ⟨flaw, some (s.tell - back)⟩)

/-- Gives up at a place. -/
def failAt {α : Type} (flaw : Flaw) (position : Nat) : Read α :=
  throw (.malformed ⟨flaw, some position⟩)

/-- Moves on to the next token. -/
def advance : Read Unit := do
  let s ← get
  match s.rest with
  | [] => set { s with token := none }
  | '\\' :: [] => throw (.malformed ⟨.escapeAtEnd, some s.index⟩)
  | '\\' :: c :: rest => set { s with token := some ['\\', c], index := s.index + 2, rest }
  | c :: rest => set { s with token := some [c], index := s.index + 1, rest }

/-- The token looked at; moves on. -/
def take : Read (Option (List Char)) := do
  let s ← get
  advance
  return s.token

/-- Moves on if the token looked at is this character. -/
def accept (c : Char) : Read Bool := do
  let s ← get
  if s.token == some [c] then
    advance
    return true
  else return false

/-- Up to `count` tokens that are single characters satisfying `p`. -/
def takeChars (p : Char → Bool) : Nat → Read (List Char)
  | 0 => return []
  | count + 1 => do
    match (← get).token with
    | some [c] =>
      if p c then
        advance
        return c :: (← takeChars p count)
      else return []
    | _ => return []

/-- The text up to a terminator, which is passed.  `fuel` bounds the number of tokens. -/
def takeName (terminator : Char) (what : List Char) : Nat → List Char → Read (List Char)
  | 0, _ => fail (.missing what)
  | fuel + 1, name => do
    match ← take with
    | none =>
      if name.isEmpty then fail (.missing what)
      else fail (.unterminatedName terminator) name.length
    | some token =>
      if token == [terminator] then
        if name.isEmpty then fail (.missing what) 1 else return name
      else takeName terminator what fuel (name ++ token)

/-- The text up to a terminator, which is passed. -/
def nameUntil (terminator : Char) (what : String) : Read (List Char) := do
  takeName terminator what.toList ((← get).rest.length + 2) []

/-- A character of the octal digits. -/
def isOctalDigit (c : Char) : Bool :=
  '0' ≤ c && c ≤ '7'

/-- The character with a code point; a code point without one is replaced. -/
def charOf (n : Nat) : Char :=
  if 0xd800 ≤ n && n ≤ 0xdfff then '\ufffd' else Char.ofNat n

/-- An escape of hexadecimal digits: all of `width` must follow. -/
def hexEscape (escape : List Char) (width : Nat) : Read Char := do
  let digits ← takeChars isHexDigit width
  let escape := escape ++ digits
  if digits.length != width then fail (.incompleteEscape escape) escape.length
  else
    let n := digitsValue 16 digits
    if 0x10ffff < n then fail (.badEscape escape) escape.length else return charOf n

/-- The escapes of single characters that mean the same everywhere. -/
def controlEscape? (c : Char) : Option Char :=
  match c with
  | 'a' => some '\x07'
  | 'f' => some '\x0c'
  | 'n' => some '\n'
  | 'r' => some '\r'
  | 't' => some '\t'
  | 'v' => some '\x0b'
  | '\\' => some '\\'
  | _ => none

/-- The classes that an escape can name: the class, and whether it is meant negated. -/
def categoryEscape? (c : Char) : Option (Category × Bool) :=
  match c with
  | 'd' => some (.digit, false)
  | 'D' => some (.digit, true)
  | 's' => some (.space, false)
  | 'S' => some (.space, true)
  | 'w' => some (.word, false)
  | 'W' => some (.word, true)
  | _ => none

/-- A character by its name.  No names are known, so this always fails, in one way or another. -/
def namedEscape : Read Char := do
  if ← accept '\x7b' then
    let name ← nameUntil '\x7d' "character name"
    fail (.undefinedCharacter (quoted name)) (name.length + 4)
  else fail (.missing ['\x7b'])

/-- A numbered escape with up to three octal digits. -/
def octalEscape (escape : List Char) : Read Char := do
  let n := digitsValue 8 (escape.drop 1)
  if 0o377 < n then fail (.octalTooLarge escape) escape.length else return charOf n

/-- Any other escaped character stands for itself, unless it is an ASCII letter. -/
def plainEscape (c : Char) : Read Char :=
  if isAsciiLetter c then fail (.badEscape ['\\', c]) 2 else return c

/-- An escape inside a character set. -/
def setEscape (c : Char) : Read Member := do
  let flags := (← get).flags
  if c == 'b' then return .char '\x08'
  match controlEscape? c, categoryEscape? c with
  | some d, _ => return .char d
  | none, some (category, negated) => return .category category negated flags.ascii
  | none, none =>
    if c == 'x' then return .char (← hexEscape ['\\', c] 2)
    else if c == 'u' then return .char (← hexEscape ['\\', c] 4)
    else if c == 'U' then return .char (← hexEscape ['\\', c] 8)
    else if c == 'N' then return .char (← namedEscape)
    else if isOctalDigit c then
      return .char (← octalEscape (['\\', c] ++ (← takeChars isOctalDigit 2)))
    else if isAsciiDigit c then fail (.badEscape ['\\', c]) 2
    else return .char (← plainEscape c)

/-- Checks that a group may be referred to here; `back` is where to complain. -/
def checkReference (number back : Nat) : Read (Nat × Nat) := do
  let s ← get
  match (s.widths[number - 1]?).join with
  | none => fail .openGroup back
  | some width =>
    if s.behind.any (· ≤ number) then fail .groupInsideLookBehind
    else return width

/-- Checks a condition inside a look behind. -/
def checkCondition (number : Nat) : Read Unit := do
  let s ← get
  match s.behind with
  | none => return ()
  | some first =>
    if ((s.widths[number - 1]?).join).isNone then fail .openGroup
    else if first ≤ number then fail .groupInsideLookBehind
    else return ()

/-- An escape that starts with a digit other than zero: an octal escape of three digits, or else a
reference to a group. -/
def numberedEscape (c : Char) : Read Piece := do
  let flags := (← get).flags
  let second ← takeChars isAsciiDigit 1
  let octal := second.all isOctalDigit && !second.isEmpty && isOctalDigit c
  let third ← if octal then takeChars isOctalDigit 1 else pure []
  if !third.isEmpty then
    return .char flags.fold (← octalEscape (['\\', c] ++ second ++ third))
  else
    let digits := c :: second
    let number := digitsValue 10 digits
    if number ≤ (← get).widths.length then
      let width ← checkReference number (digits.length + 1)
      return .reference flags.fold number width
    else fail (.invalidReference number) digits.length

/-- An escape outside a character set. -/
def escape (c : Char) : Read Piece := do
  let flags := (← get).flags
  let char (d : Char) : Piece := .char flags.fold d
  match c with
  | 'A' => return .place .textStart
  | 'Z' => return .place .textEnd
  | 'b' => return .place (.wordEdge false flags.ascii)
  | 'B' => return .place (.wordEdge true flags.ascii)
  | 'x' => return char (← hexEscape ['\\', c] 2)
  | 'u' => return char (← hexEscape ['\\', c] 4)
  | 'U' => return char (← hexEscape ['\\', c] 8)
  | 'N' => return char (← namedEscape)
  | '0' =>
    let digits ← takeChars isOctalDigit 2
    return char (charOf (digitsValue 8 digits))
  | _ =>
    match categoryEscape? c, controlEscape? c with
    | some (category, negated), _ =>
      return .set .exact false [.category category negated flags.ascii]
    | none, some d => return char d
    | none, none => if isAsciiDigit c then numberedEscape c else return char (← plainEscape c)

/-- A member of a set from a token. -/
def memberOf (token : List Char) : Read Member :=
  match token with
  | ['\\', c] => setEscape c
  | c :: _ => return .char c
  | [] => return .char ' '

/-- The members of a set up to its closing bracket; `start` is the place of the opening one.  `fuel`
bounds the number of tokens. -/
def setMembers (start : Nat) : Nat → List Member → Read (List Member)
  | 0, _ => failAt .unterminatedSet start
  | fuel + 1, members => do
    match ← take with
    | none => failAt .unterminatedSet start
    | some token =>
      if token == [']'] && !members.isEmpty then return members
      else
        let first ← memberOf token
        if ← accept '-' then
          match ← take with
          | none => failAt .unterminatedSet start
          | some last =>
            if last == [']'] then return members ++ [first, .char '-']
            else
              let flaw := Flaw.badRange token last
              let back := token.length + 1 + last.length
              match first, ← memberOf last with
              | .char a, .char b =>
                if b < a then fail flaw back
                else setMembers start fuel (members ++ [.range a b])
              | _, _ => fail flaw back
        else setMembers start fuel (members ++ [first])

/-- A character set, its opening bracket passed. -/
def readSet : Read Piece := do
  let s ← get
  let start := s.tell - 1
  let negated ← accept '^'
  let members ← setMembers start (s.rest.length + 2) []
  return .set s.flags.fold negated members

/-- The numbers of a repetition in braces, its opening brace passed; nothing if this is no
repetition. -/
def braceNumbers? : Read (Option (Nat × Option Nat)) := do
  let before ← get
  let here := before.tell
  let low ← takeChars isAsciiDigit (before.rest.length + 1)
  let high ← if ← accept ',' then takeChars isAsciiDigit (before.rest.length + 1) else pure low
  if !(← accept '\x7d') then
    set before
    return none
  else
    let least := digitsValue 10 low
    let most := digitsValue 10 high
    if !low.isEmpty && repetitionLimit ≤ least then throw (.overload .repetition)
    if !high.isEmpty && repetitionLimit ≤ most then throw (.overload .repetition)
    if !high.isEmpty && most < least then fail .leastAboveMost ((← get).tell - here)
    else return some (least, if high.isEmpty then none else some most)

/-- How eager a repetition is: the sign after it tells. -/
def readGreed : Read Greed := do
  if ← accept '?' then return .lazy
  if ← accept '+' then return .possessive
  return .greedy

/-- Repeats the last piece; the sign of the repetition stands at `here`. -/
def repeatLast (pieces : List Piece) (least : Nat) (most : Option Nat) (here : Nat) :
    Read (List Piece) := do
  let flawBack := (← get).tell - here + 1
  match pieces.getLast? with
  | none | some (.place _) => fail .nothingToRepeat flawBack
  | some (.repetition ..) => fail .multipleRepeat flawBack
  | some piece =>
    let greed ← readGreed
    return pieces.dropLast ++ [.repetition greed least most [piece]]

/-- The letters of inline flags. -/
def isFlag (c : Char) : Bool :=
  c == 'i' || c == 'L' || c == 'm' || c == 's' || c == 'x' || c == 'a' || c == 't' || c == 'u'

/-- The flags with one turned on or off. -/
def Flags.turn (flags : Flags) (c : Char) (on : Bool) : Flags :=
  match c with
  | 'i' => { flags with ignoreCase := on }
  | 'm' => { flags with multiline := on }
  | 's' => { flags with dotAll := on }
  | 'x' => { flags with verbose := on }
  | 'a' => { flags with ascii := on }
  | 'u' => { flags with unicode := on }
  | _ => flags

/-- Complains about what should have followed a flag. -/
def failFlag {α : Type} (expected : String) (token : List Char) : Read α :=
  match token with
  | [c] =>
    if isLetter c then fail .unknownFlag token.length
    else fail (.missing expected.toList) token.length
  | _ => fail (.missing expected.toList) token.length

/-- A complaint about inline flags. -/
def badFlags {α : Type} (what : String) (back : Nat := 0) : Read α :=
  fail (.badInlineFlags what.toList) back

/-- The flags turned on, from the letter `c` on, and the character after them.  `fuel` bounds the
number of tokens. -/
def flagsOn : Nat → Char → List Char → Read (List Char × Char)
  | 0, c, on => return (on, c)
  | fuel + 1, c, on => do
    if c == 'L' then badFlags "cannot use 'L' flag with a str pattern"
    let on := on ++ [c]
    if on.contains 'a' && on.contains 'u' then
      badFlags "flags 'a', 'u' and 'L' are incompatible"
    match ← take with
    | none => fail (.missing "-, : or )".toList)
    | some [d] =>
      if d == ')' || d == '-' || d == ':' then return (on, d)
      else if isFlag d then flagsOn fuel d on
      else failFlag "-, : or )" [d]
    | some token => failFlag "-, : or )" token

/-- The flags turned off, from the letter `c` on, up to the colon.  `fuel` bounds the number of
tokens. -/
def flagsOff : Nat → Char → List Char → Read (List Char)
  | 0, _, off => return off
  | fuel + 1, c, off => do
    if c == 'a' || c == 'u' || c == 'L' then
      badFlags "cannot turn off flags 'a', 'u' and 'L'"
    let off := off ++ [c]
    match ← take with
    | none => fail (.missing [':'])
    | some [d] =>
      if d == ':' then return off
      else if isFlag d then flagsOff fuel d off
      else failFlag ":" [d]
    | some token => failFlag ":" token

/-- Inline flags from the character `c` on: the flags turned on and off for a group, or nothing if
they were turned on for the whole pattern. -/
def inlineFlags (c : Char) : Read (Option (List Char × List Char)) := do
  let fuel := (← get).rest.length + 2
  let (on, c) ← if c == '-' then pure ([], c) else flagsOn fuel c []
  if c == ')' then
    modify fun s => { s with flags := on.foldl (·.turn · true) s.flags }
    return none
  if on.contains 't' then badFlags "cannot turn on global flag" 1
  let off ←
    if c == '-' then do
      match ← take with
      | none => fail (.missing "flag".toList)
      | some [d] => if isFlag d then flagsOff fuel d [] else failFlag "flag" [d]
      | some token => failFlag "flag" token
    else pure []
  if off.contains 't' then badFlags "cannot turn off global flag" 1
  if on.any off.contains then badFlags "flag turned on and off" 1
  return some (on, off)

/-- The flags inside a group that turns some on and some off. -/
def Flags.inside (flags : Flags) (on off : List Char) : Flags :=
  let flags :=
    if on.contains 'a' || on.contains 'u' then { flags with ascii := false, unicode := false }
    else flags
  off.foldl (·.turn · false) (on.foldl (·.turn · true) flags)

/-- A name that a group may have. -/
def isGroupName (name : List Char) : Bool :=
  match name with
  | c :: rest => (isLetter c || c == '_') && rest.all isWord
  | [] => false

/-- Checks the name of a group. -/
def checkName (name : List Char) : Read Unit :=
  if isGroupName name then return () else fail (.badGroupName (quoted name)) (name.length + 1)

/-- The number of the group with a name. -/
def numberOf (name : List Char) : Read Nat := do
  match (← get).names.lookup name with
  | some number => return number
  | none => fail (.unknownGroupName (quoted name)) (name.length + 1)

/-- Opens a group and gives it the next number. -/
def openNumbered (name : Option (List Char)) : Read Nat := do
  let s ← get
  let number := s.widths.length + 1
  match name with
  | none => set { s with widths := s.widths ++ [none] }
  | some name =>
    match s.names.lookup name with
    | some earlier =>
      fail (.repeatedGroupName (quoted name) number earlier) (name.length + 1)
    | none => set { s with widths := s.widths ++ [none], names := s.names ++ [(name, number)] }
  return number

/-- Closes a group. -/
def closeNumbered (number : Nat) (body : List Piece) : Read Unit :=
  modify fun s => { s with widths := s.widths.set (number - 1) (some (widthOf body)) }

/-- The group that a condition refers to, by name or by number. -/
def conditionGroup : Read Nat := do
  let name ← nameUntil ')' "group name"
  let number ←
    if isGroupName name then numberOf name
    else
      match Decimal.readInt? name with
      | some (.ofNat number) =>
        if number = 0 then fail .badGroupNumber (name.length + 1)
        else if groupLimit ≤ number then fail (.invalidReference number) (name.length + 1)
        else
          modify fun s =>
            if (s.conditions.lookup number).isSome then s
            else { s with conditions := s.conditions ++ [(number, s.tell - name.length - 1)] }
          pure number
      | _ => fail (.badGroupName (quoted name)) (name.length + 1)
  checkCondition number
  return number

/-- Passes a comment, its `(?#` passed; `start` is the place of its parenthesis.  `fuel` bounds the
number of tokens. -/
def skipComment (start : Nat) : Nat → Read Unit
  | 0 => failAt .unterminatedComment start
  | fuel + 1 => do
    if (← get).token.isNone then failAt .unterminatedComment start
    else if (← take) == some [')'] then return ()
    else skipComment start fuel

/-- Passes a line comment of a verbose pattern.  `fuel` bounds the number of tokens. -/
def skipLine : Nat → Read Unit
  | 0 => return ()
  | fuel + 1 => do
    match ← take with
    | none => return ()
    | some token => if token == ['\n'] then return () else skipLine fuel

/-- What opens after a parenthesis. -/
inductive Opening
  /-- A group with a number, and a name if it has one. -/
  | numbered (name : Option (List Char))
  /-- A group without a number, with flags turned on and off. -/
  | plain (on off : List Char)
  | atomic
  | look (behind negated : Bool)
  | condition
  /-- A piece that is complete. -/
  | complete (piece : Piece)
  /-- Nothing: a comment, or flags for the whole pattern. -/
  | nothing

/-- Reads what follows `(?P`. -/
def pExtension : Read Opening := do
  if ← accept '<' then
    let name ← nameUntil '>' "group name"
    checkName name
    return .numbered (some name)
  else if ← accept '=' then
    let flags := (← get).flags
    let name ← nameUntil ')' "group name"
    checkName name
    let number ← numberOf name
    let width ← checkReference number (name.length + 1)
    return .complete (.reference flags.fold number width)
  else
    match ← take with
    | none => fail .unexpectedEnd
    | some token => fail (.unknownExtension ('P' :: token)) (token.length + 2)

/-- Reads what opens after a parenthesis at `start`; `first` tells that nothing of the pattern comes
before it. -/
def opening (first : Bool) (start : Nat) : Read Opening := do
  if !(← accept '?') then return .numbered none
  match ← take with
  | none => fail .unexpectedEnd
  | some token =>
    match token with
    | ['P'] => pExtension
    | [':'] => return .plain [] []
    | ['#'] =>
      skipComment start ((← get).rest.length + 2)
      return .nothing
    | ['='] => return .look false false
    | ['!'] => return .look false true
    | ['<'] =>
      match ← take with
      | none => fail .unexpectedEnd
      | some ['='] => return .look true false
      | some ['!'] => return .look true true
      | some token => fail (.unknownExtension ('<' :: token)) (token.length + 2)
    | ['('] => return .condition
    | ['>'] => return .atomic
    | [c] =>
      if isFlag c || c == '-' then
        match ← inlineFlags c with
        | none => if first then return .nothing else failAt .lateGlobalFlags start
        | some (on, off) => return .plain on off
      else fail (.unknownExtension [c]) 2
    | token => fail (.unknownExtension token) (token.length + 1)

/-- Passes the parenthesis that closes the group at `start`. -/
def closeGroup (start : Nat) : Read Unit := do
  if ← accept ')' then return () else failAt .unterminatedGroup start

/-- White space that a verbose pattern ignores. -/
def isLayout (c : Char) : Bool :=
  c == ' ' || c == '\t' || c == '\n' || c == '\r' || c == '\x0b' || c == '\x0c'

mutual

/-- Alternatives up to a closing parenthesis or the end.  `top` tells that this is the whole
pattern. -/
def readAlternatives (top : Bool) : Nat → List (List Piece) → Read (List Piece)
  | 0, _ => return []
  | fuel + 1, earlier => do
    let body ← readSequence (top && earlier.isEmpty) fuel []
    if ← accept '|' then readAlternatives top fuel (earlier ++ [body])
    else if earlier.isEmpty then return body
    else return [.either (earlier ++ [body])]

/-- Pieces in sequence up to a bar, a closing parenthesis or the end, after those already read.
`first` tells that nothing of the pattern comes before them. -/
def readSequence (first : Bool) : Nat → List Piece → Read (List Piece)
  | 0, pieces => return pieces
  | fuel + 1, pieces => do
    let s ← get
    match s.token with
    | none => return pieces
    | some token =>
      if token == ['|'] || token == [')'] then return pieces
      advance
      match token with
      | [c] =>
        if s.flags.verbose && isLayout c then readSequence first fuel pieces
        else if s.flags.verbose && c == '#' then
          skipLine (s.rest.length + 1)
          readSequence first fuel pieces
        else if c == '[' then
          let piece ← readSet
          readSequence first fuel (pieces ++ [piece])
        else if c == '?' || c == '*' || c == '+' then
          let here := (← get).tell
          let least := if c == '+' then 1 else 0
          let most := if c == '?' then some 1 else none
          let pieces ← repeatLast pieces least most here
          readSequence first fuel pieces
        else if c == '\x7b' then
          let here := (← get).tell
          let numbers ←
            if (← get).token == some ['\x7d'] then pure none else braceNumbers?
          match numbers with
          | none => readSequence first fuel (pieces ++ [.char s.flags.fold c])
          | some (least, most) =>
            let pieces ← repeatLast pieces least most here
            readSequence first fuel pieces
        else if c == '.' then readSequence first fuel (pieces ++ [.any s.flags.dotAll])
        else if c == '^' then
          let place := if s.flags.multiline then Place.lineStart else .textStart
          readSequence first fuel (pieces ++ [.place place])
        else if c == '$' then
          let place := if s.flags.multiline then Place.lineEnd else .lastLineEnd
          readSequence first fuel (pieces ++ [.place place])
        else if c == '(' then
          let found ← readGroup (first && pieces.isEmpty) fuel
          readSequence first fuel (pieces ++ found)
        else readSequence first fuel (pieces ++ [.char s.flags.fold c])
      | ['\\', c] => do
        let piece ← escape c
        readSequence first fuel (pieces ++ [piece])
      | _ => readSequence first fuel pieces

/-- A group or what else opens with a parenthesis, which has been passed: no piece or one. -/
def readGroup (first : Bool) : Nat → Read (List Piece)
  | 0 => return []
  | fuel + 1 => do
    let s ← get
    let start := s.tell - 1
    match ← opening first start with
    | .nothing => return []
    | .complete piece => return [piece]
    | .numbered name =>
      let number ← openNumbered name
      let body ← readAlternatives false fuel []
      closeGroup start
      closeNumbered number body
      return [.group (some number) body]
    | .plain on off =>
      let outside := (← get).flags
      modify fun s => { s with flags := s.flags.inside on off }
      let body ← readAlternatives false fuel []
      modify fun s => { s with flags := outside }
      closeGroup start
      return [.group none body]
    | .atomic =>
      let body ← readAlternatives false fuel []
      closeGroup start
      return [.atomic body]
    | .look behind negated =>
      let outside := (← get).behind
      if behind && outside.isNone then
        modify fun s => { s with behind := some (s.widths.length + 1) }
      let body ← readAlternatives false fuel []
      modify fun s => { s with behind := outside }
      closeGroup start
      return [.look behind negated body]
    | .condition =>
      let number ← conditionGroup
      let yes ← readSequence false fuel []
      let no ←
        if ← accept '|' then do
          let no ← readSequence false fuel []
          if (← get).token == some ['|'] then fail .tooManyBranches else pure no
        else pure []
      closeGroup start
      return [.conditional number yes no]

end

/-- Reads a whole pattern. -/
def readAll (length : Nat) : Read (List Piece) := do
  advance
  let pieces ← readAlternatives true (3 * length + 4) []
  let s ← get
  if s.flags.ascii && s.flags.unicode then throw (.overload .flags)
  if s.token.isSome then fail .unbalancedParenthesis
  match s.conditions.find? fun (number, _) => s.widths.length < number with
  | some (number, position) => failAt (.invalidReference number) position
  | none => return pieces

/-- The pieces of a pattern. -/
def read (flags : Flags) (pattern : List Char) : Except ReadError (List Piece) := do
  let start : Source := ⟨none, 0, pattern, flags, [], [], none, []⟩
  let (pieces, _) ← (readAll pattern.length).run start
  if looksFixedIn pieces then return pieces
  else throw (.malformed ⟨.variableLookBehind, none⟩)

end Mooring.Pattern
