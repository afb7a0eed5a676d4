import Mooring.Pattern.Syntax

/-!
# Matching a pattern

Matching is backtracking search: the pieces of a pattern are tried from left to right, alternatives
in their order, repetitions by their greed, and what follows decides through a continuation whether
a try stands.  The leftmost place where the pattern matches counts.

A repetition that has its least number of rounds goes on only if its last round took a character, so
a path through the search is bounded by the pattern and the text.  `budget` computes that bound, and
it is the fuel of the recursion.
-/

namespace Mooring.Pattern

open Mooring.Text

/-- What the groups have captured, the latest capture of a group first. -/
abbrev Captures := List (Nat × List Char)

/-- A state of the search. -/
structure Cursor where
  /-- The characters before this place, the nearest first. -/
  before : List Char
  after : List Char
  captures : Captures

/-- The state one character further on. -/
def Cursor.step (s : Cursor) (c : Char) (rest : List Char) : Cursor :=
  { s with before := c :: s.before, after := rest }

/-- The lower case of an ASCII capital; any other character as it is. -/
def asciiLower (c : Char) : Char :=
  if 'A' ≤ c && c ≤ 'Z' then lowerChar c else c

/-- The two characters are equal under a comparison. -/
def Fold.same : Fold → Char → Char → Bool
  | exact, c, d => c == d
  | anyCase, c, d => sameLetter c d
  | asciiCase, c, d => asciiLower c == asciiLower d

/-- The characters that a comparison takes for `c`. -/
def Fold.variants : Fold → Char → List Char
  | exact, c => [c]
  | anyCase, c => caseVariants c
  | asciiCase, c =>
    let small := asciiLower c
    if 'a' ≤ small && small ≤ 'z' then [small, Char.ofNat (small.toNat - 32)] else [c]

/-- The character is meant by a member of a set. -/
def Member.holds (fold : Fold) (c : Char) : Member → Bool
  | .char d => fold.same d c
  | .range first last => (fold.variants c).any fun d => first ≤ d && d ≤ last
  | .category kind negated ascii =>
    let c := if fold = .exact then c else (fold.variants c).headD c
    kind.holds ascii c != negated

/-- A word character stands at this place. -/
def wordAt (ascii : Bool) : List Char → Bool
  | [] => false
  | c :: _ => Category.word.holds ascii c

/-- The place is what the pattern asks for. -/
def Place.holds (s : Cursor) : Place → Bool
  | .textStart => s.before.isEmpty
  | .lineStart => s.before.isEmpty || s.before.head? == some '\n'
  | .textEnd => s.after.isEmpty
  | .lastLineEnd => s.after.isEmpty || s.after == ['\n']
  | .lineEnd => s.after.isEmpty || s.after.head? == some '\n'
  | .wordEdge negated ascii =>
    if s.before.isEmpty && s.after.isEmpty then false
    else (wordAt ascii s.before != wordAt ascii s.after) != negated

/-- The text after what a group captured, if it stands here. -/
def afterSame? (fold : Fold) : List Char → Cursor → Option Cursor
  | [], s => some s
  | c :: rest, s =>
    match s.after with
    | [] => none
    | d :: after => if fold.same c d then afterSame? fold rest (s.step d after) else none

/-- The state `count` characters back, if there are so many. -/
def Cursor.back : Nat → Cursor → Option Cursor
  | 0, s => some s
  | count + 1, s =>
    match s.before with
    | [] => none
    | c :: before => Cursor.back count { s with before, after := c :: s.after }

/-- What lies between two states. -/
def between (start stop : Cursor) : List Char :=
  start.after.take (start.after.length - stop.after.length)

mutual

/-- How many steps a path through a piece can have, over a text of `n` characters. -/
def Piece.budget (n : Nat) : Piece → Nat
  | .char .. | .any .. | .set .. | .place .. | .reference .. => 1
  | .group _ body | .atomic body | .look _ _ body => budgetOf n body + 1
  | .either alternatives => budgetOfEither n alternatives + 1
  | .repetition _ least _ body => (least + n + 2) * (budgetOf n body + 2) + 1
  | .conditional _ yes no => budgetOf n yes + budgetOf n no + 1

/-- How many steps a path through pieces in sequence can have. -/
def budgetOf (n : Nat) : List Piece → Nat
  | [] => 1
  | piece :: rest => piece.budget n + budgetOf n rest + 1

/-- How many steps a path through alternatives can have. -/
def budgetOfEither (n : Nat) : List (List Piece) → Nat
  | [] => 1
  | body :: rest => budgetOf n body + budgetOfEither n rest + 1

end

/-- What follows. -/
abbrev Continuation := Cursor → Option Cursor

/-- A repetition under way. -/
structure Rounds where
  greed : Greed
  least : Nat
  most : Option Nat
  body : List Piece
  /-- How many rounds are done. -/
  done : Nat
  /-- How much text remained where the last optional round started. -/
  lastStart : Option Nat

mutual

/-- Matches one piece and then what follows. -/
def matchPiece : Nat → Piece → Cursor → Continuation → Option Cursor
  | 0, _, _, _ => none
  | fuel + 1, piece, s, next =>
    match piece with
    | .char fold c =>
      match s.after with
      | d :: rest => if fold.same c d then next (s.step d rest) else none
      | [] => none
    | .any lineFeedToo =>
      match s.after with
      | d :: rest => if lineFeedToo || d != '\n' then next (s.step d rest) else none
      | [] => none
    | .set fold negated members =>
      match s.after with
      | d :: rest =>
        if members.any (Member.holds fold d) != negated then next (s.step d rest) else none
      | [] => none
    | .place place => if place.holds s then next s else none
    | .group none body => matchAll fuel body s next
    | .group (some number) body =>
      matchAll fuel body s fun stop =>
        next { stop with captures := (number, between s stop) :: stop.captures }
    | .atomic body =>
      match matchAll fuel body s some with
      | some stop => next stop
      | none => none
    | .either alternatives => matchEither fuel alternatives s next
    | .repetition greed least most body =>
      matchRounds fuel ⟨greed, least, most, body, 0, none⟩ s next
    | .look behind negated body =>
      let start := if behind then Cursor.back (widthOf body).1 s else some s
      let found := start.bind fun start => matchAll fuel body start some
      if negated then if found.isSome then none else next s
      else
        match found with
        | some stop => next { s with captures := stop.captures }
        | none => none
    | .reference fold number _ =>
      match s.captures.lookup number with
      | some text => (afterSame? fold text s).bind next
      | none => none
    | .conditional number yes no =>
      matchAll fuel (if (s.captures.lookup number).isSome then yes else no) s next

/-- Matches pieces in sequence and then what follows. -/
def matchAll : Nat → List Piece → Cursor → Continuation → Option Cursor
  | 0, _, _, _ => none
  | _ + 1, [], s, next => next s
  | fuel + 1, piece :: rest, s, next =>
    matchPiece fuel piece s fun s => matchAll fuel rest s next

/-- Matches the first of some alternatives with which what follows matches too. -/
def matchEither : Nat → List (List Piece) → Cursor → Continuation → Option Cursor
  | 0, _, _, _ => none
  | _ + 1, [], _, _ => none
  | fuel + 1, body :: rest, s, next =>
    match matchAll fuel body s next with
    | some stop => some stop
    | none => matchEither fuel rest s next

/-- Goes on with a repetition and then with what follows. -/
def matchRounds : Nat → Rounds → Cursor → Continuation → Option Cursor
  | 0, _, _, _ => none
  | fuel + 1, r, s, next =>
    let here := s.after.length
    let round (lastStart : Option Nat) : Option Cursor :=
      let r := { r with done := r.done + 1, lastStart }
      match r.greed with
      | .possessive => (matchAll fuel r.body s some).bind fun s => matchRounds fuel r s next
      | _ => matchAll fuel r.body s fun s => matchRounds fuel r s next
    if r.done < r.least then round r.lastStart
    else
      let another := (r.most.all (r.done < ·)) && r.lastStart != some here
      match r.greed with
      | .greedy =>
        if another then
          match round (some here) with
          | some stop => some stop
          | none => next s
        else next s
      | .lazy =>
        match next s with
        | some stop => some stop
        | none => if another then round (some here) else none
      | .possessive =>
        if another then
          match matchAll fuel r.body s some with
          | some stop =>
            matchRounds fuel { r with done := r.done + 1, lastStart := some here } stop next
          | none => next s
        else next s

end

/-- The whole match and what the groups captured in it. -/
structure Found where
  whole : List Char
  captures : Captures

/-- The match at a place, if the pattern matches there. -/
def matchAt (pieces : List Piece) (before after : List Char) : Option Found :=
  let start : Cursor := ⟨before, after, []⟩
  let n := before.length + after.length
  (matchAll (budgetOf n pieces + 1) pieces start some).map fun stop =>
    ⟨between start stop, stop.captures⟩

/-- The leftmost match from a place on. -/
def searchFrom (pieces : List Piece) (before : List Char) : List Char → Option Found
  | [] => matchAt pieces before []
  | c :: rest =>
    match matchAt pieces before (c :: rest) with
    | some found => some found
    | none => searchFrom pieces (c :: before) rest

/-- The leftmost match in a text. -/
def search (pieces : List Piece) (text : List Char) : Option Found :=
  searchFrom pieces [] text

end Mooring.Pattern
