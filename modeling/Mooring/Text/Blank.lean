/-!
# Blanks — trimming, words and runs

White space is one class everywhere in this library: the ASCII blanks, the four information
separators, and the space characters of Unicode.  The zero-width space is not one of them.

Every function here is structural on the text, so `words` and `trim` compute by `rfl` and are
reasoned about by plain induction.
-/

namespace Mooring.Text

/-- White space. -/
def isBlank (c : Char) : Bool :=
  let n := c.toNat
  if n < 128 then n == 32 || (9 ≤ n && n ≤ 13) || (28 ≤ n && n ≤ 31)
  else
    n == 0x85 || n == 0xa0 || n == 0x1680 || (0x2000 ≤ n && n ≤ 0x200a) ||
      n == 0x2028 || n == 0x2029 || n == 0x202f || n == 0x205f || n == 0x3000

/-- The text without the longest tail of characters that satisfy `p`. -/
def dropTrailing (p : Char → Bool) : List Char → List Char
  | [] => []
  | c :: rest =>
    match dropTrailing p rest with
    | [] => if p c then [] else [c]
    | kept => c :: kept

/-- The text without blanks at its end. -/
def trimRight (cs : List Char) : List Char :=
  dropTrailing isBlank cs

/-- The text without blanks at either end. -/
def trim (cs : List Char) : List Char :=
  trimRight (cs.dropWhile isBlank)

/-- Puts a run in front of later runs, unless it is empty. -/
def consRun : List Char → List (List Char) → List (List Char)
  | [], later => later
  | run, later => run :: later

/-- The run that a text starts with (empty when it starts with a separator) and the later runs. -/
def firstRun (isSeparator : Char → Bool) : List Char → List Char × List (List Char)
  | [] => ([], [])
  | c :: rest =>
    let (run, later) := firstRun isSeparator rest
    if isSeparator c then ([], consRun run later) else (c :: run, later)

/-- The maximal runs of characters that are no separators, in order. -/
def runs (isSeparator : Char → Bool) (cs : List Char) : List (List Char) :=
  let (run, later) := firstRun isSeparator cs
  consRun run later

/-- The maximal runs of characters that are not blank, in order. -/
def words (cs : List Char) : List (List Char) :=
  runs isBlank cs

/-- The texts in order, with `separator` between neighbours. -/
def join (separator : List Char) : List (List Char) → List Char
  | [] => []
  | [piece] => piece
  | piece :: more => piece ++ separator ++ join separator more

/-- The text with each run of blanks made one space, and none at either end. -/
def squeeze (cs : List Char) : List Char :=
  join [' '] (words cs)

/-- A text that is there and not empty. -/
def nonEmpty (s : Option String) : Option String :=
  s.filter (· != "")

end Mooring.Text
