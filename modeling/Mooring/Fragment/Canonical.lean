import Mooring.Text.Blank
import Mooring.Text.Find
import Mooring.Text.Letters
import Mooring.Text.Lower

/-!
# The canonical form of a source fragment

A fragment of markup can be re-indented, re-wrapped and re-quoted without changing what it says.
`canonical` takes away exactly these freedoms, in five passes:

1. `requote` — a value in single quotes after `=`, with no quote inside, gets double quotes;
2. `squeeze` — each run of blanks becomes one space, and none stay at the ends;
3. `tighten` — no space stays beside markup punctuation;
4. `lowerTags` — the name after `<` or `</` is lower-cased;
5. `lowerNames` — an attribute name before `=` is lower-cased.

Each pass is a function on its own, so what one pass leaves for the next can be stated about it.
-/

namespace Mooring.Fragment

open Mooring.Text

/-- Punctuation of markup, beside which a blank means nothing. -/
def isPunctuation (c : Char) : Bool :=
  c == '<' || c == '>' || c == '=' || c == '/' || c == '\x7b' || c == '\x7d' || c == '(' ||
    c == ')' || c == ',' || c == ';' || c == '"'

/-- Either quote. -/
def isQuote (c : Char) : Bool :=
  c == '\'' || c == '"'

/-- A value in single quotes, blanks allowed before it: the blanks, the value between the quotes,
and what follows.  The value holds no quote of either kind. -/
def singleQuoted? (cs : List Char) : Option (List Char × List Char × List Char) :=
  match cs.dropWhile isBlank with
  | '\'' :: inner =>
    match inner.dropWhile (!isQuote ·) with
    | '\'' :: rest => some (cs.takeWhile isBlank, inner.takeWhile (!isQuote ·), rest)
    | _ => none
  | _ => none

/-- What follows a quoted value is shorter than the text it was found in. -/
theorem length_lt_of_singleQuoted? {cs blanks value rest : List Char}
    (h : singleQuoted? cs = some (blanks, value, rest)) : rest.length < cs.length := by
  unfold singleQuoted? at h
  have hcs := length_dropWhile_le isBlank cs
  split at h
  next inner hinner =>
    have hin := length_dropWhile_le (!isQuote ·) inner
    split at h
    next after hafter =>
      simp only [Option.some.injEq, Prod.mk.injEq] at h
      obtain ⟨-, -, rfl⟩ := h
      rw [hinner] at hcs
      rw [hafter] at hin
      simp only [List.length_cons] at hcs hin
      omega
    next => simp at h
  next => simp at h

/-- Values in single quotes after `=` get double quotes. -/
def requote : List Char → List Char
  | [] => []
  | c :: rest =>
    if c == '=' then
      match _h : singleQuoted? rest with
      | some (blanks, value, after) => '=' :: blanks ++ '"' :: value ++ '"' :: requote after
      | none => '=' :: requote rest
    else c :: requote rest
termination_by cs => cs.length
decreasing_by
  · have := length_lt_of_singleQuoted? _h
    simp only [List.length_cons]
    omega
  · simp
  · simp

/-- The text starts with markup punctuation. -/
def startsTight : List Char → Bool
  | [] => false
  | c :: _ => isPunctuation c

/-- Drops the blanks beside markup punctuation; `afterPunctuation` tells what came before. -/
def tightenFrom (afterPunctuation : Bool) : List Char → List Char
  | [] => []
  | c :: rest =>
    if isBlank c && (afterPunctuation || startsTight rest) then tightenFrom afterPunctuation rest
    else c :: tightenFrom (isPunctuation c) rest

/-- No space stays beside markup punctuation.  Meant for squeezed text, where blanks stand alone. -/
def tighten (cs : List Char) : List Char :=
  tightenFrom false cs

/-- A character of a tag or attribute name after its first one. -/
def isNameChar (c : Char) : Bool :=
  isWord c || c == '.' || c == ':' || c == '-'

/-- Lower-cases a name at the start of the text if it starts with a letter that `isFirst` admits,
and hands the rest on. -/
def lowerNameAt (isFirst : Char → Bool) (cs : List Char) : List Char × List Char :=
  match cs with
  | c :: rest =>
    if isFirst c then (lower (c :: rest.takeWhile isNameChar), rest.dropWhile isNameChar)
    else ([], c :: rest)
  | [] => ([], [])

/-- What `lowerNameAt` hands on is no longer than the text. -/
theorem length_lowerNameAt_le (isFirst : Char → Bool) (cs : List Char) :
    (lowerNameAt isFirst cs).2.length ≤ cs.length := by
  unfold lowerNameAt
  split
  next c rest =>
    split
    · exact Nat.le_succ_of_le (length_dropWhile_le isNameChar rest)
    · exact Nat.le_refl _
  next => exact Nat.le_refl _

/-- The name after `<` or `</` is lower-cased. -/
def lowerTags : List Char → List Char
  | [] => []
  | c :: rest =>
    if c == '<' then
      match rest with
      | '/' :: more =>
        let named := lowerNameAt isAsciiLetter more
        '<' :: '/' :: named.1 ++ lowerTags named.2
      | more =>
        let named := lowerNameAt isAsciiLetter more
        '<' :: named.1 ++ lowerTags named.2
    else c :: lowerTags rest
termination_by cs => cs.length
decreasing_by
  · have := length_lowerNameAt_le isAsciiLetter more
    simp only [List.length_cons]
    omega
  · have := length_lowerNameAt_le isAsciiLetter more
    simp only [List.length_cons]
    omega
  · simp

/-- The first character of an attribute name. -/
def isNameStart (c : Char) : Bool :=
  isAsciiLetter c || c == '_' || c == ':'

/-- A character that may stand before an attribute name. -/
def opensName (c : Char) : Bool :=
  isBlank c || c == '<' || c == '"' || c == '\x7d'

/-- An attribute name that is followed by `=`: the name and what follows it. -/
def assignedName? (cs : List Char) : Option (List Char × List Char) :=
  match cs with
  | c :: rest =>
    if isNameStart c then
      match rest.dropWhile isNameChar with
      | '=' :: after => some (c :: rest.takeWhile isNameChar, '=' :: after)
      | _ => none
    else none
  | [] => none

/-- What follows an assigned name is shorter than the text it was found in. -/
theorem length_lt_of_assignedName? {cs name rest : List Char}
    (h : assignedName? cs = some (name, rest)) : rest.length < cs.length := by
  unfold assignedName? at h
  split at h
  next c more =>
    split at h
    next =>
      split at h
      next after hafter =>
        have := length_dropWhile_le isNameChar more
        simp only [Option.some.injEq, Prod.mk.injEq] at h
        obtain ⟨-, rfl⟩ := h
        rw [hafter] at this
        simp only [List.length_cons] at this ⊢
        omega
      next => simp at h
    next => simp at h
  next => simp at h

/-- Attribute names before `=` are lower-cased. -/
def lowerNames : List Char → List Char
  | [] => []
  | c :: rest =>
    if opensName c then
      match _h : assignedName? rest with
      | some (name, after) => lower (c :: name) ++ lowerNames after
      | none => c :: lowerNames rest
    else c :: lowerNames rest
termination_by cs => cs.length
decreasing_by
  · have := length_lt_of_assignedName? _h
    simp only [List.length_cons]
    omega
  · simp
  · simp

/-- The canonical form of a fragment. -/
def canonical (fragment : String) : String :=
  String.ofList (lowerNames (lowerTags (tighten (squeeze (requote fragment.toList)))))

end Mooring.Fragment
