import Mooring.Json.Value

/-!
# Writing JSON

One writer with a small record of choices: with or without line breaks and indentation, and whether
characters above ASCII are escaped.  Files are written with `fileStyle`: two spaces a level, one
item a line, and only quotes, backslashes and controls escaped.
-/

namespace Mooring.Json

/-- How a value is laid out. -/
structure Style where
  /-- Line breaks, and two spaces a level. -/
  indented : Bool
  /-- Characters above ASCII are escaped. -/
  ascii : Bool

/-- Files: indented, and characters above ASCII as they are. -/
def fileStyle : Style :=
  ⟨true, false⟩

/-- One line of ASCII. -/
def lineStyle : Style :=
  ⟨false, true⟩

/-- A code unit as an escape of four hexadecimal digits. -/
def unitEscape (unit : Nat) : List Char :=
  '\\' :: 'u' :: Text.hexDigits 4 unit

/-- A character inside a quoted text. -/
def writeChar (style : Style) (c : Char) : List Char :=
  let n := c.toNat
  if c == '"' then ['\\', '"']
  else if c == '\\' then ['\\', '\\']
  else if c == '\n' then ['\\', 'n']
  else if c == '\r' then ['\\', 'r']
  else if c == '\t' then ['\\', 't']
  else if n == 8 then ['\\', 'b']
  else if n == 12 then ['\\', 'f']
  else if n < 32 then unitEscape n
  else if style.ascii && 127 ≤ n then
    if n < 0x10000 then unitEscape n
    else
      let m := n - 0x10000
      unitEscape (0xd800 + m / 0x400) ++ unitEscape (0xdc00 + m % 0x400)
  else [c]

/-- A text in quotes. -/
def writeText (style : Style) (s : String) : List Char :=
  '"' :: s.toList.flatMap (writeChar style) ++ ['"']

/-- A double; infinities and what is not a number have names of their own. -/
def writeFloat (x : Float) : List Char :=
  match Decimal.parts x with
  | .nan => "NaN".toList
  | .infinite false => "Infinity".toList
  | .infinite true => "-Infinity".toList
  | .finite .. => Decimal.floatText x

/-- What separates an item from what stands before it, at a level of nesting. -/
def lineStart (style : Style) (level : Nat) : List Char :=
  if style.indented then '\n' :: List.replicate (2 * level) ' ' else []

/-- The comma between two items. -/
def comma (style : Style) (level : Nat) : List Char :=
  if style.indented then ',' :: lineStart style level else [',', ' ']

mutual

/-- A value inside `level` containers. -/
def write (style : Style) (level : Nat) : Json → List Char
  | null => ['n', 'u', 'l', 'l']
  | bool true => ['t', 'r', 'u', 'e']
  | bool false => ['f', 'a', 'l', 's', 'e']
  | int n => Decimal.intText n
  | float x => writeFloat x
  | string s => writeText style s
  | array [] => ['[', ']']
  | array (item :: rest) =>
    '[' :: lineStart style (level + 1) ++ write style (level + 1) item ++
      writeItems style (level + 1) rest ++ lineStart style level ++ [']']
  | object [] => ['\x7b', '\x7d']
  | object ((name, value) :: rest) =>
    '\x7b' :: lineStart style (level + 1) ++ writeText style name ++ [':', ' '] ++
      write style (level + 1) value ++ writeFields style (level + 1) rest ++
      lineStart style level ++ ['\x7d']

/-- Further items, each after a comma. -/
def writeItems (style : Style) (level : Nat) : List Json → List Char
  | [] => []
  | item :: rest => comma style level ++ write style level item ++ writeItems style level rest

/-- Further names and values, each after a comma. -/
def writeFields (style : Style) (level : Nat) : List (String × Json) → List Char
  | [] => []
  | (name, value) :: rest =>
    comma style level ++ writeText style name ++ [':', ' '] ++ write style level value ++
      writeFields style level rest

end

/-- The text of a value in a style. -/
def render (style : Style) (value : Json) : String :=
  String.ofList (write style 0 value)

end Mooring.Json
