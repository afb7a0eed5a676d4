import Mooring.Decimal.Layout
import Mooring.Table
import Mooring.Text.Quoted

/-!
# JSON values

Whole numbers and numbers with a point or an exponent are different values: the first are exact
integers of any size, the second are doubles.  An object keeps its names in the order of the text.
-/

namespace Mooring

/-- A JSON value. -/
inductive Json
  | null
  | bool (b : Bool)
  | int (n : Int)
  | float (x : Float)
  | string (s : String)
  | array (items : List Json)
  | object (fields : List (String × Json))
  deriving Inhabited

namespace Json

/-- The value under a name in an object; nothing in any other value. -/
def field? (name : String) : Json → Option Json
  | object fields => Table.get? name fields
  | _ => none

/-- A text, or null. -/
def ofText? : Option String → Json
  | some s => string s
  | none => null

/-- A list of texts. -/
def ofTexts (texts : List String) : Json :=
  array (texts.map string)

/-- An object of texts. -/
def ofTextTable (table : Table String) : Json :=
  object (table.map fun (name, s) => (name, string s))

/-- The value is null. -/
def isNull : Json → Bool
  | null => true
  | _ => false

mutual

/-- The value with null for every number in it that is not finite. -/
def finite : Json → Json
  | float x =>
    match Decimal.parts x with
    | .finite .. => float x
    | _ => null
  | array items => array (finiteItems items)
  | object fields => object (finiteFields fields)
  | value => value

/-- Items with null for every number in them that is not finite. -/
def finiteItems : List Json → List Json
  | [] => []
  | item :: rest => finite item :: finiteItems rest

/-- Fields with null for every number in them that is not finite. -/
def finiteFields : List (String × Json) → List (String × Json)
  | [] => []
  | (name, value) :: rest => (name, finite value) :: finiteFields rest

end

mutual

/-- A value as messages show it. -/
def display : Json → List Char
  | null => ['N', 'o', 'n', 'e']
  | bool true => ['T', 'r', 'u', 'e']
  | bool false => ['F', 'a', 'l', 's', 'e']
  | int n => Decimal.intText n
  | float x => Decimal.floatText x
  | string s => Text.quoted s.toList
  | array items => '[' :: displayItems items ++ [']']
  | object fields => '\x7b' :: displayFields fields ++ ['\x7d']

/-- Items with commas between them. -/
def displayItems : List Json → List Char
  | [] => []
  | [item] => display item
  | item :: rest => display item ++ [',', ' '] ++ displayItems rest

/-- Names and values with commas between them. -/
def displayFields : List (String × Json) → List Char
  | [] => []
  | [(name, value)] => Text.quoted name.toList ++ [':', ' '] ++ display value
  | (name, value) :: rest =>
    Text.quoted name.toList ++ [':', ' '] ++ display value ++ [',', ' '] ++ displayFields rest

end

end Json

end Mooring
