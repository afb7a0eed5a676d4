import Mooring.Json.Value

/-!
# Problems of a value

A value that does not describe what it should is refused with everything that is wrong about it, in
the order of the fields.  A problem is a cause at a place; the place is the way into the value, by
names and by positions in lists.
-/

namespace Mooring.Record

/-- A step on the way into a value. -/
inductive Step
  | field (name : String)
  | item (position : Nat)
  deriving Repr, DecidableEq

/-- Why a value is refused. -/
inductive Cause
  | missing
  | notText
  | emptyText
  | blankId
  | notInteger
  | fractional
  | unreadableInteger
  | oversizedInteger
  | notNumber
  | unreadableNumber
  | notFinite
  | below (bound : Nat)
  | above (bound : Nat)
  | notList
  /-- No object; `what` names the record that it should describe. -/
  | notObject (what : String)
  | reversedRange (first last : Int)
  | repeatedId (id : String)
  deriving Repr, DecidableEq

/-- The kind of a cause. -/
def Cause.kind : Cause → String
  | missing => "missing"
  | notText => "string_type"
  | emptyText => "string_too_short"
  | blankId | reversedRange .. | repeatedId .. => "value_error"
  | notInteger => "int_type"
  | fractional => "int_from_float"
  | unreadableInteger => "int_parsing"
  | oversizedInteger => "int_parsing_size"
  | notNumber => "float_type"
  | unreadableNumber => "float_parsing"
  | notFinite => "finite_number"
  | below .. => "greater_than_equal"
  | above .. => "less_than_equal"
  | notList => "list_type"
  | notObject .. => "model_type"

/-- A cause in words. -/
def Cause.message : Cause → String
  | missing => "Field required"
  | notText => "Input should be a valid string"
  | emptyText => "String should have at least 1 character"
  | blankId => "Value error, anchor id must not be blank"
  | notInteger => "Input should be a valid integer"
  | fractional => "Input should be a valid integer, got a number with a fractional part"
  | unreadableInteger => "Input should be a valid integer, unable to parse string as an integer"
  | oversizedInteger => "Unable to parse input string as an integer, exceeded maximum size"
  | notNumber => "Input should be a valid number"
  | unreadableNumber => "Input should be a valid number, unable to parse string as a number"
  | notFinite => "Input should be a finite number"
  | below bound => "Input should be greater than or equal to " ++ toString bound
  | above bound => "Input should be less than or equal to " ++ toString bound
  | notList => "Input should be a valid list"
  | notObject what => "Input should be a valid dictionary or instance of " ++ what
  | reversedRange first last =>
    "Value error, sourceRange end (" ++ toString last ++ ") before start (" ++ toString first ++ ")"
  | repeatedId id => "Value error, duplicate anchor id: " ++ id

/-- A cause and where it lies. -/
structure Problem where
  path : List Step
  cause : Cause
  deriving Repr, DecidableEq

/-- A step in words. -/
def Step.text : Step → String
  | field name => name
  | item position => toString position

/-- A problem in words, after the way to it. -/
def Problem.message (problem : Problem) : String :=
  ".".intercalate (problem.path.map Step.text) ++ ": " ++ problem.cause.message

/-- A value, or everything that is wrong with it. -/
abbrev Checked (α : Type) := Except (List Problem) α

namespace Checked

variable {α β : Type}

/-- Refused, for a cause at the value itself. -/
def refuse (cause : Cause) : Checked α :=
  .error [⟨[], cause⟩]

/-- The problems lie a step further in. -/
def under (step : Step) : Checked α → Checked α
  | .ok a => .ok a
  | .error problems => .error (problems.map fun p => { p with path := step :: p.path })

/-- Both values, or the problems of both. -/
def both (first : Checked α) (second : Checked β) : Checked (α × β) :=
  match first, second with
  | .ok a, .ok b => .ok (a, b)
  | .error ps, .ok _ => .error ps
  | .ok _, .error ps => .error ps
  | .error ps, .error qs => .error (ps ++ qs)

/-- Every item checked; the problems of item `n` lie under its position, which is `start + n`. -/
def items (check : α → Checked β) (start : Nat) : List α → Checked (List β)
  | [] => .ok []
  | a :: rest =>
    (both (under (.item start) (check a)) (items check (start + 1) rest)).map fun (b, bs) => b :: bs

end Checked

end Mooring.Record
