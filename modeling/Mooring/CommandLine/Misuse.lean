import Mooring.Text.Quoted

/-!
# Wrong calls

What can be wrong with how a command is called, and how it is told.  A misuse names the command, if
one was recognised, and the option or operand it concerns, if it concerns one.
-/

namespace Mooring.CommandLine

open Mooring.Text

/-- Why a text is no value for an option. -/
inductive BadValue
  | notWhole (text : String)
  | notNumber (text : String)
  | notAmong (text : String) (choices : List String)
  deriving Repr, DecidableEq

/-- What is wrong. -/
inductive Fault
  /-- The beginning of an option was given, and several options begin like that. -/
  | ambiguous (argument : String) (spellings : List String)
  /-- A value is joined to an option that takes none. -/
  | surplusValue (value : String)
  /-- No value follows an option that takes one. -/
  | missingValue
  | badValue (bad : BadValue)
  /-- Options or operands that must be there are not. -/
  | notGiven (names : List String)
  /-- Arguments are left over. -/
  | leftOver (arguments : List String)
  deriving Repr, DecidableEq

/-- What is wrong, with which command, and with which of its options or operands. -/
structure Misuse where
  command : Option String := none
  about : Option String := none
  fault : Fault
  deriving Repr, DecidableEq

/-- The name under which the program is called. -/
def programName : String := "selector-anchors"

/-- A text in quotes. -/
def shown (text : String) : String :=
  String.ofList (quoted text.toList)

/-- Some texts with commas between them. -/
def listed (texts : List String) : String :=
  ", ".intercalate texts

/-- The reason in words. -/
def BadValue.message : BadValue → String
  | notWhole text => "invalid int value: " ++ shown text
  | notNumber text => "invalid float value: " ++ shown text
  | notAmong text choices =>
    "invalid choice: " ++ shown text ++ " (choose from " ++ listed (choices.map shown) ++ ")"

/-- The fault in words. -/
def Fault.message : Fault → String
  | ambiguous argument spellings =>
    "ambiguous option: " ++ argument ++ " could match " ++ listed spellings
  | surplusValue value => "ignored explicit argument " ++ shown value
  | missingValue => "expected one argument"
  | badValue bad => bad.message
  | notGiven names => "the following arguments are required: " ++ listed names
  | leftOver arguments => "unrecognized arguments: " ++ " ".intercalate arguments

/-- The program's name, with the command's if there is one. -/
def callName : Option String → String
  | none => programName
  | some command => programName ++ " " ++ command

/-- The misuse in words. -/
def Misuse.message (misuse : Misuse) : String :=
  let about :=
    match misuse.about with
    | none => ""
    | some name => "argument " ++ name ++ ": "
  callName misuse.command ++ ": error: " ++ about ++ misuse.fault.message

end Mooring.CommandLine
