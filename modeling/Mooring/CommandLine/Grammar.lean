import Mooring.CommandLine.Misuse
import Mooring.Text.Find
import Mooring.Text.Letters

/-!
# Options and operands

A grammar says which options and which operand a call may have; reading a call by it fills in a
record.  Arguments are told apart first, all of them, and then taken one after the other:

* an option is given by one of its spellings, or by the beginning of a long spelling that no other
  shares; its value follows, or is joined to it by `=`, or directly to a short spelling;
* short options without values can be joined to each other;
* a negative number is no option, nor is a text with a space, nor anything after `--`;
* what is neither a known option nor an operand that is still awaited is left over.
-/

namespace Mooring.CommandLine

open Mooring.Text

/-- What an option does to the record. -/
inductive Effect (ρ : Type)
  | flag (change : ρ → ρ)
  | value (change : String → Except BadValue (ρ → ρ))
  /-- The call asks for help and for nothing else. -/
  | help

/-- An option. -/
structure Opt (ρ : Type) where
  spellings : List String
  effect : Effect ρ
  required : Bool := false

/-- What a call has besides options. -/
inductive Operand (ρ : Type)
  | nothing
  /-- One text, which must be there. -/
  | one (name : String) (change : String → ρ → ρ)
  /-- A text and everything after it, if anything is there. -/
  | rest (change : List String → ρ → ρ)

/-- The options and the operand of a call. -/
structure Grammar (ρ : Type) where
  options : List (Opt ρ)
  operand : Operand ρ

/-- Why a call is not read to its end. -/
inductive Halt
  | help
  | misuse (about : Option String) (fault : Fault)

/-- What an argument is. -/
inductive Token (ρ : Type)
  | plain
  | separator
  /-- A known option under one of its spellings, with the value joined to it. -/
  | option (opt : Opt ρ) (spelling : String) (joined : Option String)
  /-- An option that is not known. -/
  | unknown

variable {ρ : Type}

/-- The name under which an option is spoken of. -/
def Opt.name (opt : Opt ρ) : String :=
  "/".intercalate opt.spellings

/-- The option takes a value. -/
def Opt.takesValue (opt : Opt ρ) : Bool :=
  opt.effect matches .value _

/-- All spellings with their options, in order. -/
def Grammar.spellings (grammar : Grammar ρ) : List (String × Opt ρ) :=
  grammar.options.flatMap fun opt => opt.spellings.map fun spelling => (spelling, opt)

/-- The option with this spelling. -/
def Grammar.spelled? (grammar : Grammar ρ) (spelling : String) : Option (Opt ρ) :=
  grammar.spellings.lookup spelling

/-! ### Telling arguments apart -/

/-- The text is a negative number: digits after a minus, with at most one point, which is not the
last of them.  A line feed at the end does not matter. -/
def isNegativeNumber (text : String) : Bool :=
  let isDigit (c : Char) : Bool := (decimalValue? c).isSome
  match text.toList with
  | '-' :: number =>
    let number := if number.getLast? == some '\n' then number.dropLast else number
    match number.dropWhile isDigit with
    | [] => !number.isEmpty
    | '.' :: places => !places.isEmpty && places.all isDigit
    | _ => false
  | _ => false

/-- A text split at its first `=`. -/
def splitJoined (text : String) : String × Option String :=
  match splitBefore? (· == '=') text.toList with
  | some (before, _ :: after) => (String.ofList before, some (String.ofList after))
  | _ => (text, none)

/-- The option begins with two hyphens. -/
def isLong (text : String) : Bool :=
  startsWith ['-', '-'] text.toList

/-- What an argument that is no exact spelling can stand for: a long spelling that it begins, or a
short one with a value joined to it. -/
def Grammar.readings (grammar : Grammar ρ) (text : String) :
    List (String × Token ρ) :=
  let begins (lead spelling : String) : Bool := startsWith lead.toList spelling.toList
  if isLong text then
    let (lead, joined) := splitJoined text
    (grammar.spellings.filter fun (spelling, _) => begins lead spelling).map fun (spelling, opt) =>
      (spelling, .option opt spelling joined)
  else
    grammar.spellings.filterMap fun (spelling, opt) =>
      if spelling.toList == text.toList.take 2 then
        some (spelling, .option opt spelling (some (String.ofList (text.toList.drop 2))))
      else if begins text spelling then some (spelling, .option opt spelling none)
      else none

/-- What an argument is that stands before any separator. -/
def Grammar.token (grammar : Grammar ρ) (text : String) : Except Fault (Token ρ) :=
  if text == "-" || !startsWith ['-'] text.toList then .ok .plain
  else
    match grammar.spelled? text with
    | some opt => .ok (.option opt text none)
    | none =>
      let (lead, joined) := splitJoined text
      match grammar.spelled? lead, joined with
      | some opt, some value => .ok (.option opt lead (some value))
      | _, _ =>
        match grammar.readings text with
        | [(_, token)] => .ok token
        | [] => .ok (if isNegativeNumber text || text.contains ' ' then .plain else .unknown)
        | several => .error (.ambiguous text (several.map (·.1)))

/-- The arguments with what they are; after the first separator all are plain. -/
def Grammar.tokens (grammar : Grammar ρ) : List String → Except Fault (List (String × Token ρ))
  | [] => .ok []
  | text :: rest =>
    if text == "--" then .ok ((text, .separator) :: rest.map fun text => (text, .plain))
    else
      match grammar.token text with
      | .error fault => .error fault
      | .ok token => (grammar.tokens rest).map fun tokens => (text, token) :: tokens

/-! ### Taking arguments -/

/-- How far the reading of a call has come. -/
structure Progress (ρ : Type) where
  record : ρ
  /-- The operand is there. -/
  filled : Bool := false
  /-- The names of the options that were given. -/
  given : List String := []
  leftOver : List String := []

/-- An argument is left over. -/
def Progress.skip (text : String) (progress : Progress ρ) : Progress ρ :=
  { progress with leftOver := progress.leftOver ++ [text] }

/-- The operand is there. -/
def Progress.fill (change : ρ → ρ) (progress : Progress ρ) : Progress ρ :=
  { progress with record := change progress.record, filled := true }

/-- An option is given. -/
def Progress.change (name : String) (change : ρ → ρ) (progress : Progress ρ) : Progress ρ :=
  { progress with record := change progress.record, given := name :: progress.given }

/-- The use of an option, with its value if it has one yet. -/
abbrev Use (ρ : Type) := Opt ρ × Option String

/-- The options that are joined to each other in `tail`, after an option before them. -/
def Grammar.cluster (grammar : Grammar ρ) (opt : Opt ρ) : List Char → Except Halt (List (Use ρ))
  | [] => .ok [(opt, none)]
  | c :: tail =>
    if opt.takesValue then .ok [(opt, some (String.ofList (c :: tail)))]
    else
      match grammar.spelled? (String.ofList ['-', c]) with
      | some next => (grammar.cluster next tail).map fun uses => (opt, none) :: uses
      | none => .error (.misuse (some opt.name) (.surplusValue (String.ofList (c :: tail))))

/-- The uses of options in one argument. -/
def Grammar.uses (grammar : Grammar ρ) (opt : Opt ρ) (spelling : String) (joined : Option String) :
    Except Halt (List (Use ρ)) :=
  match joined with
  | none => .ok [(opt, none)]
  | some value =>
    if opt.takesValue then .ok [(opt, some value)]
    else if !isLong spelling && value != "" then grammar.cluster opt value.toList
    else .error (.misuse (some opt.name) (.surplusValue value))

/-- The option at the end of some uses, if it still awaits its value. -/
def awaiting? (uses : List (Use ρ)) : Option (Opt ρ) :=
  match uses.getLast? with
  | some (opt, none) => if opt.takesValue then some opt else none
  | _ => none

/-- One use of an option. -/
def Progress.use (use : Use ρ) (progress : Progress ρ) : Except Halt (Progress ρ) :=
  let (opt, value) := use
  match opt.effect with
  | .help => .error .help
  | .flag change => .ok (progress.change opt.name change)
  | .value change =>
    match value with
    | none => .error (.misuse (some opt.name) .missingValue)
    | some text =>
      match change text with
      | .ok change => .ok (progress.change opt.name change)
      | .error bad => .error (.misuse (some opt.name) (.badValue bad))

/-- Some uses of options, one after the other. -/
def Progress.useAll (uses : List (Use ρ)) (progress : Progress ρ) : Except Halt (Progress ρ) :=
  uses.foldlM (fun progress use => progress.use use) progress

/-- Takes the arguments one after the other.  A separator belongs to an operand right beside it, and
is left over elsewhere. -/
def Grammar.take (grammar : Grammar ρ) :
    List (String × Token ρ) → Progress ρ → Except Halt (Progress ρ)
  | [], progress => .ok progress
  | (text, .unknown) :: rest, progress => grammar.take rest (progress.skip text)
  | (text, .plain) :: rest, progress =>
    match grammar.operand, progress.filled with
    | .one _ change, false =>
      match rest with
      | (_, .separator) :: rest => grammar.take rest (progress.fill (change text))
      | rest => grammar.take rest (progress.fill (change text))
    | .rest change, false => .ok (progress.fill (change (text :: rest.map (·.1))))
    | _, _ => grammar.take rest (progress.skip text)
  | (text, .separator) :: rest, progress =>
    match grammar.operand, progress.filled, rest with
    | .one _ change, false, (operand, _) :: rest =>
      grammar.take rest (progress.fill (change operand))
    | .rest change, false, _ :: _ => .ok (progress.fill (change (text :: rest.map (·.1))))
    | _, _, rest => grammar.take rest (progress.skip text)
  | (_, .option opt spelling joined) :: rest, progress =>
    match grammar.uses opt spelling joined with
    | .error halt => .error halt
    | .ok uses =>
      match awaiting? uses with
      | none =>
        match progress.useAll uses with
        | .error halt => .error halt
        | .ok progress => grammar.take rest progress
      | some last =>
        match rest with
        | (value, .plain) :: rest =>
          match progress.useAll (uses.dropLast ++ [(last, some value)]) with
          | .error halt => .error halt
          | .ok progress => grammar.take rest progress
        | _ => .error (.misuse (some last.name) .missingValue)

/-- The names of what must be there and is not. -/
def Grammar.missing (grammar : Grammar ρ) (progress : Progress ρ) : List String :=
  let operand :=
    match grammar.operand with
    | .one name _ => if progress.filled then [] else [name]
    | _ => []
  let options := grammar.options.filter fun opt =>
    opt.required && !progress.given.contains opt.name
  operand ++ options.map (·.name)

/-- Reads a call into a record that starts as `start`; also gives the arguments left over. -/
def Grammar.read (grammar : Grammar ρ) (start : ρ) (arguments : List String) :
    Except Halt (ρ × List String) :=
  match grammar.tokens arguments with
  | .error fault => .error (.misuse none fault)
  | .ok tokens =>
    match grammar.take tokens { record := start } with
    | .error halt => .error halt
    | .ok progress =>
      match grammar.missing progress with
      | [] => .ok (progress.record, progress.leftOver)
      | names => .error (.misuse none (.notGiven names))

end Mooring.CommandLine
