import Mooring.CommandLine.Grammar
import Mooring.Decimal.Reading
import Mooring.Digest.Algorithm

/-!
# Calls

The commands and what they can be called with: `add` captures an anchor and stores it, `hash` hashes
some lines of a file, `match` finds the stored anchor that a selector means, and `doctor` checks the
surroundings.  A call without a command, or one that asks for help, shows an overview.
-/

namespace Mooring.CommandLine

open Mooring.Text

/-- How a hash is made. -/
structure Hashing where
  algorithm : String := "sha1"
  digits : Int := 16

/-- The document file if none is named. -/
def defaultStore : String := "anchors.json"

/-- A call of `add`. -/
structure AddCall where
  file : String := ""
  line : Int := 0
  id : String := ""
  selector : Option String := none
  store : String := defaultStore
  /-- An anchor of the same id may be replaced. -/
  force : Bool := false
  hashing : Hashing := {}

/-- A call of `hash`; without `last`, the lines are just `first`. -/
structure HashCall where
  file : String := ""
  first : Int := 0
  last : Option Int := none
  hashing : Hashing := {}

/-- A call of `match`. -/
structure MatchCall where
  selector : String := ""
  store : String := defaultStore
  minimum : Float := 0

/-- What a call asks for. -/
inductive Call
  | add (call : AddCall)
  | hash (call : HashCall)
  | find (call : MatchCall)
  | doctor
  | overview

/-! ### Values -/

/-- Whole numbers with more digits are not read. -/
def maxDigits : Nat := 4300

/-- A value that is any text. -/
def textValue {ρ : Type} (change : String → ρ → ρ) : Effect ρ :=
  .value fun text => .ok (change text)

/-- A value that is a whole number. -/
def wholeValue {ρ : Type} (change : Int → ρ → ρ) : Effect ρ :=
  .value fun text =>
    if maxDigits < text.toList.countP fun c => (decimalValue? c).isSome then
      .error (.notWhole text)
    else
      match Decimal.readInt? text.toList with
      | some n => .ok (change n)
      | none => .error (.notWhole text)

/-- A value that is a number. -/
def numberValue {ρ : Type} (change : Float → ρ → ρ) : Effect ρ :=
  .value fun text =>
    match Decimal.readFloat? text.toList with
    | some x => .ok (change x)
    | none => .error (.notNumber text)

/-- A value that is one of some texts. -/
def choiceValue {ρ : Type} (choices : List String) (change : String → ρ → ρ) : Effect ρ :=
  .value fun text =>
    if choices.contains text then .ok (change text) else .error (.notAmong text choices)

/-! ### Grammars -/

/-- The option that asks for help. -/
def helpOption {ρ : Type} : Opt ρ :=
  { spellings := ["-h", "--help"], effect := .help }

/-- The options that say how a hash is made. -/
def hashingOptions {ρ : Type} (change : (Hashing → Hashing) → ρ → ρ) : List (Opt ρ) :=
  [{ spellings := ["--algorithm"]
     effect := choiceValue (Digest.Algorithm.all.map (·.name)) fun algorithm =>
       change fun hashing => { hashing with algorithm } },
   { spellings := ["--digits"]
     effect := wholeValue fun digits => change fun hashing => { hashing with digits } }]

/-- The grammar of `add`. -/
def addGrammar : Grammar AddCall :=
  { options := helpOption ::
      hashingOptions (fun change call => { call with hashing := change call.hashing }) ++
      [{ spellings := ["--file"], required := true
         effect := textValue fun file call => { call with file } },
       { spellings := ["--line"], required := true
         effect := wholeValue fun line call => { call with line } },
       { spellings := ["--id"], required := true
         effect := textValue fun id call => { call with id } },
       { spellings := ["--selector"]
         effect := textValue fun selector call => { call with selector := some selector } },
       { spellings := ["--store", "-o"]
         effect := textValue fun store call => { call with store } },
       { spellings := ["--force", "-f"]
         effect := .flag fun call => { call with force := true } }]
    operand := .nothing }

/-- The grammar of `hash`. -/
def hashGrammar : Grammar HashCall :=
  { options := helpOption ::
      hashingOptions (fun change call => { call with hashing := change call.hashing }) ++
      [{ spellings := ["--start"], required := true
         effect := wholeValue fun first call => { call with first } },
       { spellings := ["--end"]
         effect := wholeValue fun last call => { call with last := some last } }]
    operand := .one "file" fun file call => { call with file } }

/-- The grammar of `match`. -/
def matchGrammar : Grammar MatchCall :=
  { options :=
      [helpOption,
       { spellings := ["--store"]
         effect := textValue fun store call => { call with store } },
       { spellings := ["--min-score"]
         effect := numberValue fun minimum call => { call with minimum } }]
    operand := .one "selector" fun selector call => { call with selector } }

/-- The grammar of `doctor`. -/
def doctorGrammar : Grammar Unit :=
  { options := [helpOption], operand := .nothing }

/-- The grammar of a whole call: its record is the command and what comes after it. -/
def programGrammar : Grammar (List String) :=
  { options :=
      [helpOption, { spellings := ["-v", "--verbose"], effect := .flag id }]
    operand := .rest fun arguments _ => arguments }

/-- The commands. -/
def commands : List String :=
  ["add", "hash", "match", "doctor"]

/-! ### Reading calls -/

/-- Reads the arguments after a command.  `earlier` are the arguments that were left over before
it. -/
def readCommand {ρ : Type} (command : String) (grammar : Grammar ρ) (start : ρ) (call : ρ → Call)
    (arguments earlier : List String) : Except Misuse Call :=
  match grammar.read start arguments with
  | .error .help => .ok .overview
  | .error (.misuse about fault) => .error ⟨some command, about, fault⟩
  | .ok (record, leftOver) =>
    match earlier ++ leftOver with
    | [] => .ok (call record)
    | arguments => .error ⟨none, none, .leftOver arguments⟩

/-- Reads the arguments of a whole call. -/
def Call.ofArguments (arguments : List String) : Except Misuse Call :=
  match programGrammar.read [] arguments with
  | .error .help => .ok .overview
  | .error (.misuse about fault) => .error ⟨none, about, fault⟩
  | .ok ([], []) => .ok .overview
  | .ok ([], leftOver) => .error ⟨none, none, .leftOver leftOver⟩
  | .ok (command :: rest, leftOver) =>
    match command with
    | "add" => readCommand command addGrammar {} .add rest leftOver
    | "hash" => readCommand command hashGrammar {} .hash rest leftOver
    | "match" => readCommand command matchGrammar {} .find rest leftOver
    | "doctor" => readCommand command doctorGrammar () (fun _ => .doctor) rest leftOver
    | _ => .error ⟨none, some "command", .badValue (.notAmong command commands)⟩

end Mooring.CommandLine
