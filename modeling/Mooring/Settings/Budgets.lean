import Mooring.Decimal.Reading
import Mooring.Json.Value

/-!
# Time budgets

Every stage of a resolution has a budget in milliseconds.  A budget is a finite number above zero;
whatever else a caller or the environment proposes is replaced by the stage's default, with one
warning that names it.  Only a whole number beyond every double is refused outright.
-/

namespace Mooring.Settings

/-- A stage that has a time budget. -/
inductive Stage
  | fastPath
  | attributeMatch
  | fullScan
  | probe
  | sourceParse
  | snippetMatch
  deriving Repr, DecidableEq

namespace Stage

/-- Every stage, in the order in which budgets are checked. -/
def all : List Stage :=
  [fastPath, attributeMatch, fullScan, probe, sourceParse, snippetMatch]

/-- The name of the stage's budget. -/
def budgetName : Stage → String
  | fastPath => "fast_path_ms"
  | attributeMatch => "attribute_ms"
  | fullScan => "full_scan_ms"
  | probe => "probe_ms"
  | sourceParse => "source_parse_ms"
  | snippetMatch => "snippet_match_ms"

/-- The environment variable that sets the stage's budget. -/
def environmentName : Stage → String
  | fastPath => "ANCHORS_FAST_PATH_TIMEOUT_MS"
  | attributeMatch => "ANCHORS_ATTR_TIMEOUT_MS"
  | fullScan => "ANCHORS_FULL_SCAN_TIMEOUT_MS"
  | probe => "ANCHORS_PROBE_TIMEOUT_MS"
  | sourceParse => "ANCHORS_SOURCE_PARSE_TIMEOUT_MS"
  | snippetMatch => "ANCHORS_SNIPPET_MATCH_TIMEOUT_MS"

/-- The stage's budget when nothing usable is proposed. -/
def fallback : Stage → Nat
  | fastPath => 300
  | attributeMatch => 600
  | fullScan => 900
  | probe => 600
  | sourceParse => 300
  | snippetMatch => 50

end Stage

/-- A complete set of budgets, in milliseconds. -/
structure Budgets where
  ms : Stage → Float

/-- Why a proposed setting was not taken. -/
inductive Warning
  /-- A proposed budget is no finite number above zero. -/
  | badBudget (stage : Stage) (proposed : Json)
  /-- A variable does not spell a number; `fallback` is used. -/
  | notANumber (setting raw fallback : String)
  /-- A variable spells a number outside the admitted range; `fallback` is used. -/
  | outOfRange (setting raw requirement fallback : String)

/-- A text in quotes, for a message. -/
def quotedText (s : String) : String :=
  String.ofList (Text.quoted s.toList)

/-- The warning in words. -/
def Warning.message : Warning → String
  | badBudget stage proposed =>
    "Invalid budget " ++ stage.budgetName ++ "=" ++ String.ofList proposed.display ++
      ", using default " ++ toString stage.fallback
  | notANumber setting raw fallback =>
    "Invalid " ++ setting ++ ": " ++ quotedText raw ++ " is not a number, using default " ++
      fallback
  | outOfRange setting raw requirement fallback =>
    "Invalid " ++ setting ++ ": " ++ quotedText raw ++ " must be a " ++ requirement ++
      " number, using default " ++ fallback

/-- The double is a finite number above zero. -/
def isUsable (x : Float) : Bool :=
  match Decimal.parts x with
  | .finite negative num _ => !negative && num != 0
  | _ => false

/-- A whole number too large for a double was proposed. -/
inductive BudgetError
  | beyondRange
  deriving Repr, DecidableEq

/-- The error in words. -/
def BudgetError.message : BudgetError → String
  | beyondRange => "int too large to convert to float"

/-- The double nearest to a whole number; none if it lies beyond every double. -/
def floatOfInt? (n : Int) : Option Float :=
  let x := Decimal.nearest (n < 0) n.natAbs 1
  match Decimal.parts x with
  | .finite .. => some x
  | _ => none

/-- The number that a value stands for, if it stands for one: a number or a text that spells one,
but not a truth value. -/
def numberOf? : Json → Except BudgetError (Option Float)
  | .int n =>
    match floatOfInt? n with
    | some x => .ok (some x)
    | none => .error .beyondRange
  | .float x => .ok (some x)
  | .string s => .ok (Decimal.readFloat? s.toList)
  | _ => .ok none

/-- A stage's budget from a proposed value, and a warning if the default had to be used. -/
def Stage.budgetOf (stage : Stage) (proposed : Option Json) :
    Except BudgetError (Float × List Warning) := do
  let fallback : Float := Decimal.nearest false stage.fallback 1
  match proposed with
  | none => return (fallback, [])
  | some value =>
    match ← numberOf? value with
    | some x => if isUsable x then return (x, []) else return (fallback, [.badBudget stage value])
    | none => return (fallback, [.badBudget stage value])

/-- The budgets proposed by name, and the warnings in the order of the stages. -/
def Budgets.propose (values : Table Json) : Except BudgetError (Budgets × List Warning) := do
  let chosen ← Stage.all.mapM fun stage => do
    let (ms, warnings) ← stage.budgetOf (values.get? stage.budgetName)
    return (stage, ms, warnings)
  let ms (stage : Stage) : Float := ((chosen.lookup stage).map (·.1)).getD 0
  return (⟨ms⟩, chosen.flatMap fun (_, _, warnings) => warnings)

/-- The environment: variables with their values. -/
abbrev Environment := Table String

/-- A variable's value, unless it is blank. -/
def Environment.setting? (env : Environment) (setting : String) : Option String :=
  (env.get? setting).filter fun raw => !(Text.trim raw.toList).isEmpty

/-- The number that a variable's value spells, blanks around it left out. -/
def spelled? (raw : String) : Option Float :=
  Decimal.readFloat? (Text.trim raw.toList)

/-- A stage's budget from the environment, and a warning if the default had to be used. -/
def Stage.budgetFrom (stage : Stage) (env : Environment) : Float × List Warning :=
  let fallback : Float := Decimal.nearest false stage.fallback 1
  let shown := toString stage.fallback ++ "ms"
  match env.setting? stage.environmentName with
  | none => (fallback, [])
  | some raw =>
    match spelled? raw with
    | none => (fallback, [.notANumber stage.environmentName raw shown])
    | some x =>
      if isUsable x then (x, [])
      else (fallback, [.outOfRange stage.environmentName raw "positive" shown])

/-- The budgets that the environment sets, and the warnings in the order of the stages. -/
def Budgets.load (env : Environment) : Budgets × List Warning :=
  (⟨fun stage => (stage.budgetFrom env).1⟩, Stage.all.flatMap fun stage => (stage.budgetFrom env).2)

end Mooring.Settings
