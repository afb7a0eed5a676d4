import Mooring.Markup.Index
import Mooring.Settings.Budgets

/-!
# Health

A check of what the library depends on: markup must be indexed with the right lines, and a page to
probe should be there.  Without the first nothing works.  Without the second only probing does not,
so it is an issue but no failure, unless the environment asks for strictness.
-/

namespace Mooring

open Mooring.Markup

/-- What is wrong. -/
inductive HealthIssue
  /-- Markup is not read at all. -/
  | parserFails (problem : String)
  /-- Markup is read, but its lines are not known. -/
  | linesUnknown
  /-- There is no page to probe. -/
  | noPage (problem : String)
  deriving Repr, DecidableEq

/-- The issue in words. -/
def HealthIssue.message : HealthIssue → String
  | parserFails problem => "HTML parser failed: " ++ problem
  | linesUnknown => "HTML parser is available but does not report source lines"
  | noPage problem => "Playwright probe unavailable: " ++ problem

/-- The result of a check. -/
structure Health where
  healthy : Bool
  issues : List HealthIssue
  deriving Repr, DecidableEq

namespace Health

/-- The markup that is indexed as a test. -/
def sample : String :=
  "<div class=\"probe\">\n  <button data-testid=\"ok\">Hello</button>\n</div>"

/-- The issue with an attempt to index the sample: its button stands on the second line.  A failure
without a text counts as an index without nodes. -/
def parserIssue? (attempt : Except String Index) : Option HealthIssue :=
  match attempt with
  | .ok index =>
    match index.findByAttribute "data-testid" "ok" with
    | button :: _ => if button.line = 2 then none else some .linesUnknown
    | [] => some .linesUnknown
  | .error problem => some (if problem == "" then .linesUnknown else .parserFails problem)

/-- The variable that asks for strictness. -/
def strictnessName : String := "ANCHORS_HEALTHCHECK_STRICT_PROBE"

/-- The environment asks for strictness: a missing page is a failure. -/
def isStrict (environment : Settings.Environment) : Bool :=
  Text.lower ((environment.get? strictnessName).getD "").toList == "true".toList

/-- The check, given an attempt to index the sample and, if there is no page to probe, the
reason. -/
def check (attempt : Except String Index) (missingPage : Option String)
    (environment : Settings.Environment) : Health :=
  let parser := parserIssue? attempt
  { healthy := parser.isNone && (missingPage.isNone || !isStrict environment)
    issues := parser.toList ++ (missingPage.map HealthIssue.noPage).toList }

/-- The result in words. -/
def message (health : Health) : String :=
  if health.healthy then "Selector anchors are healthy and ready to use"
  else "Selector anchors have dependency or parsing issues"

end Health

end Mooring
