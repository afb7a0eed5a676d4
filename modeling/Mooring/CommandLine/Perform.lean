import Mooring.Anchor.Capture
import Mooring.Anchor.Matching
import Mooring.CommandLine.Call
import Mooring.CommandLine.Path
import Mooring.Health
import Mooring.Markup.Region
import Mooring.Store.File

/-!
# Performing calls

What a call prints, the exit code it ends with, and what it stores, given what is found under the
paths that it names.  A call that fails stores nothing.
-/

namespace Mooring.CommandLine

open Mooring.Store

/-- What breaks a call off without a proper end. -/
inductive Breakdown
  /-- A file is no text. -/
  | unreadable (bad : Text.BadBytes)
  /-- An anchor cannot be captured, and not for want of an element. -/
  | capture (failure : Anchor.CaptureFailure)
  /-- No directory can be made for the document file. -/
  | blocked (obstacle : Obstacle)

/-- How a call ends. -/
inductive Ending
  /-- With an exit code, after printing some lines. -/
  | exit (code : Nat) (lines : List String)
  | misuse (misuse : Misuse)
  | breakdown (breakdown : Breakdown)

/-- What surrounds a call. -/
structure Surroundings where
  /-- The directory in which the call is made. -/
  directory : Path
  environment : Settings.Environment := []
  /-- Why there is no page to probe, if there is none. -/
  missingPage : Option String := none
  now : Moment

/-- How a call ends, and the document file it leaves, if it writes one. -/
structure Performance where
  ending : Ending
  saved : Option ByteArray := none

/-- An end with an error, which is told. -/
def Performance.failed (message : String) : Performance :=
  { ending := .exit 1 ["Error: " ++ message] }

/-- A text file that has to be there, known as `path`: its text goes on to the rest of the call. -/
def withSource (around : Surroundings) (path : String) (entry : Entry)
    (go : String → Performance) : Performance :=
  match entry with
  | .file bytes =>
    match textOf bytes with
    | .ok text => go text
    | .error bad => { ending := .breakdown (.unreadable bad) }
  | _ => .failed ("File not found: " ++ (around.directory.resolve (Path.ofText path)).text)

/-- The document under a path: it goes on to the rest of the call. -/
def withStored (around : Surroundings) (path : String) (entry : Entry)
    (go : Document → Performance) : Performance :=
  match load around.now.text entry with
  | .ok document => go document
  | .error (.notText bad) => { ending := .breakdown (.unreadable bad) }
  | .error (.invalid problems) =>
    .failed ((LoadError.invalid problems).message (Path.ofText path).text ++ ": " ++
      "; ".intercalate (problems.map Record.Problem.message))
  | .error error => .failed (error.message (Path.ofText path).text)

/-- The lines that tell of a new anchor in the document under a path. -/
def savedLines (around : Surroundings) (path : String) (anchor : Anchor) : List String :=
  let range :=
    match anchor.range with
    | some range => toString range.first ++ "-" ++ toString range.last
    | none => ""
  ["Saved anchor \"" ++ anchor.id ++ "\" to " ++
      (around.directory.resolve (Path.ofText path)).text,
    "  Selector     : " ++ anchor.selector,
    "  Snippet hash : " ++ anchor.snippetHash.getD "",
    "  Source range : lines " ++ range]

/-- Performs `add`. -/
def add (around : Surroundings) (call : AddCall) (source store : Entry) : Performance :=
  withSource around call.file source fun text =>
    withStored around call.store store fun document =>
      if document.has call.id && !call.force then
        .failed ("Anchor with ID \"" ++ call.id ++ "\" already exists. Use --force to overwrite.")
      else
        let place : Anchor.Place :=
          { source := text, file := call.file, line := call.line, selector := call.selector,
            algorithm := call.hashing.algorithm, digits := call.hashing.digits }
        match Anchor.capture call.id place around.now.text with
        | .error (.error error) => .failed error.message
        | .error failure => { ending := .breakdown (.capture failure) }
        | .ok anchor =>
          { ending := .exit 0 (savedLines around call.store anchor)
            saved := some (fileOf (document.put anchor)) }

/-- Performs `hash`. -/
def hash (around : Surroundings) (call : HashCall) (source : Entry) : Performance :=
  withSource around call.file source fun text =>
    let last := call.last.getD call.first
    if call.first < 1 || last < call.first then
      .failed ("invalid line range " ++ toString call.first ++ "-" ++ toString last)
    else
      match Fragment.HashFormat.named call.hashing.algorithm call.hashing.digits with
      | .error digest => { ending := .breakdown (.capture (.unsupported digest)) }
      | .ok format =>
        { ending :=
            .exit 0 [Fragment.hash format (Markup.sliceLines text call.first last).1] }

/-- Performs `match`. -/
def find (around : Surroundings) (call : MatchCall) (store : Entry) : Performance :=
  withStored around call.store store fun document =>
    match Anchor.best? document.anchors call.selector around.now call.minimum with
    | none => { ending := .exit 1 ["No anchor matches " ++ shown call.selector] }
    | some best =>
      let points : Float := Decimal.Scalar.ratio best.points 1
      { ending := .exit 0
          ((best.anchor.id ++ " (score " ++ String.ofList (Decimal.generalText points) ++ ")") ::
            best.reasons.map fun reason => "  - " ++ reason) }

/-- The name under which a budget is listed. -/
def budgetLabel : Settings.Stage → String
  | .fastPath => "fast path     "
  | .attributeMatch => "attribute     "
  | .fullScan => "full scan     "
  | .probe => "probe         "
  | .sourceParse => "source parse  "
  | .snippetMatch => "snippet match "

/-- A line across the page. -/
def rule : String :=
  String.ofList (List.replicate 60 '=')

/-- Performs `doctor`. -/
def doctor (around : Surroundings) : Performance :=
  let health := Health.check (.ok (Markup.Index.ofSource Health.sample)) around.missingPage
    around.environment
  let budgets := (Settings.Budgets.load around.environment).1
  { ending := .exit (if health.healthy then 0 else 1)
      (["", rule, "Selector Anchors Doctor", rule,
          "  Status  : " ++ (if health.healthy then "OK" else "FAILED"),
          "  Message : " ++ health.message] ++
        health.issues.map (fun issue => "  Issue   : " ++ issue.message) ++
        ["", "  Budgets (ms):"] ++
        Settings.Stage.all.map fun stage =>
          "    " ++ budgetLabel stage ++ ": " ++
            String.ofList (Decimal.generalText (budgets.ms stage))) }

/-- What is shown when no command is given. -/
def overviewLines : List String :=
  ["usage: selector-anchors [-h] [-v] \x7badd,hash,match,doctor\x7d ...",
    "",
    "Capture and inspect durable selector anchors",
    "",
    "positional arguments:",
    "  \x7badd,hash,match,doctor\x7d",
    "    add                 Capture an anchor from a source file position",
    "    hash                Hash a line range of a file",
    "    match               Find the stored anchor closest to a selector",
    "    doctor              Check dependencies and configuration",
    "",
    "options:",
    "  -h, --help            show this help message and exit",
    "  -v, --verbose         Enable debug logging"]

/-- The path of the source that a call reads. -/
def Call.source? : Call → Option String
  | .add call => some call.file
  | .hash call => some call.file
  | _ => none

/-- The path of the document that a call reads. -/
def Call.store? : Call → Option String
  | .add call => some call.store
  | .find call => some call.store
  | _ => none

/-- Performs a call, given what is found under the paths of its source and its document. -/
def Call.perform (around : Surroundings) (call : Call) (source store : Entry) : Performance :=
  match call with
  | .add call => CommandLine.add around call source store
  | .hash call => CommandLine.hash around call source
  | .find call => CommandLine.find around call store
  | .doctor => CommandLine.doctor around
  | .overview => { ending := .exit 0 overviewLines }

end Mooring.CommandLine
