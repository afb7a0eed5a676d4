import Mooring.Decimal.Layout
import Mooring.Decimal.Scalar
import Mooring.Resolution.Candidate
import Mooring.Text.Find
import Mooring.Text.Lines

/-!
# Asking the live page

A page is asked whether a selector finds something.  It takes its time and then replies, or fails in
one of several ways.  Asking is bounded by a timeout: a reply that takes longer is not waited for.
Only a plain no makes a selector dead; every failure leaves it unknown.

Times are exact numbers of milliseconds.
-/

namespace Mooring.Resolution

open Mooring.Decimal

/-- What a page comes back with. -/
inductive Reply
  /-- A plain yes or no, the latter perhaps with an explanation. -/
  | answer (valid : Bool) (error : Option String)
  /-- No answer at all. -/
  | nothing
  /-- A failure: its kind, and its text, which may be empty. -/
  | failure (kind text : String)
  /-- The page itself gave up waiting. -/
  | gaveUp
  deriving Repr, DecidableEq

/-- What a page does when it is asked: after `delay` it replies. -/
structure Probing where
  delay : Rat
  reply : Reply

/-- A live page: what it does when asked about a selector. -/
abbrev Page := String → Probing

/-- What is known after asking. -/
structure Verdict where
  liveness : Liveness
  error : Option String
  deriving Repr, DecidableEq

/-- A number of milliseconds as messages show it. -/
def millisText (ms : Float) : String :=
  String.ofList (generalText ms) ++ "ms"

/-- A number of milliseconds as an exact number. -/
def millis (ms : Float) : Rat :=
  Scalar.ofFloat ms

/-- An exact number of milliseconds to two places. -/
def roundMillis (ms : Rat) : Float :=
  match Scalar.parts (Scalar.round 2 ms) with
  | .finite negative num den => nearest negative num den
  | _ => 0

/-- The verdict that asking took longer than the timeout. -/
def Verdict.overdue (timeout : Float) : Verdict :=
  ⟨.unknown, some ("probe timed out after " ++ millisText timeout)⟩

/-- The verdict on a reply that came in time. -/
def Reply.verdict (timeout : Float) : Reply → Verdict
  | answer true _ => ⟨.alive, none⟩
  | answer false error => ⟨.dead, error⟩
  | nothing => ⟨.unknown, some "probe returned no result"⟩
  | failure kind text => ⟨.unknown, some (if text == "" then kind else text)⟩
  | gaveUp => .overdue timeout

/-- A page was asked: whether it got to hear the question, what came of it, how long it took. -/
structure Visit where
  asked : Bool
  verdict : Verdict
  cost : Rat

/-- Asks, and waits no longer than the timeout. -/
def Probing.visit (timeout : Float) (p : Probing) : Visit :=
  let limit := millis timeout
  if limit ≤ 0 then ⟨false, .overdue timeout, 0⟩
  else if limit < p.delay then ⟨true, .overdue timeout, limit⟩
  else ⟨true, p.reply.verdict timeout, p.delay⟩

/-! ### Pages with locators -/

/-- A selector in the notation of locators: the two shorthands are spelled with an equals sign. -/
def locatorOf (selector : String) : String :=
  let cs := selector.toList
  match Text.afterLead? ("role:").toList cs with
  | some rest => "role=" ++ String.ofList rest
  | none =>
    match Text.afterLead? ("text:").toList cs with
    | some rest => "text=" ++ String.ofList rest
    | none => selector

/-- How waiting for a locator ends. -/
inductive Wait
  | reached
  | overdue
  /-- The page refuses, with a text that may be empty. -/
  | refused (text : String)
  deriving Repr, DecidableEq

/-- The state that an element is waited for in. -/
def awaitedState (requireVisible : Bool) : String :=
  if requireVisible then "visible" else "attached"

/-- The reply of a page whose wait for a locator ends in some way: of a refusal only the first line
counts. -/
def Wait.reply (requireVisible : Bool) (timeout : Float) : Wait → Reply
  | reached => .answer true none
  | overdue =>
    .answer false (some ("not " ++ awaitedState requireVisible ++ " within " ++ millisText timeout))
  | refused text =>
    .answer false (some <|
      match Text.lines text.toList with
      | line :: _ => String.ofList line
      | [] => "playwright error")

end Mooring.Resolution
