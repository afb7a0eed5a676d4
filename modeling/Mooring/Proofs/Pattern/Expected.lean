import Mooring.Pattern.Safe

/-!
# Expected texts that cannot be looked for

An expected text in slashes is a pattern.  A pattern that is refused or malformed is looked for
literally, but one that goes beyond a limit of the notation cannot be looked for at all.  Whether
that is so depends on the expected text alone, and not on the texts that it is compared with
(`textMatches_cases`).
-/

namespace Mooring.Pattern

open Mooring.Text

variable {expected : String} {overload : Overload}

/-- The expected text is a pattern in slashes that goes beyond a limit. -/
def Exceeds (expected : String) (overload : Overload) : Prop :=
  ∃ body anyCase, delimited? expected = some (body, anyCase) ∧
    compile { ignoreCase := anyCase } body = .error overload

/-- An expected text in slashes is searched for. -/
theorem textMatches_of_delimited {body : String} {anyCase : Bool}
    (h : delimited? expected = some (body, anyCase)) (text : String) :
    textMatches expected text =
      (searchOrLiteral body text (some body) { ignoreCase := anyCase }).map Option.isSome := by
  have hnone : delimited? "" = none := by decide
  have hfilled : ¬(expected == "") = true := by
    intro hempty
    rw [beq_iff_eq.mp hempty, hnone] at h
    exact absurd h (by simp)
  rw [textMatches, if_neg hfilled, h]
  dsimp only
  cases searchOrLiteral body text (some body) { ignoreCase := anyCase } <;> rfl

theorem textMatches_of_exceeds (h : Exceeds expected overload) (text : String) :
    textMatches expected text = .error overload := by
  obtain ⟨body, anyCase, hdelimited, hcompile⟩ := h
  rw [textMatches_of_delimited hdelimited, searchOrLiteral, hcompile]
  rfl

/-- **An expected text is compared with every text, or with none**, if it goes beyond a limit. -/
theorem textMatches_cases (expected : String) :
    (∃ holds : String → Bool, ∀ text, textMatches expected text = .ok (holds text)) ∨
      ∃ overload, Exceeds expected overload := by
  by_cases hempty : (expected == "") = true
  · exact Or.inl ⟨fun _ => true, fun text => by rw [textMatches, if_pos hempty]; rfl⟩
  · cases hdelimited : delimited? expected with
    | none =>
      refine Or.inl ⟨fun text => occursIn (lower (trim expected.toList)) (lower text.toList), ?_⟩
      intro text
      rw [textMatches, if_neg hempty, hdelimited]
      rfl
    | some pattern =>
      obtain ⟨body, anyCase⟩ := pattern
      have hsearch := textMatches_of_delimited hdelimited
      cases hcompile : compile { ignoreCase := anyCase } body with
      | error overload => exact Or.inr ⟨overload, body, anyCase, hdelimited, hcompile⟩
      | ok compiled =>
        cases compiled with
        | ok pieces =>
          refine Or.inl ⟨fun text => ((search pieces text.toList).map Found.reported).isSome, ?_⟩
          intro text
          rw [hsearch, searchOrLiteral, hcompile]
          rfl
        | error refusal =>
          refine Or.inl ⟨fun text => (findLiteral body text anyCase).isSome, fun text => ?_⟩
          rw [hsearch, searchOrLiteral, hcompile]
          rfl

/-- An expected text that cannot be looked for goes beyond a limit. -/
theorem exceeds_of_textMatches {text : String} (h : textMatches expected text = .error overload) :
    Exceeds expected overload := by
  rcases textMatches_cases expected with ⟨holds, hholds⟩ | ⟨found, hexceeds⟩
  · rw [hholds] at h
    exact absurd h (by simp)
  · rw [textMatches_of_exceeds hexceeds] at h
    rwa [← Except.error.inj h]

end Mooring.Pattern
