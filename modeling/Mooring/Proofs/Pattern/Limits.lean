import Mooring.Proofs.Pattern.Expected
import Mooring.Proofs.Pattern.Reading

/-!
# Bad patterns are values

A pattern that is long, nested or malformed is refused with a value, and then its text is looked for
literally.  So compiling, searching and comparing give a result for every pattern and every text, but
for two kinds of patterns, which are caught nowhere: those with an oversized number of repetitions,
and those that turn on flags which exclude each other.  A pattern of such a kind shows it
(`patterns_end`), and none of them is refused beforehand.
-/

namespace Mooring.Pattern

variable {pattern : String} {flags : Flags} {overload : Overload}

/-- A pattern is compiled or refused, or it is read and goes beyond a limit. -/
theorem compile_ends (pattern : String)
    (hflags : flags.ascii = false ∧ flags.unicode = false) :
    (∃ result, compile flags pattern = .ok result) ∨
      ∃ overload, compile flags pattern = .error overload ∧ guard? pattern = none ∧
        Shown pattern.toList overload := by
  unfold compile
  cases hguard : guard? pattern with
  | some refusal => exact Or.inl ⟨_, rfl⟩
  | none =>
    cases hread : read flags pattern.toList with
    | ok pieces => exact Or.inl ⟨_, rfl⟩
    | error error =>
      cases error with
      | malformed flaw => exact Or.inl ⟨_, rfl⟩
      | overload overload => exact Or.inr ⟨overload, rfl, rfl, shown_of_read hflags hread⟩

/-- Where compiling gives a result, so does searching. -/
theorem exists_searchOrLiteral {result : Except Refusal (List Piece)}
    (h : compile flags pattern = .ok result) (text : String) (literal : Option String) :
    ∃ found, searchOrLiteral pattern text literal flags = .ok found := by
  unfold searchOrLiteral
  rw [h]
  cases result with
  | ok pieces => exact ⟨_, rfl⟩
  | error refusal => exact ⟨_, rfl⟩

theorem searchOrLiteral_of_overload (h : compile flags pattern = .error overload) (text : String)
    (literal : Option String) : searchOrLiteral pattern text literal flags = .error overload := by
  unfold searchOrLiteral
  rw [h]
  rfl

/-- An expected text goes beyond a limit just where the pattern between its slashes does. -/
theorem shown_of_exceeds {expected : String} (h : Exceeds expected overload) :
    ∃ body anyCase, delimited? expected = some (body, anyCase) ∧ guard? body = none ∧
      Shown body.toList overload := by
  obtain ⟨body, anyCase, hdelimited, hcompile⟩ := h
  refine ⟨body, anyCase, hdelimited, ?_⟩
  have hflags : ({ ignoreCase := anyCase } : Flags).ascii = false ∧
      ({ ignoreCase := anyCase } : Flags).unicode = false := ⟨rfl, rfl⟩
  rcases compile_ends body hflags with
    ⟨result, hresult⟩ | ⟨found, herror, hguard, hshown⟩
  · rw [hresult] at hcompile
    exact absurd hcompile (by simp)
  · rw [herror] at hcompile
    obtain rfl := Except.error.inj hcompile
    exact ⟨hguard, hshown⟩

/-- **A bad pattern is a value, unless it goes beyond a limit.**  For every pattern, every text and
every choice of the usual flags, compiling and searching give a result, or both break off with the
same overload, which the pattern shows.  Comparing with an expected text gives a result too, or the
expected text is a pattern in slashes that shows why not. -/
theorem patterns_end (pattern text expected : String) (literal : Option String)
    (ignoreCase multiline dotAll : Bool) :
    ((∃ result found, compile { ignoreCase, multiline, dotAll } pattern = .ok result ∧
        searchOrLiteral pattern text literal { ignoreCase, multiline, dotAll } = .ok found) ∨
      ∃ overload, compile { ignoreCase, multiline, dotAll } pattern = .error overload ∧
        searchOrLiteral pattern text literal { ignoreCase, multiline, dotAll } = .error overload ∧
        guard? pattern = none ∧ Shown pattern.toList overload) ∧
    ((∃ holds, textMatches expected text = .ok holds) ∨
      ∃ overload body anyCase, textMatches expected text = .error overload ∧
        delimited? expected = some (body, anyCase) ∧ guard? body = none ∧
        Shown body.toList overload) := by
  constructor
  · have hflags : ({ ignoreCase, multiline, dotAll } : Flags).ascii = false ∧
        ({ ignoreCase, multiline, dotAll } : Flags).unicode = false := ⟨rfl, rfl⟩
    rcases compile_ends pattern hflags with
      ⟨result, hresult⟩ | ⟨overload, herror, hguard, hshown⟩
    · obtain ⟨found, hfound⟩ := exists_searchOrLiteral hresult text literal
      exact Or.inl ⟨result, found, hresult, hfound⟩
    · exact Or.inr ⟨overload, herror, searchOrLiteral_of_overload herror text literal, hguard,
        hshown⟩
  · rcases textMatches_cases expected with ⟨holds, hholds⟩ | ⟨overload, hexceeds⟩
    · exact Or.inl ⟨holds text, hholds text⟩
    · obtain ⟨body, anyCase, hdelimited, hguard, hshown⟩ := shown_of_exceeds hexceeds
      exact Or.inr ⟨overload, body, anyCase, textMatches_of_exceeds hexceeds text, hdelimited,
        hguard, hshown⟩

/-- A short pattern without any group goes beyond a limit, and so do two groups that are harmless by
themselves. -/
theorem patterns_break_off :
    textMatches "/a\x7b4294967295\x7d/" "x" = .error .repetition ∧
      compile {} "a\x7b4294967295\x7d" = .error .repetition ∧
      compile {} "(?a)(?u)" = .error .flags := by
  have hends {pattern : String} {overload : Overload} (h : (match compile {} pattern with
      | .error found => decide (found = overload)
      | .ok _ => false) = true) : compile {} pattern = .error overload := by
    split at h
    next found hfound => rw [hfound, of_decide_eq_true h]
    next => exact absurd h Bool.false_ne_true
  have hrepetition : compile {} "a\x7b4294967295\x7d" = .error .repetition :=
    hends (by decide +kernel)
  have hexceeds : Exceeds "/a\x7b4294967295\x7d/" .repetition :=
    ⟨"a\x7b4294967295\x7d", false, by decide, hrepetition⟩
  exact ⟨textMatches_of_exceeds hexceeds "x", hrepetition, hends (by decide +kernel)⟩

end Mooring.Pattern
