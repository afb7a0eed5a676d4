import Mooring.Proofs.Pattern.Expected
import Mooring.Proofs.Pattern.Openings
import Mooring.Proofs.Text.Finding

/-!
# What is refused unread is looked for literally

A pattern is refused before it is read just if it is too long or opens too many groups in a row
(`refusedUnread_iff`).  Neither depends on the flags.

Put between slashes such a pattern is still an expected text: the slashes come off again, whatever
the pattern ends with (`delimited?_exact`, `delimited?_anyCase`), and the texts that match are those
in which the pattern occurs.
-/

namespace Mooring.Pattern

open Mooring.Text

variable {pattern : String} {flags : Flags} {refusal : Refusal}

/-! ## The guard -/

/-- The pattern is refused, and not because it is malformed. -/
def RefusedUnread (flags : Flags) (pattern : String) : Prop :=
  ∃ refusal, (∀ error, refusal ≠ .malformed error) ∧ compile flags pattern = .ok (.error refusal)

theorem guard?_eq_none_iff : guard? pattern = none ↔
    ¬(maxLength < pattern.length ∨ OpensInRow maxOpenings pattern.toList) := by
  rw [guard?, not_or, ← opensTooMany_iff]
  by_cases hlong : maxLength < pattern.length
  · rw [if_pos hlong]
    exact ⟨fun h => absurd h (by simp), fun h => absurd hlong h.1⟩
  · rw [if_neg hlong]
    by_cases hnested : opensTooMany 0 pattern.toList = true
    · rw [if_pos hnested]
      exact ⟨fun h => absurd h (by simp), fun h => absurd hnested h.2⟩
    · rw [if_neg hnested]
      exact ⟨fun _ => ⟨hlong, hnested⟩, fun _ => rfl⟩

/-- The guard does not read the pattern, so it finds nothing malformed. -/
theorem ne_malformed_of_guard? (h : guard? pattern = some refusal) (error : SyntaxError) :
    refusal ≠ .malformed error := by
  rintro rfl
  unfold guard? at h
  split at h
  · exact absurd h (by simp)
  · split at h <;> exact absurd h (by simp)

/-- What the guard lets through is refused only as malformed. -/
theorem eq_malformed_of_compile (hguard : guard? pattern = none)
    (h : compile flags pattern = .ok (.error refusal)) : ∃ error, refusal = .malformed error := by
  rw [compile, hguard] at h
  dsimp only at h
  split at h
  next => exact absurd (Except.ok.inj h) (by simp)
  next error _ =>
    injection Except.ok.inj h with hrefusal
    exact ⟨error, hrefusal.symm⟩
  next => exact absurd h (by simp)

theorem compile_of_guard? (h : guard? pattern = some refusal) :
    compile flags pattern = .ok (.error refusal) := by
  rw [compile, h]

/-- **A pattern is refused unread just if it is too long or opens too many groups in a row.** -/
theorem refusedUnread_iff : RefusedUnread flags pattern ↔
    maxLength < pattern.length ∨ OpensInRow maxOpenings pattern.toList := by
  constructor
  · rintro ⟨refusal, hunread, hcompile⟩
    by_contra hguard
    obtain ⟨error, rfl⟩ := eq_malformed_of_compile (guard?_eq_none_iff.mpr hguard) hcompile
    exact hunread error rfl
  · intro h
    have hsome : guard? pattern ≠ none := fun hnone => guard?_eq_none_iff.mp hnone h
    obtain ⟨refusal, hguard⟩ := Option.ne_none_iff_exists'.mp hsome
    exact ⟨refusal, ne_malformed_of_guard? hguard, compile_of_guard? hguard⟩

theorem not_refusedUnread_empty : ¬RefusedUnread flags "" := by
  rw [refusedUnread_iff, ← guard?_eq_none_iff]
  decide

/-! ## The slashes come off -/

theorem ofList_take_drop (lead : Char) (pattern : String) (tail : List Char) {count : Nat}
    (hcount : count = pattern.toList.length) :
    String.ofList (((lead :: (pattern.toList ++ tail)).drop 1).take count) = pattern := by
  rw [List.drop_succ_cons, List.drop_zero, hcount, List.take_left, String.ofList_toList]

/-- A pattern between slashes is taken as it is. -/
theorem delimited?_exact (hfilled : pattern ≠ "") :
    delimited? ("/" ++ pattern ++ "/") = some (pattern, false) := by
  have htext : ("/" ++ pattern ++ "/").toList = '/' :: (pattern.toList ++ ['/']) := by
    rw [String.toList_append, String.toList_append]
    rfl
  have hlength : ('/' :: (pattern.toList ++ ['/'])).length = pattern.toList.length + 2 := by
    rw [List.length_cons, List.length_append, List.length_singleton]
  have hpos : 0 < pattern.toList.length :=
    List.length_pos_iff.mpr (mt String.toList_eq_nil_iff.mp hfilled)
  have hstart : startsWith ['/'] ('/' :: (pattern.toList ++ ['/'])) = true :=
    startsWith_iff.mpr ⟨_, rfl⟩
  have hend : endsWith ['/'] ('/' :: (pattern.toList ++ ['/'])) = true :=
    endsWith_iff.mpr (List.suffix_append ('/' :: pattern.toList) ['/'])
  have hcased : ¬endsWith ['/', 'i'] ('/' :: (pattern.toList ++ ['/'])) = true := by
    intro h
    obtain ⟨front, hfront⟩ := endsWith_iff.mp h
    have hlast := congrArg List.getLast? hfront
    rw [← List.cons_append, List.getLast?_append, List.getLast?_append] at hlast
    exact absurd hlast (by simp)
  rw [delimited?, htext]
  show (if _ then _ else none : Option (String × Bool)) = _
  rw [hlength, hstart, if_pos (by simpa using hpos), if_neg hcased, if_pos hend,
    ofList_take_drop _ _ _ (Nat.add_sub_cancel _ 2)]

/-- A pattern between slashes with an `i` behind them is looked for in any letter case. -/
theorem delimited?_anyCase (pattern : String) :
    delimited? ("/" ++ pattern ++ "/i") = some (pattern, true) := by
  have htext : ("/" ++ pattern ++ "/i").toList = '/' :: (pattern.toList ++ ['/', 'i']) := by
    rw [String.toList_append, String.toList_append]
    rfl
  have hlength : ('/' :: (pattern.toList ++ ['/', 'i'])).length = pattern.toList.length + 3 := by
    rw [List.length_cons, List.length_append]
    rfl
  have hstart : startsWith ['/'] ('/' :: (pattern.toList ++ ['/', 'i'])) = true :=
    startsWith_iff.mpr ⟨_, rfl⟩
  have hend : endsWith ['/', 'i'] ('/' :: (pattern.toList ++ ['/', 'i'])) = true :=
    endsWith_iff.mpr (List.suffix_append ('/' :: pattern.toList) ['/', 'i'])
  rw [delimited?, htext]
  show (if _ then _ else none : Option (String × Bool)) = _
  rw [hlength, hstart, if_pos (by simp), if_pos hend,
    ofList_take_drop _ _ _ (Nat.add_sub_cancel _ 3)]

/-! ## Looking for a refused pattern -/

theorem findLiteral_isSome (hfilled : pattern ≠ "") (text : String) (anyCase : Bool) :
    (findLiteral pattern text anyCase).isSome =
      if anyCase then decide (lower pattern.toList <:+: lower text.toList)
      else decide (pattern.toList <:+: text.toList) := by
  have hdecide (needle within : List Char) : occursIn needle within = decide (needle <:+: within) :=
    Bool.eq_iff_iff.mpr (occursIn_iff.trans decide_eq_true_iff.symm)
  have hfound (found : Bool) : (if found = true then some pattern else none).isSome = found := by
    cases found <;> rfl
  rw [findLiteral, bne_iff_ne.mpr hfilled, Bool.true_and]
  cases anyCase with
  | true => exact (hfound _).trans (hdecide _ _)
  | false => exact (hfound _).trans (hdecide _ _)

theorem textMatches_of_refused {expected : String} {anyCase : Bool}
    (hrefused : RefusedUnread { ignoreCase := anyCase } pattern) (hfilled : pattern ≠ "")
    (hdelimited : delimited? expected = some (pattern, anyCase)) (text : String) :
    textMatches expected text =
      .ok (if anyCase then decide (lower pattern.toList <:+: lower text.toList)
        else decide (pattern.toList <:+: text.toList)) := by
  obtain ⟨refusal, -, hcompile⟩ := hrefused
  rw [textMatches_of_delimited hdelimited, searchOrLiteral, hcompile, ← findLiteral_isSome hfilled]
  rfl

/-- **The guard and what becomes of the patterns that it refuses.**  Too many groups in a row are
those that the guard's own pattern finds.  A pattern is refused unread just if it has more than 300
characters, or five opening parentheses and no closing one between the first and the fifth.  Between
slashes such a pattern matches just the texts in which it occurs. -/
theorem refused_literal (pattern : String) :
    (∃ pieces, read {} nestingPattern.toList = .ok pieces ∧
      ((search pieces pattern.toList).isSome = true ↔ OpensInRow 5 pattern.toList)) ∧
    (∀ flags, RefusedUnread flags pattern ↔
      300 < pattern.length ∨ OpensInRow 5 pattern.toList) ∧
    (300 < pattern.length ∨ OpensInRow 5 pattern.toList → ∀ text : String,
      textMatches ("/" ++ pattern ++ "/") text =
        .ok (decide (pattern.toList <:+: text.toList)) ∧
      textMatches ("/" ++ pattern ++ "/i") text =
        .ok (decide (lower pattern.toList <:+: lower text.toList))) := by
  refine ⟨⟨nesting, read_nestingPattern, search_nesting_iff _⟩, fun _ => refusedUnread_iff, ?_⟩
  intro h text
  have hrefused (flags : Flags) : RefusedUnread flags pattern := refusedUnread_iff.mpr h
  have hfilled : pattern ≠ "" := by
    rintro rfl
    exact not_refusedUnread_empty (hrefused {})
  exact ⟨textMatches_of_refused (hrefused _) hfilled (delimited?_exact hfilled) text,
    textMatches_of_refused (hrefused _) hfilled (delimited?_anyCase pattern) text⟩

theorem refused_literal_openings :
    OpensInRow 5 "(((((x".toList ∧
      textMatches "/(((((x/" "value (((((x here" = .ok true ∧
      textMatches "/(((((X/i" "value (((((x here" = .ok true := by
  have hexact : OpensInRow 5 "(((((x".toList := ⟨_, List.infix_rfl, by decide, by decide⟩
  have hcased : OpensInRow 5 "(((((X".toList := ⟨_, List.infix_rfl, by decide, by decide⟩
  refine ⟨hexact, ?_, ?_⟩
  · rw [show "/(((((x/" = "/" ++ "(((((x" ++ "/" by decide,
      ((refused_literal "(((((x").2.2 (Or.inr hexact) _).1]
    exact congrArg Except.ok (decide_eq_true ⟨"value ".toList, " here".toList, by decide⟩)
  · rw [show "/(((((X/i" = "/" ++ "(((((X" ++ "/i" by decide,
      ((refused_literal "(((((X").2.2 (Or.inr hcased) _).2]
    exact congrArg Except.ok (decide_eq_true ⟨"value ".toList, " here".toList, by decide +kernel⟩)

end Mooring.Pattern
