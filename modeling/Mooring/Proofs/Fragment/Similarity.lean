import Mooring.Fragment.Similarity
import Mooring.Proofs.Decimal.BelowOne

/-!
# A similarity lies between zero and one

The score of an overlap blends two shares: of the positions at which two texts agree, and of the
words that they have in common, and rounds the blend to six places (`Overlap.exists_score_eq`).  A
similarity is such a score, or zero, or one; so rounding it once more changes nothing
(`round_similarity`).

Different texts disagree at some position (`agreement_lt`), and six places show that in texts of
fewer than 400000 characters: then a similarity of one means the same canonical form
(`similarity_eq_one_iff`).
-/

namespace Mooring.Fragment

open Mooring.Decimal

theorem agreement_le : ∀ first second : List Char,
    agreement first second ≤ max first.length second.length := by
  intro first
  induction first with
  | nil => intro second; exact Nat.zero_le _
  | cons a as ih =>
    intro second
    cases second with
    | nil => exact Nat.zero_le _
    | cons b bs =>
      have hrest := ih bs
      rw [agreement, List.length_cons, List.length_cons]
      split <;> omega

/-- Different texts do not agree at every position of the longer one. -/
theorem agreement_lt : ∀ first second : List Char, first ≠ second →
    agreement first second < max first.length second.length := by
  intro first
  induction first with
  | nil =>
    intro second hne
    rw [List.length_nil, Nat.zero_max]
    exact List.length_pos_iff.mpr hne.symm
  | cons a as ih =>
    intro second hne
    cases second with
    | nil => exact Nat.succ_pos _
    | cons b bs =>
      rw [agreement, List.length_cons, List.length_cons, Nat.succ_max_succ]
      by_cases hhead : a = b
      · subst hhead
        have hrest := ih bs fun hsame => hne (by rw [hsame])
        rw [if_pos (beq_self_eq_true a)]
        exact Nat.succ_lt_succ hrest
      · rw [if_neg (by simpa using hhead)]
        exact Nat.lt_succ_of_le (agreement_le as bs)

theorem sharedCount_le : ∀ first second : List (List Char),
    sharedCount first second ≤ first.length := by
  intro first
  induction first with
  | nil => intro second; exact Nat.le_refl 0
  | cons t rest ih =>
    intro second
    rw [sharedCount, List.length_cons]
    split
    · exact Nat.succ_le_succ (ih _)
    · exact Nat.le_succ_of_le (ih _)

/-- Of the positions and of the words there are at least as many as were counted. -/
theorem Overlap.of_le (first second : List Char) :
    (Overlap.of first second).agreeing ≤ (Overlap.of first second).positions ∧
      (Overlap.of first second).shared ≤ (Overlap.of first second).words :=
  ⟨agreement_le first second, Nat.le_trans (sharedCount_le _ _) (Nat.le_max_left _ _)⟩

/-- A score is a share that was rounded to six places. -/
theorem Overlap.exists_score_eq {o : Overlap} (hagreeing : o.agreeing ≤ o.positions)
    (hshared : o.shared ≤ o.words) : ∃ x, IsShare x ∧ o.score = Scalar.round 6 x := by
  have hwords : IsShare (if o.words = 0 then Scalar.zero else Scalar.ratio o.shared o.words) := by
    split
    · exact isShare_zero
    · exact isShare_ratio hshared
  exact ⟨_, (isShare_ratio hagreeing).blend hwords, rfl⟩

/-- **A similarity is a share**, whatever the fragments are. -/
theorem isShare_similarity (first second : String) : IsShare (similarity first second) := by
  unfold similarity
  dsimp only
  split
  · exact isShare_one
  · split
    · exact isShare_zero
    · obtain ⟨x, hx, hscore⟩ := Overlap.exists_score_eq (Overlap.of_le _ _).1 (Overlap.of_le _ _).2
      rw [hscore]
      exact hx.round 6

/-- **A similarity has six places.** -/
theorem round_similarity (first second : String) :
    Scalar.round 6 (similarity first second : Float) = similarity first second := by
  unfold similarity
  dsimp only
  split
  · exact round_one
  · split
    · exact round_zero
    · obtain ⟨x, hx, hscore⟩ := Overlap.exists_score_eq (Overlap.of_le _ _).1 (Overlap.of_le _ _).2
      rw [hscore, hx.round_round (by decide)]

/-- **A similarity of one means the same canonical form**, with fewer than 400000 characters. -/
theorem similarity_eq_one_iff {first second : String} (hfirst : (canonical first).length < 400000)
    (hsecond : (canonical second).length < 400000) :
    (similarity first second : Float) = 1 ↔ canonical first = canonical second := by
  have hone : (Scalar.one : Float) = 1 := by decide
  unfold similarity
  dsimp only
  split
  next hsame => exact iff_of_true hone (String.toList_inj.mp hsame)
  next hother =>
    refine iff_of_false ?_ (mt String.toList_inj.mpr hother)
    split
    · decide
    · -- The overlap misses a position, and that shows in the score.
      refine round_blend_ne_one (agreement_lt _ _ hother) ?_ ?_
      · exact Nat.max_lt.mpr ⟨by rwa [String.length_toList], by rwa [String.length_toList]⟩
      · split
        · exact isShare_zero
        · exact isShare_ratio (Overlap.of_le _ _).2

end Mooring.Fragment
