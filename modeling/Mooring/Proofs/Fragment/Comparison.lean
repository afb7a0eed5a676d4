import Mooring.Proofs.Decimal.Exact
import Mooring.Proofs.Fragment.Canonical
import Mooring.Proofs.Fragment.Similarity

/-!
# Comparing two fragments

A similarity does not depend on which fragment is named first, for the two counts behind it do not:
agreeing positions are counted in both texts at once, and the words in common are the intersection
of two multisets, although the words of one text are looked up in those of the other
(`sharedCount_eq_card`).

Nothing but the canonical forms enters, and those are their own canonical forms.  In exact
arithmetic the score is what its description says (`similarity_eq_ite`), and the description also
covers an empty form, of which nothing agrees with anything.
-/

namespace Mooring.Fragment

open Mooring.Decimal

/-! ## Counts -/

/-- Agreeing positions are pairs of equal characters. -/
theorem agreement_eq_countP : ∀ first second : List Char,
    agreement first second = (first.zip second).countP fun pair => pair.1 == pair.2 := by
  intro first
  induction first with
  | nil => intro second; rfl
  | cons a as ih =>
    intro second
    cases second with
    | nil => rfl
    | cons b bs => rw [agreement, ih, List.zip_cons_cons, List.countP_cons]

theorem agreement_comm (first second : List Char) :
    agreement first second = agreement second first := by
  rw [agreement_eq_countP, agreement_eq_countP, ← List.zip_swap, List.countP_map]
  refine List.countP_congr fun pair _ => ?_
  rw [Function.comp_apply, Prod.fst_swap, Prod.snd_swap, beq_iff_eq, beq_iff_eq]
  exact eq_comm

/-- **The words in common are the intersection of the words, repetitions counted.** -/
theorem sharedCount_eq_card : ∀ first second : List (List Char),
    sharedCount first second = ((first : Multiset (List Char)) ∩ second).card := by
  intro first
  induction first with
  | nil => intro second; rw [Multiset.coe_nil, Multiset.zero_inter]; rfl
  | cons word rest ih =>
    intro second
    rw [sharedCount, ← Multiset.cons_coe]
    by_cases hmem : word ∈ second
    · rw [if_pos (List.contains_iff_mem.mpr hmem), ih,
        Multiset.cons_inter_of_pos _ (Multiset.mem_coe.mpr hmem), Multiset.card_cons,
        Multiset.coe_erase, lawful_beq_subsingleton List.instBEq instBEqOfDecidableEq]
    · rw [if_neg (by simpa using hmem), ih,
        Multiset.cons_inter_of_neg _ (by simpa using hmem)]

theorem sharedCount_comm (first second : List (List Char)) :
    sharedCount first second = sharedCount second first := by
  rw [sharedCount_eq_card, sharedCount_eq_card, Multiset.inter_comm]

theorem Overlap.of_comm (first second : List Char) :
    Overlap.of first second = Overlap.of second first := by
  simp only [Overlap.of, agreement_comm first, sharedCount_comm (tokens first), max_comm]

/-! ## Similarities in any number system -/

variable {α : Type} [Scalar α]

theorem similarity_comm (first second : String) :
    (similarity first second : α) = similarity second first := by
  unfold similarity
  dsimp only
  simp only [Overlap.of_comm (canonical first).toList, Bool.or_comm, eq_comm]

theorem canonical_canonical (fragment : String) :
    canonical (canonical fragment) = canonical fragment := by
  rw [canonical_eq fragment, canonical_eq, String.toList_ofList,
    canonicalText_of_settled (settled_canonicalText _)]

/-- **Only canonical forms are compared.** -/
theorem similarity_canonical (first second : String) :
    (similarity (canonical first) (canonical second) : α) = similarity first second := by
  unfold similarity
  rw [canonical_canonical, canonical_canonical]

theorem similarity_of_eq {first second : String} (h : canonical first = canonical second) :
    (similarity first second : α) = Scalar.one := by
  unfold similarity
  rw [h]
  exact if_pos rfl

/-! ## The score in exact arithmetic -/

/-- What the score of two texts is meant to be, to six places: a fifth of the share of positions that
agree, and four fifths of the share of words in common.  A share of nothing is zero. -/
def exactScore (first second : List Char) : Rat :=
  let agreeing := (first.zip second).countP fun pair => pair.1 == pair.2
  let shared := ((tokens first : Multiset (List Char)) ∩ tokens second).card
  Scalar.round 6 (agreeing / (max first.length second.length : Nat) * (1 / 5) +
    shared / (max (tokens first).length (tokens second).length : Nat) * (4 / 5))

theorem score_eq_exactScore (first second : List Char) :
    (Overlap.of first second).score = exactScore first second := by
  have hfifth : (Scalar.hundredths 20 : Rat) = 1 / 5 := by
    rw [hundredths_eq_div]
    norm_num
  have hfourFifths : (Scalar.hundredths 80 : Rat) = 4 / 5 := by
    rw [hundredths_eq_div]
    norm_num
  have hwords : (if (Overlap.of first second).words = 0 then (Scalar.zero : Rat)
      else Scalar.ratio (Overlap.of first second).shared (Overlap.of first second).words) =
      (Overlap.of first second).shared / (Overlap.of first second).words := by
    split
    next hnone => rw [hnone, zero_eq, Nat.cast_zero, div_zero]
    next => exact ratio_eq_div _ _
  rw [Overlap.score, hwords, ratio_eq_div, hfifth, hfourFifths, exactScore,
    ← agreement_eq_countP, ← sharedCount_eq_card]
  rfl

/-- **The score of two texts lies between zero and one.** -/
theorem exactScore_bounds (first second : List Char) :
    0 ≤ exactScore first second ∧ exactScore first second ≤ 1 := by
  have hshare {part whole : Nat} (h : part ≤ whole) : (part / whole : Rat) ≤ 1 :=
    div_le_one_of_le₀ (by exact_mod_cast h) (by positivity)
  obtain ⟨hagreeing, hshared⟩ := Overlap.of_le first second
  rw [exactScore, ← agreement_eq_countP, ← sharedCount_eq_card]
  refine round_bounds _ 6 (by positivity) ?_
  calc _ ≤ (1 * (1 / 5) + 1 * (4 / 5) : Rat) :=
        add_le_add (mul_le_mul_of_nonneg_right (hshare hagreeing) (by norm_num))
          (mul_le_mul_of_nonneg_right (hshare hshared) (by norm_num))
    _ = 1 := by norm_num

/-- An empty text has nothing in common with any other. -/
theorem exactScore_of_empty {first second : List Char} (h : first = [] ∨ second = []) :
    exactScore first second = 0 := by
  have htokens : tokens [] = [] := by decide
  have hagreeing : first.zip second = [] := by
    rcases h with rfl | rfl
    · exact List.zip_nil_left
    · exact List.zip_nil_right
  have hshared : (tokens first : Multiset (List Char)) ∩ tokens second = 0 := by
    rcases h with rfl | rfl
    · rw [htokens, Multiset.coe_nil, Multiset.zero_inter]
    · rw [htokens, Multiset.coe_nil, Multiset.inter_zero]
  have hzero : Scalar.round 6 (0 : Rat) = 0 := by simpa using round_eq_self 6 0
  rw [exactScore, hagreeing, hshared, List.countP_nil, Multiset.card_zero]
  simp only [Nat.cast_zero, zero_div, zero_mul, add_zero, hzero]

/-- **A similarity is one, or the score of the canonical forms.** -/
theorem similarity_eq_ite (first second : String) : (similarity first second : Rat) =
    if canonical first = canonical second then 1
    else exactScore (canonical first).toList (canonical second).toList := by
  split
  next hsame => rw [similarity_of_eq hsame, one_eq]
  next hother =>
    unfold similarity
    dsimp only
    rw [if_neg (mt String.toList_inj.mp hother)]
    split
    next hempty =>
      rw [zero_eq, exactScore_of_empty (by simpa using hempty)]
    next => exact score_eq_exactScore _ _

/-- A similarity in exact arithmetic has six places. -/
theorem round_similarity_exact (first second : String) :
    Scalar.round 6 (similarity first second : Rat) = similarity first second := by
  unfold similarity
  dsimp only
  split
  · exact round_one_exact 6
  · split
    · exact round_zero_exact 6
    · exact round_round _ 6

/-- **A similarity is a symmetric score of canonical forms.**  It does not depend on the order of the
two fragments, lies between zero and one, and is that of the canonical forms: one if they are the
same, and else what `exactScore` says. -/
theorem similarity_symmetric_score (first second : String) :
    (similarity first second : Rat) = similarity second first ∧
      0 ≤ (similarity first second : Rat) ∧ (similarity first second : Rat) ≤ 1 ∧
      (similarity first second : Rat) = similarity (canonical first) (canonical second) ∧
      (similarity first second : Rat) =
        if canonical first = canonical second then 1
        else exactScore (canonical first).toList (canonical second).toList := by
  have hvalue := similarity_eq_ite first second
  refine ⟨similarity_comm _ _, ?_, ?_, (similarity_canonical _ _).symm, hvalue⟩
  · rw [hvalue]
    split
    · norm_num
    · exact (exactScore_bounds _ _).1
  · rw [hvalue]
    split
    · exact le_refl 1
    · exact (exactScore_bounds _ _).2

end Mooring.Fragment
