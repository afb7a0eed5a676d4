import Mathlib.Order.OrderDual
import Mooring.Anchor.Matching
import Mooring.Proofs.Decimal.Whole
import Mooring.Proofs.Sorting

/-!
# The best anchor for a selector

All anchors are scored and sorted by their points, the most first.  The sort is stable, so the head
of the ranking is the first anchor that has the most points (`head?_ranking`): it has more than all
in front of it and no fewer than any behind it (`Leads`).  Ties are common, since the points are
sums of a few fixed numbers, and it is the order of the anchors that decides them.

A required minimum is a double and the points are whole numbers.  Whatever double it is, all scores
are below it if the best one is (`Scored.score_lt`), so there is no best anchor just if no anchor has
the minimum.

What leads a list of two parts leads one of them (`Leads.append`), hence the law for two lists in
`best?_leads`.
-/

namespace Mooring.Anchor

open Mooring.Decimal

variable {scores more : List Scored} {a b : Scored}

/-- The points as a number that a minimum is compared with. -/
def Scored.score (s : Scored) : Float :=
  Scalar.ratio s.points 1

/-- A score has more points than all scores in front of it, and no fewer than any behind it. -/
def Leads (scores : List Scored) (best : Scored) : Prop :=
  ∃ front back, scores = front ++ best :: back ∧ (∀ other ∈ front, other.points < best.points) ∧
    ∀ other ∈ back, other.points ≤ best.points

/-- To lead is to come first of the least, counted downwards. -/
theorem leads_iff : Leads scores a ↔ FirstMin (fun s => OrderDual.toDual s.points) scores a :=
  Iff.rfl

theorem Leads.le (h : Leads scores a) (hb : b ∈ scores) : b.points ≤ a.points := by
  have hkey := (leads_iff.mp h).le hb
  exact hkey

theorem Leads.mem (h : Leads scores a) : a ∈ scores := by
  obtain ⟨front, back, rfl, -⟩ := h
  simp

/-- **What leads two lists together** is what leads the first, unless the second is led with more
points. -/
theorem Leads.append (ha : Leads scores a) (hb : Leads more b) :
    Leads (scores ++ more) (if a.points < b.points then b else a) :=
  FirstMin.append (leads_iff.mp ha) (leads_iff.mp hb)

/-- If the score with the most points is below a minimum, all are. -/
theorem Scored.score_lt {minimum : Float} (hle : b.points ≤ a.points) (h : a.score < minimum) :
    b.score < minimum :=
  ratio_lt_of_le hle h

variable (anchors : List Anchor) (selector : String) (now : Moment)

/-! ## The ranking -/

theorem fewer_iff (a b : Scored) : decide (b.points ≤ a.points) = true ↔
    OrderDual.toDual a.points ≤ OrderDual.toDual b.points :=
  decide_eq_true_iff

theorem perm_ranking : (ranking anchors selector now).Perm (anchors.map (scored selector now)) :=
  List.mergeSort_perm _ _

theorem pairwise_ranking :
    (ranking anchors selector now).Pairwise fun a b => b.points ≤ a.points :=
  pairwise_mergeSort_key (fun s : Scored => OrderDual.toDual s.points) fewer_iff _

/-- **Scores with the same points keep their order.** -/
theorem filter_ranking (points : Nat) :
    (ranking anchors selector now).filter (·.points = points) =
      (anchors.map (scored selector now)).filter (·.points = points) := by
  apply filter_mergeSort (fun s : Scored => OrderDual.toDual s.points) fewer_iff
  intro a _ b _ ha hb
  rw [of_decide_eq_true ha, of_decide_eq_true hb]

/-- **The head of the ranking is the first anchor with the most points.** -/
theorem head?_ranking : (ranking anchors selector now).head? = some a ↔
    Leads (anchors.map (scored selector now)) a :=
  head?_mergeSort_eq_some_iff fewer_iff

theorem exists_leads (h : anchors ≠ []) : ∃ a, Leads (anchors.map (scored selector now)) a := by
  cases hhead : (ranking anchors selector now).head? with
  | none =>
    have hlength := (perm_ranking anchors selector now).length_eq
    rw [List.head?_eq_none_iff.mp hhead, List.length_map] at hlength
    exact absurd (List.length_eq_zero_iff.mp hlength.symm) h
  | some a => exact ⟨a, (head?_ranking anchors selector now).mp hhead⟩

/-! ## The best anchor -/

variable {anchors selector now} {minimum : Float}

theorem best?_eq_some_iff : best? anchors selector now minimum = some a ↔
    Leads (anchors.map (scored selector now)) a ∧ ¬a.score < minimum := by
  have hless : (!Scalar.less (Scalar.ratio a.points 1) minimum) = true ↔ ¬a.score < minimum := by
    rw [Bool.not_eq_true']
    exact decide_eq_false_iff_not
  rw [best?, Option.filter_eq_some_iff, head?_ranking, hless]

theorem best?_eq_none_iff : best? anchors selector now minimum = none ↔
    ∀ s ∈ anchors.map (scored selector now), s.score < minimum := by
  constructor
  · intro hnone s hs
    have hne : anchors ≠ [] := by
      rintro rfl
      exact absurd hs List.not_mem_nil
    obtain ⟨a, ha⟩ := exists_leads anchors selector now hne
    by_contra hnot
    have hbest : ¬a.score < minimum := mt (Scored.score_lt (ha.le hs)) hnot
    rw [best?_eq_some_iff.mpr ⟨ha, hbest⟩] at hnone
    exact absurd hnone (by simp)
  · intro hbelow
    refine Option.eq_none_iff_forall_ne_some.mpr fun a hsome => ?_
    obtain ⟨ha, hnot⟩ := best?_eq_some_iff.mp hsome
    exact hnot (hbelow a ha.mem)

/-- Nothing is below zero, so zero is as good as no minimum. -/
theorem best?_zero : best? anchors selector now (0 : Float) = some a ↔
    Leads (anchors.map (scored selector now)) a := by
  rw [best?_eq_some_iff, and_iff_left]
  exact not_ratio_lt_zero a.points

/-- **The best anchor is the first one with the most points.**  For any anchors, the ranking holds
each score once; the points do not increase along it, and scores with the same points stand as the
anchors do.  Whatever the minimum is, there is no best anchor just if every score is below it (so if
there are no anchors), and else the best one leads the scores.  Without a minimum, the best anchor
of two lists one after the other is that of the first list, unless that of the second has more
points. -/
theorem best?_leads (anchors : List Anchor) (selector : String) (now : Moment) :
    let scores := anchors.map (scored selector now)
    (ranking anchors selector now).Perm scores ∧
    (ranking anchors selector now).Pairwise (fun a b => b.points ≤ a.points) ∧
    (∀ points, (ranking anchors selector now).filter (·.points = points) =
      scores.filter (·.points = points)) ∧
    (∀ minimum : Float,
      (best? anchors selector now minimum = none ↔ ∀ s ∈ scores, s.score < minimum) ∧
      ∀ best, best? anchors selector now minimum = some best ↔
        Leads scores best ∧ ¬best.score < minimum) ∧
    ∀ more : List Anchor, anchors ≠ [] → more ≠ [] →
      ∃ best other,
        best? anchors selector now (0 : Float) = some best ∧
        best? more selector now (0 : Float) = some other ∧
        best? (anchors ++ more) selector now (0 : Float) =
          some (if best.points < other.points then other else best) := by
  refine ⟨perm_ranking _ _ _, pairwise_ranking _ _ _, filter_ranking _ _ _,
    fun minimum => ⟨best?_eq_none_iff, fun best => best?_eq_some_iff⟩, fun more hne hne' => ?_⟩
  obtain ⟨best, hbest⟩ := exists_leads anchors selector now hne
  obtain ⟨other, hother⟩ := exists_leads more selector now hne'
  refine ⟨best, other, best?_zero.mpr hbest, best?_zero.mpr hother, best?_zero.mpr ?_⟩
  rw [List.map_append]
  exact hbest.append hother

/-- An anchor for a selector, not touched for a long time. -/
def dustyAnchor (id selector : String) : Anchor :=
  { id, selector, updatedAt := "2001-01-01T00:00:00Z" }

/-- Two anchors have part of the selector and so the same points; a third has all of it.  The first
of the two is the best of them, and the third the best of all. -/
theorem best?_leads_tie :
    let now : Moment := { date := ⟨2026, 6, 1⟩, offset := some 0 }
    let anchors := [dustyAnchor "a" "#pay", dustyAnchor "b" "form"]
    let more := [dustyAnchor "c" "form #pay"]
    anchors ≠ [] ∧ more ≠ [] ∧
      best? (anchors ++ more) "form #pay" now (0 : Float) =
        some (scored "form #pay" now (dustyAnchor "c" "form #pay")) ∧
      best? anchors "form #pay" now (0 : Float) =
        some (scored "form #pay" now (dustyAnchor "a" "#pay")) := by
  intro now anchors more
  have hne : anchors ≠ [] := List.cons_ne_nil _ _
  have hne' : more ≠ [] := List.cons_ne_nil _ _
  obtain ⟨-, -, -, hbest, hlists⟩ := best?_leads anchors "form #pay" now
  have hfirst : best? anchors "form #pay" now (0 : Float) =
      some (scored "form #pay" now (dustyAnchor "a" "#pay")) := by
    refine ((hbest 0).2 _).mpr ⟨⟨[], _, rfl, fun _ h => absurd h List.not_mem_nil, ?_⟩, ?_⟩
    · intro other hother
      rw [List.mem_singleton.mp hother]
      decide
    · exact not_ratio_lt_zero _
  have hmore : best? more "form #pay" now (0 : Float) =
      some (scored "form #pay" now (dustyAnchor "c" "form #pay")) := by
    obtain ⟨-, -, -, hbest, -⟩ := best?_leads more "form #pay" now
    refine ((hbest 0).2 _).mpr ⟨⟨[], [], rfl, fun _ h => absurd h List.not_mem_nil,
      fun _ h => absurd h List.not_mem_nil⟩, ?_⟩
    exact not_ratio_lt_zero _
  obtain ⟨best, other, hsome, hsome', hall⟩ := hlists more hne hne'
  obtain rfl := Option.some.inj (hfirst.symm.trans hsome)
  obtain rfl := Option.some.inj (hmore.symm.trans hsome')
  refine ⟨hne, hne', ?_, hfirst⟩
  rw [hall, if_pos (by decide)]

end Mooring.Anchor
