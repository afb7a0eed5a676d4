import Mathlib.Order.Lattice

/-!
# Sorting by a key

A stable sort by a key puts the items in the order of their keys (`pairwise_mergeSort_key`) and
leaves items with the same key as they were (`filter_mergeSort`).  So the first item of the sorted
list is the first one of the list that has the least key (`head?_mergeSort_eq_some_iff`).
-/

namespace Mooring

variable {α β : Type} [LinearOrder β] (key : α → β) {before : α → α → Bool}
variable (hbefore : ∀ a b, before a b = true ↔ key a ≤ key b) {l l' : List α} {a b : α}

include hbefore

theorem before_trans (a b c : α) (hab : before a b = true) (hbc : before b c = true) :
    before a c = true := by
  rw [hbefore] at *
  exact le_trans hab hbc

theorem before_total (a b : α) : (before a b || before b a) = true := by
  rw [Bool.or_eq_true, hbefore, hbefore]
  exact le_total (key a) (key b)

theorem pairwise_mergeSort_key (l : List α) :
    (l.mergeSort before).Pairwise fun a b => key a ≤ key b := by
  have hsorted : (l.mergeSort before).Pairwise fun a b => before a b = true := by
    apply List.pairwise_mergeSort
    · exact before_trans key hbefore
    · exact before_total key hbefore
  exact hsorted.imp fun {a b} h => (hbefore a b).mp h

/-- **Items that all have one key keep their order.** -/
theorem filter_mergeSort {p : α → Bool}
    (h : ∀ a ∈ l, ∀ b ∈ l, p a = true → p b = true → key a = key b) :
    (l.mergeSort before).filter p = l.filter p := by
  have htied : (l.filter p).Pairwise fun a b => before a b = true := by
    rw [List.pairwise_iff_forall_sublist]
    intro a b hab
    have ha := hab.subset List.mem_cons_self
    have hb := hab.subset (List.mem_cons_of_mem _ List.mem_cons_self)
    obtain ⟨hal, hpa⟩ := List.mem_filter.mp ha
    obtain ⟨hbl, hpb⟩ := List.mem_filter.mp hb
    exact (hbefore a b).mpr (le_of_eq (h a hal b hbl hpa hpb))
  have hwithin : (l.filter p).Sublist (l.mergeSort before) := by
    apply List.sublist_mergeSort _ _ htied List.filter_sublist
    · exact before_trans key hbefore
    · exact before_total key hbefore
  have hkept : (l.filter p).Sublist ((l.mergeSort before).filter p) := by
    have hfiltered := hwithin.filter p
    simpa only [List.filter_filter, Bool.and_self] using hfiltered
  exact (hkept.eq_of_length ((List.mergeSort_perm l _).filter p).length_eq.symm).symm

omit hbefore

/-! ## The first of the least -/

/-- An item of a list has a smaller key than all items in front of it, and no larger one than any
behind it. -/
def FirstMin (l : List α) (a : α) : Prop :=
  ∃ front back, l = front ++ a :: back ∧ (∀ b ∈ front, key a < key b) ∧ ∀ b ∈ back, key a ≤ key b

variable {key}

theorem FirstMin.le (h : FirstMin key l a) (hb : b ∈ l) : key a ≤ key b := by
  obtain ⟨front, back, rfl, hfront, hback⟩ := h
  rcases List.mem_append.mp hb with hmem | hmem
  · exact le_of_lt (hfront b hmem)
  · rcases List.mem_cons.mp hmem with rfl | hmem
    · exact le_refl _
    · exact hback b hmem

/-- The first of the least is the first with its key. -/
theorem FirstMin.head?_filter (h : FirstMin key l a) :
    (l.filter fun b => decide (key b = key a)).head? = some a := by
  obtain ⟨front, back, rfl, hfront, -⟩ := h
  have hnone : front.filter (fun b => decide (key b = key a)) = [] :=
    List.filter_eq_nil_iff.mpr fun b hb => by simpa using (ne_of_gt (hfront b hb))
  rw [List.filter_append, hnone, List.nil_append, List.filter_cons_of_pos (by simp)]
  rfl

theorem FirstMin.unique (ha : FirstMin key l a) (hb : FirstMin key l b) : a = b := by
  have hmem {c : α} (h : FirstMin key l c) : c ∈ l := by
    obtain ⟨front, back, rfl, -⟩ := h
    simp
  have hsame := le_antisymm (ha.le (hmem hb)) (hb.le (hmem ha))
  have hhead := ha.head?_filter
  rw [hsame, hb.head?_filter] at hhead
  exact (Option.some.inj hhead).symm

/-- **In two lists one after the other** the first of the least is that of the first list, unless
that of the second has a smaller key. -/
theorem FirstMin.append (ha : FirstMin key l a) (hb : FirstMin key l' b) :
    FirstMin key (l ++ l') (if key b < key a then b else a) := by
  split
  next hless =>
    obtain ⟨front, back, rfl, hfront, hback⟩ := hb
    refine ⟨l ++ front, back, (List.append_assoc ..).symm, ?_, hback⟩
    intro c hc
    rcases List.mem_append.mp hc with hmem | hmem
    · exact lt_of_lt_of_le hless (ha.le hmem)
    · exact hfront c hmem
  next hnot =>
    obtain ⟨front, back, rfl, hfront, hback⟩ := ha
    refine ⟨front, back ++ l', by rw [List.append_assoc, List.cons_append], hfront, ?_⟩
    intro c hc
    rcases List.mem_append.mp hc with hmem | hmem
    · exact hback c hmem
    · exact le_trans (not_lt.mp hnot) (hb.le hmem)

include hbefore in
/-- **The head of the sorted list is the first of the least.** -/
theorem head?_mergeSort_eq_some_iff :
    (l.mergeSort before).head? = some a ↔ FirstMin key l a := by
  have hhead {a : α} (h : (l.mergeSort before).head? = some a) : FirstMin key l a := by
    obtain ⟨rest, hsorted⟩ := List.head?_eq_some_iff.mp h
    obtain ⟨p, hp⟩ : ∃ p : α → Bool, ∀ b, p b = true ↔ key b = key a :=
      ⟨fun b => decide (key b = key a), fun b => decide_eq_true_iff⟩
    have hpairwise := pairwise_mergeSort_key key hbefore l
    have hperm := List.mergeSort_perm l before
    have hkept : (l.mergeSort before).filter p = l.filter p :=
      filter_mergeSort key hbefore fun b _ c _ hb hc => ((hp b).mp hb).trans ((hp c).mp hc).symm
    rw [hsorted] at hpairwise hperm hkept
    have hleast : ∀ b ∈ l, key a ≤ key b := by
      intro b hb
      rcases List.mem_cons.mp (hperm.mem_iff.mpr hb) with rfl | hmem
      · exact le_refl _
      · exact List.rel_of_pairwise_cons hpairwise hmem
    -- The items with the key of the head come in the order of the list, so the head is the first.
    rw [List.filter_cons_of_pos ((hp a).mpr rfl)] at hkept
    obtain ⟨front, back, rfl, hfront, -, -⟩ := List.filter_eq_cons_iff.mp hkept.symm
    refine ⟨front, back, rfl, fun b hb => ?_, fun b hb => hleast b (by simp [hb])⟩
    refine lt_of_le_of_ne (hleast b (List.mem_append_left _ hb)) fun heq => ?_
    exact hfront b hb ((hp b).mpr heq.symm)
  refine ⟨hhead, fun h => ?_⟩
  cases hsorted : (l.mergeSort before).head? with
  | none =>
    obtain ⟨front, back, rfl, -⟩ := h
    have hlength := (List.mergeSort_perm (front ++ a :: back) before).length_eq
    rw [List.head?_eq_none_iff.mp hsorted, List.length_append] at hlength
    exact absurd hlength (by simp)
  | some b => rw [(hhead hsorted).unique h]

end Mooring
