import Mooring.Proofs.Markup.Ranking
import Mooring.Proofs.Markup.Spans

/-!
# The nodes around a line

The nodes whose lines contain a line come in an order of their own: the latest start first, then the
fewest lines, then document order (`pairwise_findAtLine`).  It is meant to be innermost first.

An element inside another one stands behind it in the document (`Node.inside_iff`) and starts on no
earlier line (`Node.Inside.line_le`).  So the inner one comes first if it starts on a later line, or
ends on an earlier one.  If both start and end on the same lines, document order decides, and that
puts the outer one first; so does the length if the inner one ends later, since its end tag stands
behind the outer one's (`sublist_findAtLine_iff`).
-/

namespace Mooring.Markup

open Mooring.Text

/-! ## The order -/

/-- One node comes before another one around a line: it starts on a later line; or on the same one
and it ends earlier; or it has the same lines and comes earlier in the document. -/
def Node.Precedes (a b : Node) : Prop :=
  b.line < a.line ∨ a.line = b.line ∧
    (a.endLine < b.endLine ∨ a.endLine = b.endLine ∧ a.order < b.order)

namespace Index

variable {a b c : Node}

theorem innerFirst_iff : innerFirst a b = true ↔ b.line < a.line ∨ a.line = b.line ∧
    (a.endLine < b.endLine ∨ a.endLine = b.endLine ∧ a.order ≤ b.order) := by
  unfold innerFirst
  split_ifs with hline hlength <;> simp only [bne_iff_ne, decide_eq_true_eq] at * <;> omega

theorem innerFirst_trans (hab : innerFirst a b = true) (hbc : innerFirst b c = true) :
    innerFirst a c = true := by
  rw [innerFirst_iff] at *
  omega

theorem innerFirst_total (a b : Node) : (innerFirst a b || innerFirst b a) = true := by
  rw [Bool.or_eq_true, innerFirst_iff, innerFirst_iff]
  omega

theorem precedes_of_innerFirst (h : innerFirst a b = true) (horder : a.order ≠ b.order) :
    a.Precedes b := by
  rw [innerFirst_iff] at h
  unfold Node.Precedes
  omega

theorem covers_iff {node : Node} {line : Int} :
    Covers node line = true ↔ node.line ≤ line ∧ line ≤ node.endLine := by
  rw [Covers, Bool.and_eq_true, decide_eq_true_eq, decide_eq_true_eq]

variable {index : Index} {line : Int}

theorem mem_findAtLine {node : Node} :
    node ∈ index.findAtLine line ↔ node ∈ index.nodes ∧ Covers node line = true := by
  rw [findAtLine, List.mem_mergeSort, List.mem_filter]

/-- **Each node around a line comes before those that follow it**, if the nodes are numbered in
order. -/
theorem pairwise_findAtLine (horders : index.nodes.Pairwise fun a b => a.order < b.order)
    (line : Int) : (index.findAtLine line).Pairwise Node.Precedes := by
  have hsorted : (index.findAtLine line).Pairwise fun a b => innerFirst a b = true :=
    @List.pairwise_mergeSort _ innerFirst (fun _ _ _ => innerFirst_trans) innerFirst_total _
  have hperm : (index.findAtLine line).Perm (index.nodes.filter (Covers · line)) :=
    List.mergeSort_perm _ _
  have hdistinct : (index.findAtLine line).Pairwise fun a b => a.order ≠ b.order := by
    refine hperm.symm.pairwise ?_ fun h => h.symm
    exact (horders.filter _).imp Nat.ne_of_lt
  exact (hsorted.and hdistinct).imp fun h => precedes_of_innerFirst h.1 h.2

end Index

theorem Node.Precedes.asymm {a b : Node} (h : a.Precedes b) : ¬b.Precedes a := by
  unfold Node.Precedes at *
  omega

/-! ## Elements inside elements -/

/-- One node lies inside another one: the reader made its element a descendant of the other one's. -/
def Node.Inside (source : String) (inner outer : Node) : Prop :=
  ∃ d a, (spansOf source)[inner.order]? = some d ∧ (spansOf source)[outer.order]? = some a ∧
    d ∈ extentsOf (mask source.toList) a.children

/-- The extents of a source start one behind the other. -/
theorem pairwise_start_spansOf (source : String) :
    (spansOf source).Pairwise fun a b => a.start < b.start := by
  unfold spansOf
  split
  next trees htrees =>
    have hplaces := (sited_parseTrees htrees).1
    rw [← map_element_extentsOf (mask source.toList), List.pairwise_map] at hplaces
    refine hplaces.imp_of_mem fun ha hb hlt => ?_
    rwa [congrArg Extent.start (extent_eq ha), congrArg Extent.start (extent_eq hb)]
  next => exact .nil

section Inside

variable {source : String} {lineOffset : Int} {inner outer : Node}

/-- **The elements inside another one are those right behind it**, as many as it has descendants. -/
theorem Node.inside_iff {a : Extent} (ha : (spansOf source)[outer.order]? = some a) :
    inner.Inside source outer ↔ outer.order < inner.order ∧
      inner.order ≤ outer.order + (extentsOf (mask source.toList) a.children).length := by
  have hbehind : extentsOf (mask source.toList) a.children <+:
      (spansOf source).drop (outer.order + 1) := by
    obtain ⟨trees, -, hspans⟩ := extents_of_spansOf ha
    rw [hspans] at ha ⊢
    exact prefix_drop_extentsOf trees ha
  have hget : ∀ n, n < (extentsOf (mask source.toList) a.children).length →
      (extentsOf (mask source.toList) a.children)[n]? = (spansOf source)[outer.order + 1 + n]? := by
    intro n hn
    obtain ⟨later, hlater⟩ := hbehind
    rw [← List.getElem?_drop, ← hlater, List.getElem?_append_left hn]
  -- Starts ascend, so no element stands in two places.
  have hnodup : (spansOf source).Nodup :=
    (pairwise_start_spansOf source).imp fun hlt heq => absurd hlt (by rw [heq]; omega)
  refine ⟨fun ⟨d, a', hd, ha', hinside⟩ => ?_, fun ⟨hlt, hle⟩ => ?_⟩
  · obtain rfl := Option.some.inj (ha.symm.trans ha')
    obtain ⟨n, hn, hd'⟩ := List.mem_iff_getElem.mp hinside
    have hplace : (spansOf source)[outer.order + 1 + n]? = some d := by
      rw [← hget n hn, List.getElem?_eq_getElem hn, hd']
    have hsame :=
      (List.getElem?_inj (List.getElem?_eq_some_iff.mp hd).1 hnodup).mp (hd.trans hplace.symm)
    omega
  · obtain ⟨n, hn⟩ := Nat.exists_eq_add_of_le (Nat.succ_le_of_lt hlt)
    have hlength : n < (extentsOf (mask source.toList) a.children).length := by omega
    refine ⟨(extentsOf (mask source.toList) a.children)[n], a, ?_, ha, List.getElem_mem hlength⟩
    rw [hn, ← hget n hlength, List.getElem?_eq_getElem hlength]

/-- An element inside another one stands behind it in the list of all elements. -/
theorem Node.Inside.order_lt (h : inner.Inside source outer) : outer.order < inner.order := by
  have hinside := h
  obtain ⟨_, _, -, ha, -⟩ := h
  exact ((Node.inside_iff ha).mp hinside).1

theorem Node.Inside.ne (h : inner.Inside source outer) : inner ≠ outer := by
  rintro rfl
  exact absurd h.order_lt (Nat.lt_irrefl _)

/-- **An element inside another one starts on no earlier line.** -/
theorem Node.Inside.line_le (h : inner.Inside source outer)
    (hinner : inner ∈ (Index.ofSource source lineOffset).nodes)
    (houter : outer ∈ (Index.ofSource source lineOffset).nodes) : outer.line ≤ inner.line := by
  obtain ⟨d, hd, hdsound⟩ := exists_sound hinner
  obtain ⟨a, ha, hasound⟩ := exists_sound houter
  have hstart : a.start < d.start := by
    obtain ⟨hlt, hd⟩ := List.getElem?_eq_some_iff.mp hd
    obtain ⟨hlt', ha⟩ := List.getElem?_eq_some_iff.mp ha
    rw [← hd, ← ha]
    exact List.pairwise_iff_getElem.mp (pairwise_start_spansOf source) _ _ hlt' hlt h.order_lt
  have hfeeds : lineFeeds (source.toList.take a.start) ≤ lineFeeds (source.toList.take d.start) :=
    (List.take_sublist_take_left (Nat.le_of_lt hstart)).count_le _
  rw [hasound.stands.line, hdsound.stands.line]
  omega

/-- The nodes of a source are numbered in order. -/
theorem pairwise_order_ofSource (source : String) (lineOffset : Int) :
    (Index.ofSource source lineOffset).nodes.Pairwise fun a b => a.order < b.order := by
  rw [nodes_ofSource, List.pairwise_map]
  show (spansOf source).zipIdx.Pairwise fun p q => p.2 < q.2
  rw [← List.pairwise_map, List.zipIdx_map_snd]
  exact List.pairwise_lt_range'

/-- **Of two elements around a line, the inner one comes first if it starts later or ends earlier**;
otherwise the outer one does. -/
theorem sublist_findAtLine_iff (h : inner.Inside source outer) {line : Int}
    (hinner : inner ∈ (Index.ofSource source lineOffset).findAtLine line)
    (houter : outer ∈ (Index.ofSource source lineOffset).findAtLine line) :
    ([inner, outer].Sublist ((Index.ofSource source lineOffset).findAtLine line) ↔
      outer.line < inner.line ∨ inner.endLine < outer.endLine) ∧
    ([outer, inner].Sublist ((Index.ofSource source lineOffset).findAtLine line) ↔
      outer.line = inner.line ∧ outer.endLine ≤ inner.endLine) := by
  have hsorted := Index.pairwise_findAtLine (pairwise_order_ofSource source lineOffset) line
  have hline := h.line_le (Index.mem_findAtLine.mp hinner).1 (Index.mem_findAtLine.mp houter).1
  have horder := h.order_lt
  have hfirst : ∀ {a b : Node}, a ∈ (Index.ofSource source lineOffset).findAtLine line →
      b ∈ (Index.ofSource source lineOffset).findAtLine line → a ≠ b →
      ([a, b].Sublist ((Index.ofSource source lineOffset).findAtLine line) ↔ a.Precedes b) := by
    intro a b ha hb hne
    refine ⟨fun hsub => ?_, fun hprecedes => ?_⟩
    · exact List.pairwise_pair.mp (hsorted.sublist hsub)
    · exact pair_sublist_of_pairwise hsorted ha hb hne hprecedes.asymm
  rw [hfirst hinner houter h.ne, hfirst houter hinner h.ne.symm]
  unfold Node.Precedes
  omega

end Inside

end Mooring.Markup
