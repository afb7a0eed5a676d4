import Mooring.Proofs.Anchor.Captured
import Mooring.Proofs.Markup.AtLine
import Mooring.Proofs.Pattern.Expected

/-!
# Which element a place means

A place names a line, and perhaps a selector.

Without a selector the element is looked for around the line if none starts on it.  The list of the
elements there is meant to begin with the innermost one.  It begins with the one that starts last
and has the fewest lines; elements with the same lines come in document order, and there an element
stands before those inside it.  So the captured element may have a descendant around the line, but
only one that starts on the same line and ends on no earlier one (`capture_around`).

With a selector the matching elements are looked for from the line downwards: the one that starts
first at the line or below it is taken, however far away it is, and however many matching elements
lie around the line (`capture_nearest`).  Those are taken only if no matching element starts at the
line or below it.
-/

namespace Mooring.Anchor

open Mooring.Fragment Mooring.Markup Mooring.Record Mooring.Text

/-! ## The first of the least -/

/-- A node is the first of those with the least value. -/
structure FirstLeast (value : Node → Int) (nodes : List Node) (best : Node) : Prop where
  mem : best ∈ nodes
  least : ∀ other ∈ nodes,
    value best < value other ∨ value best = value other ∧ best.order ≤ other.order

/-- **Of nodes in order, the first one with the least value is found.** -/
theorem exists_firstLeast (value : Node → Int) : ∀ {nodes : List Node}, nodes ≠ [] →
    (nodes.Pairwise fun a b => a.order < b.order) →
    ∃ best, firstLeast? value nodes = some best ∧ FirstLeast value nodes best := by
  intro nodes
  induction nodes with
  | nil => intro hne; exact absurd rfl hne
  | cons node rest ih =>
    intro _ horders
    obtain ⟨hnode, hrest⟩ := List.pairwise_cons.mp horders
    by_cases hempty : rest = []
    · subst hempty
      refine ⟨node, rfl, List.mem_cons_self, ?_⟩
      intro other hother
      rw [List.mem_singleton.mp hother]
      exact Or.inr ⟨rfl, Nat.le_refl _⟩
    · obtain ⟨best, hbest, hleast⟩ := ih hempty hrest
      by_cases hless : value best < value node
      · refine ⟨best, by rw [firstLeast?, hbest]; exact if_pos hless, ?_⟩
        refine ⟨List.mem_cons_of_mem _ hleast.mem, ?_⟩
        exact List.forall_mem_cons.mpr ⟨Or.inl hless, hleast.least⟩
      · refine ⟨node, by rw [firstLeast?, hbest]; exact if_neg hless, ?_⟩
        refine ⟨List.mem_cons_self, ?_⟩
        refine List.forall_mem_cons.mpr ⟨Or.inr ⟨rfl, Nat.le_refl _⟩, fun other hother => ?_⟩
        have hbehind := hnode other hother
        rcases hleast.least other hother with hmore | ⟨hsame, -⟩ <;> omega

/-! ## Matching nodes -/

/-- A node of an index matches a shape, its text included. -/
structure Matches (index : Index) (shape : Selector.Shape) (node : Node) : Prop where
  found : node ∈ index.findByTagAndAttrs shape.tag shape.constraints
  reads : ∀ expected, nonEmpty shape.text = some expected →
    Pattern.textMatches expected node.text = .ok true

theorem filterM_eq_ok {α ε : Type} {p : α → Except ε Bool} {q : α → Bool} {items : List α}
    (h : ∀ item, p item = .ok (q item)) : items.filterM p = .ok (items.filter q) := by
  have haux : ∀ kept : List α,
      items.filterAuxM p kept = .ok ((items.filter q).reverse ++ kept) := by
    induction items with
    | nil => exact fun kept => rfl
    | cons item rest ih =>
      intro kept
      rw [List.filterAuxM, h]
      show rest.filterAuxM p (cond (q item) (item :: kept) kept) = _
      rw [ih]
      cases hitem : q item with
      | true => rw [List.filter_cons_of_pos hitem, List.reverse_cons, List.append_assoc]; rfl
      | false => rw [List.filter_cons_of_neg (by simp [hitem])]; rfl
  rw [List.filterM, haux]
  show Except.ok _ = _
  rw [List.append_nil, List.reverse_reverse]

/-- **If any node matches, the matching nodes are found**, in order: the expected text can be looked
for. -/
theorem matchingNodes_of_matches {index : Index} {shape : Selector.Shape} {node : Node}
    (h : Matches index shape node) : ∃ matching, matchingNodes index shape = .ok matching ∧
      matching.Sublist index.nodes ∧ ∀ other, other ∈ matching ↔ Matches index shape other := by
  have hsub : (index.findByTagAndAttrs shape.tag shape.constraints).Sublist index.nodes :=
    List.filter_sublist
  unfold matchingNodes nodesWithText
  cases htext : nonEmpty shape.text with
  | none =>
    refine ⟨_, rfl, hsub, fun other => ⟨fun hother => ⟨hother, ?_⟩, fun hother => hother.found⟩⟩
    intro expected hexpected
    rw [htext] at hexpected
    exact absurd hexpected (by simp)
  | some expected =>
    rcases Pattern.textMatches_cases expected with ⟨holds, hholds⟩ | ⟨overload, hexceeds⟩
    · refine ⟨_, filterM_eq_ok fun node => hholds node.text,
        List.filter_sublist.trans hsub, fun other => ?_⟩
      rw [List.mem_filter]
      refine ⟨fun hother => ⟨hother.1, ?_⟩, fun hother => ⟨hother.found, ?_⟩⟩
      · intro expected' hexpected
        obtain rfl := Option.some.inj (htext.symm.trans hexpected)
        rw [hholds, hother.2]
      · have htrue := hother.reads expected htext
        rw [hholds] at htrue
        exact Except.ok.inj htrue
    · have htrue := h.reads expected htext
      rw [Pattern.textMatches_of_exceeds hexceeds] at htrue
      exact absurd htrue (by simp)

section Nearest

variable {index : Index} {matching : List Node} {line : Int}

/-- If a matching node starts at the line or below it, the first of those that start nearest to it is
taken. -/
theorem nearest?_of_below (hmatching : matching.Sublist index.nodes)
    (horders : index.nodes.Pairwise fun a b => a.order < b.order) {node : Node}
    (hnode : node ∈ matching) (hline : line ≤ node.line) :
    ∃ best, nearest? index matching line = some best ∧
      FirstLeast (·.line) (matching.filter (line ≤ ·.line)) best := by
  have hbelow : matching.filter (line ≤ ·.line) ≠ [] :=
    List.ne_nil_of_mem (List.mem_filter.mpr ⟨hnode, decide_eq_true hline⟩)
  have hsorted : (matching.filter (line ≤ ·.line)).Pairwise fun a b => a.order < b.order :=
    (horders.sublist hmatching).filter _
  obtain ⟨best, hbest, hleast⟩ := exists_firstLeast (·.line) hbelow hsorted
  exact ⟨best, by rw [nearest?, hbest], hleast⟩

/-- A node of an index is found among some others by its number. -/
theorem any_order_iff (hmatching : matching.Sublist index.nodes)
    (horders : index.nodes.Pairwise fun a b => a.order < b.order) {node : Node}
    (hnode : node ∈ index.nodes) :
    (matching.any (·.order == node.order)) = true ↔ node ∈ matching := by
  have hnodup : (index.nodes.map (·.order)).Nodup :=
    List.pairwise_map.mpr (horders.imp Nat.ne_of_lt)
  rw [List.any_eq_true]
  refine ⟨fun ⟨other, hother, hsame⟩ => ?_, fun hmem => ⟨node, hmem, beq_self_eq_true _⟩⟩
  have hother' := hmatching.subset hother
  rwa [← List.inj_on_of_nodup_map hnodup hother' hnode (beq_iff_eq.mp hsame)]

/-- If all matching nodes start above the line and one of them reaches it, the innermost of those
that do is taken. -/
theorem nearest?_of_above (hmatching : matching.Sublist index.nodes)
    (horders : index.nodes.Pairwise fun a b => a.order < b.order)
    (habove : ∀ node ∈ matching, node.line < line) {node : Node} (hnode : node ∈ matching)
    (hcovers : Index.Covers node line = true) :
    ∃ best, nearest? index matching line = some best ∧ best ∈ matching ∧
      Index.Covers best line = true ∧
      ∀ other ∈ matching, Index.Covers other line = true → other = best ∨ best.Precedes other := by
  have hbelow : matching.filter (line ≤ ·.line) = [] := by
    refine List.filter_eq_nil_iff.mpr fun node hnode => ?_
    have := habove node hnode
    rw [decide_eq_true_eq]
    omega
  have hnodes : ∀ node ∈ matching, Index.Covers node line = true →
      node ∈ index.findAtLine line := fun node hnode hcovers =>
    Index.mem_findAtLine.mpr ⟨hmatching.subset hnode, hcovers⟩
  have hmem : ∀ node ∈ index.findAtLine line,
      (matching.any (·.order == node.order)) = true ↔ node ∈ matching := fun node hnode =>
    any_order_iff hmatching horders (Index.mem_findAtLine.mp hnode).1
  have hnearest : nearest? index matching line =
      (index.findAtLine line).find? fun node => matching.any (·.order == node.order) := by
    rw [nearest?, hbelow]
    rfl
  cases hfound : (index.findAtLine line).find? fun node => matching.any (·.order == node.order) with
  | none =>
    have hnone := List.find?_eq_none.mp hfound node (hnodes node hnode hcovers)
    exact absurd ((hmem node (hnodes node hnode hcovers)).mpr hnode) hnone
  | some best =>
    obtain ⟨hany, front, back, hsplit, hfront⟩ := List.find?_eq_some_iff_append.mp hfound
    have hbest : best ∈ index.findAtLine line := List.mem_of_find?_eq_some hfound
    refine ⟨best, hnearest.trans hfound, (hmem best hbest).mp hany,
      (Index.mem_findAtLine.mp hbest).2, fun other hother hcovered => ?_⟩
    -- Another matching node around the line stands behind: it would have been found before.
    have hlisted := hnodes other hother hcovered
    have hsorted := Index.pairwise_findAtLine horders line
    have hfound := (hmem other hlisted).mpr hother
    rw [hsplit] at hlisted hsorted
    rcases List.mem_append.mp hlisted with hmem | hmem
    · exact absurd hfound (by simpa using hfront other hmem)
    · rcases List.mem_cons.mp hmem with heq | hmem
      · exact Or.inl heq
      · exact Or.inr (List.rel_of_pairwise_cons (List.pairwise_append.mp hsorted).2.1 hmem)

end Nearest

/-! ## The captured element -/

/-- The element that is captured at a place: it is chosen, and the new anchor is made of it, whatever
its id and its digest are, if these can be. -/
structure Captured (place : Place) (node : Node) : Prop where
  chosen : nodeToCapture? (Index.ofSource place.source) place.selector place.line = .ok (some node)
  made : ∀ (id stamp : String) (format : HashFormat), visibleId (.string id) = .ok id →
    HashFormat.named place.algorithm place.digits = .ok format →
    capture id place stamp = .ok (ofNode id place format stamp node)

/-- **An element that is chosen is captured.** -/
theorem captured_of_chosen {place : Place} {node : Node} (hline : 1 ≤ place.line)
    (h : nodeToCapture? (Index.ofSource place.source) place.selector place.line =
      .ok (some node)) : Captured place node := by
  refine ⟨h, fun id stamp format hid hformat => ?_⟩
  have hnodes : (Index.ofSource place.source).isEmpty = false := by
    rw [Index.isEmpty, List.isEmpty_eq_false_iff]
    exact List.ne_nil_of_mem (mem_of_nodeToCapture? h)
  have hchecked : Checked.under (.field "id") (visibleId (.string id)) = .ok id := by
    rw [hid]
    rfl
  unfold capture
  rw [if_neg (by omega)]
  dsimp only
  rw [hnodes, if_neg (by decide), h, hformat, hchecked]
  rfl

section Place

variable {place : Place}

/-- Without a selector, and if no element starts on the line, the head of those around it is
captured. -/
theorem captured_of_around (hselector : nonEmpty place.selector = none) (hline : 1 ≤ place.line)
    (hnone : ∀ node ∈ (Index.ofSource place.source).nodes, node.line ≠ place.line) {node : Node}
    (h : ((Index.ofSource place.source).findAtLine place.line).head? = some node) :
    Captured place node := by
  refine captured_of_chosen hline ?_
  have hstarts : (Index.ofSource place.source).nodes.find? (·.line == place.line) = none := by
    rw [List.find?_eq_none]
    intro node hnode
    rw [beq_iff_eq]
    exact hnone node hnode
  unfold nodeToCapture?
  rw [hselector]
  show Except.ok (nodeAtLine? _ _) = _
  rw [nodeAtLine?, hstarts]
  exact congrArg Except.ok h

/-- With a selector, the matching element that is nearest is captured. -/
theorem captured_of_nearest {selector : String} {matching : List Node}
    (hselector : nonEmpty place.selector = some selector)
    (hshape : (Selector.Shape.ofSelector selector).isEmpty = false) (hline : 1 ≤ place.line)
    (hmatching : matchingNodes (Index.ofSource place.source)
      (Selector.Shape.ofSelector selector) = .ok matching) {node : Node}
    (h : nearest? (Index.ofSource place.source) matching place.line = some node) :
    Captured place node := by
  refine captured_of_chosen hline ?_
  unfold nodeToCapture?
  rw [hselector]
  dsimp only
  rw [hshape, if_neg (by decide), hmatching]
  simp only [bind, Except.bind, h]
  rfl

/-- Without a selector, and if no element starts on the line, the captured element comes before all
others around it. -/
theorem exists_captured_around (hselector : nonEmpty place.selector = none)
    (hline : 1 ≤ place.line)
    (hnone : ∀ node ∈ (Index.ofSource place.source).nodes, node.line ≠ place.line) {node : Node}
    (hnode : node ∈ (Index.ofSource place.source).findAtLine place.line) :
    ∃ best ∈ (Index.ofSource place.source).findAtLine place.line, Captured place best ∧
      ∀ other ∈ (Index.ofSource place.source).findAtLine place.line,
        other = best ∨ best.Precedes other := by
  have hsorted :=
    Index.pairwise_findAtLine (pairwise_order_ofSource place.source 0) place.line
  obtain ⟨best, rest, hsplit⟩ := List.exists_cons_of_ne_nil (List.ne_nil_of_mem hnode)
  have hcaptured := captured_of_around hselector hline hnone (congrArg List.head? hsplit)
  rw [hsplit] at hsorted ⊢
  refine ⟨best, List.mem_cons_self, hcaptured, ?_⟩
  exact List.forall_mem_cons.mpr ⟨Or.inl rfl, fun other hother =>
    Or.inr (List.rel_of_pairwise_cons hsorted hother)⟩

end Place

/-- **The nodes around a line, and what is captured there without a selector.**  Of an element and
one inside it, both around a line, the inner one comes first if it starts on a later line or ends on
an earlier one; otherwise the outer one does.  Where no element starts on the line and some are
around it, the captured one comes before all others around it; those inside it that are around the
line as well start on the same line as it does and end on no earlier one. -/
theorem capture_around (source : String) :
    (∀ (lineOffset line : Int) (inner outer : Node), inner.Inside source outer →
      inner ∈ (Index.ofSource source lineOffset).findAtLine line →
      outer ∈ (Index.ofSource source lineOffset).findAtLine line →
      ([inner, outer].Sublist ((Index.ofSource source lineOffset).findAtLine line) ↔
        outer.line < inner.line ∨ inner.endLine < outer.endLine) ∧
      ([outer, inner].Sublist ((Index.ofSource source lineOffset).findAtLine line) ↔
        outer.line = inner.line ∧ outer.endLine ≤ inner.endLine)) ∧
    ∀ place : Place, place.source = source → nonEmpty place.selector = none → 1 ≤ place.line →
      (∀ node ∈ (Index.ofSource source).nodes, node.line ≠ place.line) →
      (∃ node, node ∈ (Index.ofSource source).findAtLine place.line) →
      ∃ best ∈ (Index.ofSource source).findAtLine place.line, Captured place best ∧
        (∀ other ∈ (Index.ofSource source).findAtLine place.line,
          other = best ∨ best.Precedes other) ∧
        ∀ inner ∈ (Index.ofSource source).findAtLine place.line, inner.Inside source best →
          inner.line = best.line ∧ best.endLine ≤ inner.endLine := by
  refine ⟨fun lineOffset line inner outer h => sublist_findAtLine_iff h, ?_⟩
  rintro place rfl hselector hline hnone ⟨node, hnode⟩
  obtain ⟨best, hbest, hcaptured, hfirst⟩ := exists_captured_around hselector hline hnone hnode
  refine ⟨best, hbest, hcaptured, hfirst, fun inner hinner hinside => ?_⟩
  have hstarts :=
    hinside.line_le (Index.mem_findAtLine.mp hinner).1 (Index.mem_findAtLine.mp hbest).1
  rcases hfirst inner hinner with rfl | hprecedes
  · exact absurd rfl hinside.ne
  · unfold Node.Precedes at hprecedes
    omega

/-- The lines of a node and its number. -/
def siteOf (node : Node) : Int × Int × Nat :=
  (node.line, node.endLine, node.order)

theorem exists_two_nodes {nodes : List Node} {first second : Int × Int × Nat}
    (h : nodes.map siteOf = [first, second]) :
    ∃ a b, nodes = [a, b] ∧ siteOf a = first ∧ siteOf b = second := by
  have hlength := congrArg List.length h
  rw [List.length_map] at hlength
  obtain ⟨a, b, rfl⟩ := List.length_eq_two.mp hlength
  exact ⟨a, b, rfl, (List.cons.inj h).1, (List.cons.inj (List.cons.inj h).2).1⟩

/-- A line of a source, without a selector. -/
def Place.bare (source : String) (line : Int) : Place :=
  { source, file := "a.html", line }

/-- A section with a paragraph in it, both around a line on which neither starts. -/
structure Around (place : Place) (inner outer : Node) : Prop where
  nodes : (Index.ofSource place.source).nodes = [outer, inner]
  inside : inner.Inside place.source outer
  inner : inner ∈ (Index.ofSource place.source).findAtLine place.line
  outer : outer ∈ (Index.ofSource place.source).findAtLine place.line
  starts : ∀ node ∈ (Index.ofSource place.source).nodes, node.line ≠ place.line

theorem exists_around (place : Place) (first last first' last' : Int)
    (hsites : (Index.ofSource place.source).nodes.map siteOf =
      [(first, last, 0), (first', last', 1)])
    (hdescendants : ((spansOf place.source)[0]?.map fun a =>
      (extentsOf (mask place.source.toList) a.children).length) = some 1)
    (hlines : (first < place.line ∧ place.line ≤ last) ∧ first' < place.line ∧ place.line ≤ last') :
    ∃ inner outer, Around place inner outer ∧ siteOf outer = (first, last, 0) ∧
      siteOf inner = (first', last', 1) := by
  obtain ⟨outer, inner, hnodes, houter, hinner⟩ := exists_two_nodes hsites
  refine ⟨inner, outer, ?_, houter, hinner⟩
  simp only [siteOf, Prod.mk.injEq] at houter hinner
  obtain ⟨a, ha, hlength⟩ := Option.map_eq_some_iff.mp hdescendants
  have hmem : ∀ node ∈ (Index.ofSource place.source).nodes,
      node ∈ (Index.ofSource place.source).findAtLine place.line ∧ node.line ≠ place.line := by
    intro node hnode
    have hlisted := hnode
    rw [hnodes, List.mem_pair] at hlisted
    rw [Index.mem_findAtLine, Index.covers_iff]
    rcases hlisted with rfl | rfl
    · exact ⟨⟨hnode, by omega⟩, by omega⟩
    · exact ⟨⟨hnode, by omega⟩, by omega⟩
  rw [hnodes] at hmem
  refine {
    nodes := hnodes
    inside := (Node.inside_iff (houter.2.2.symm ▸ ha)).mpr (by omega)
    inner := (hmem inner (by simp)).1
    outer := (hmem outer (by simp)).1
    starts := fun node hnode => (hmem node (hnodes ▸ hnode)).2 }

theorem capture_around_nested :
    let place := Place.bare "<div>\n<p>x\n\ny</p>\n</div>" 3
    ∃ inner outer, Around place inner outer ∧
      [inner, outer].Sublist ((Index.ofSource place.source).findAtLine place.line) ∧
      Captured place inner := by
  intro place
  have hline : place.line = 3 := rfl
  obtain ⟨inner, outer, h, houter, hinner⟩ :=
    exists_around place 1 5 2 4 (by decide +kernel) (by decide +kernel) (by omega)
  simp only [siteOf, Prod.mk.injEq] at houter hinner
  obtain ⟨horder, hcapture⟩ := capture_around place.source
  obtain ⟨best, hbest, hcaptured, hfirst, -⟩ :=
    hcapture place rfl rfl (by omega) h.starts ⟨inner, h.inner⟩
  have hsub := (horder 0 place.line inner outer h.inside h.inner h.outer).1.mpr (by omega)
  have hlisted := (Index.mem_findAtLine.mp hbest).1
  rw [h.nodes, List.mem_pair] at hlisted
  refine ⟨inner, outer, h, hsub, ?_⟩
  rcases hlisted with rfl | rfl
  · -- The section does not come before the paragraph.
    rcases hfirst inner h.inner with rfl | hprecedes
    · exact hcaptured
    · unfold Node.Precedes at hprecedes
      omega
  · exact hcaptured

/-- A section with the same lines as the paragraph in it comes first and is captured, although the
paragraph is inside it and around the line as well. -/
theorem capture_around_outermost :
    let place := Place.bare "<div><p>x\n\ny</p></div>" 2
    ∃ inner outer, Around place inner outer ∧
      ¬[inner, outer].Sublist ((Index.ofSource place.source).findAtLine place.line) ∧
      Captured place outer := by
  intro place
  have hline : place.line = 2 := rfl
  obtain ⟨inner, outer, h, houter, hinner⟩ :=
    exists_around place 1 3 1 3 (by decide +kernel) (by decide +kernel) (by omega)
  simp only [siteOf, Prod.mk.injEq] at houter hinner
  obtain ⟨best, hbest, hcaptured, hfirst⟩ :=
    exists_captured_around (show nonEmpty place.selector = none from rfl) (by omega) h.starts
      h.inner
  have hlisted := (Index.mem_findAtLine.mp hbest).1
  rw [h.nodes, List.mem_pair] at hlisted
  refine ⟨inner, outer, h, ?_, ?_⟩
  · rw [(sublist_findAtLine_iff h.inside h.inner h.outer).1]
    omega
  · rcases hlisted with rfl | rfl
    · exact hcaptured
    · rcases hfirst outer h.outer with rfl | hprecedes
      · exact hcaptured
      · unfold Node.Precedes at hprecedes
        omega

section Selected

variable {place : Place} {selector : String}

/-- If a matching element starts on the line or below it, the first of those that start nearest to
it is captured. -/
theorem exists_captured_below (hselector : nonEmpty place.selector = some selector)
    (hshape : (Selector.Shape.ofSelector selector).isEmpty = false) (hline : 1 ≤ place.line)
    {node : Node}
    (hfits : Matches (Index.ofSource place.source) (Selector.Shape.ofSelector selector) node)
    (hbelow : place.line ≤ node.line) :
    ∃ best, Captured place best ∧
      Matches (Index.ofSource place.source) (Selector.Shape.ofSelector selector) best ∧
      place.line ≤ best.line ∧
      ∀ other, Matches (Index.ofSource place.source) (Selector.Shape.ofSelector selector) other →
        place.line ≤ other.line →
          best.line < other.line ∨ best.line = other.line ∧ best.order ≤ other.order := by
  have horders := pairwise_order_ofSource place.source 0
  obtain ⟨matching, hmatching, hsub, hmem⟩ := matchingNodes_of_matches hfits
  obtain ⟨best, hbest, hleast⟩ := nearest?_of_below hsub horders ((hmem node).mpr hfits) hbelow
  obtain ⟨hmatches, hreaches⟩ := List.mem_filter.mp hleast.mem
  refine ⟨best, captured_of_nearest hselector hshape hline hmatching hbest,
    (hmem best).mp hmatches, of_decide_eq_true hreaches, fun other hother hbelow => ?_⟩
  exact hleast.least other (List.mem_filter.mpr ⟨(hmem other).mpr hother, decide_eq_true hbelow⟩)

/-- If all matching elements start above the line and some of them are around it, the innermost of
these is captured. -/
theorem exists_captured_above (hselector : nonEmpty place.selector = some selector)
    (hshape : (Selector.Shape.ofSelector selector).isEmpty = false) (hline : 1 ≤ place.line)
    (habove : ∀ node, Matches (Index.ofSource place.source) (Selector.Shape.ofSelector selector)
      node → node.line < place.line) {node : Node}
    (hfits : Matches (Index.ofSource place.source) (Selector.Shape.ofSelector selector) node)
    (hcovers : Index.Covers node place.line = true) :
    ∃ best, Captured place best ∧
      Matches (Index.ofSource place.source) (Selector.Shape.ofSelector selector) best ∧
      Index.Covers best place.line = true ∧
      ∀ other, Matches (Index.ofSource place.source) (Selector.Shape.ofSelector selector) other →
        Index.Covers other place.line = true → other = best ∨ best.Precedes other := by
  have horders := pairwise_order_ofSource place.source 0
  obtain ⟨matching, hmatching, hsub, hmem⟩ := matchingNodes_of_matches hfits
  obtain ⟨best, hbest, hmatches, hcovered, hfirst⟩ := nearest?_of_above hsub horders
    (fun other hother => habove other ((hmem other).mp hother)) ((hmem node).mpr hfits) hcovers
  exact ⟨best, captured_of_nearest hselector hshape hline hmatching hbest,
    (hmem best).mp hmatches, hcovered, fun other hother => hfirst other ((hmem other).mpr hother)⟩

end Selected

/-- **What is captured with a selector.**  If a matching element starts on the line or below it, it
is the one that starts first there; of several that start on one line, the first one in the
document.  If all of them start above the line and some are around it, it is the innermost of these.
So where matching elements are around the line, the captured one is around it just if one of them
starts on it or none starts below it. -/
theorem capture_nearest {place : Place} {selector : String}
    (hselector : nonEmpty place.selector = some selector)
    (hshape : (Selector.Shape.ofSelector selector).isEmpty = false) (hline : 1 ≤ place.line) :
    let Fits := Matches (Index.ofSource place.source) (Selector.Shape.ofSelector selector)
    ((∃ node, Fits node ∧ place.line ≤ node.line) →
      ∃ best, Captured place best ∧ Fits best ∧ place.line ≤ best.line ∧
        ∀ other, Fits other → place.line ≤ other.line →
          best.line < other.line ∨ best.line = other.line ∧ best.order ≤ other.order) ∧
    ((∀ node, Fits node → node.line < place.line) →
      (∃ node, Fits node ∧ Index.Covers node place.line = true) →
      ∃ best, Captured place best ∧ Fits best ∧ Index.Covers best place.line = true ∧
        ∀ other, Fits other → Index.Covers other place.line = true →
          other = best ∨ best.Precedes other) ∧
    ((∃ node, Fits node ∧ Index.Covers node place.line = true) →
      ∃ best, Captured place best ∧ Fits best ∧
        (Index.Covers best place.line = true ↔
          (∃ node, Fits node ∧ node.line = place.line) ∨
            ∀ node, Fits node → node.line < place.line)) := by
  intro Fits
  refine ⟨?_, ?_, ?_⟩
  · rintro ⟨node, hfits, hbelow⟩
    exact exists_captured_below hselector hshape hline hfits hbelow
  · rintro habove ⟨node, hfits, hcovers⟩
    exact exists_captured_above hselector hshape hline habove hfits hcovers
  · rintro ⟨node, hfits, hcovers⟩
    by_cases habove : ∀ node, Fits node → node.line < place.line
    · obtain ⟨best, hcaptured, hbest, hcovered, -⟩ :=
        exists_captured_above hselector hshape hline habove hfits hcovers
      exact ⟨best, hcaptured, hbest, iff_of_true hcovered (Or.inr habove)⟩
    · push Not at habove
      obtain ⟨below, hbelow, hreaches⟩ := habove
      obtain ⟨best, hcaptured, hbest, hfirst, hleast⟩ :=
        exists_captured_below hselector hshape hline hbelow hreaches
      obtain ⟨-, -, hend⟩ := node_of_ofSource (List.mem_filter.mp hbest.found).1
      refine ⟨best, hcaptured, hbest, ?_⟩
      rw [Index.covers_iff]
      refine ⟨fun hcovered => Or.inl ⟨best, hbest, by omega⟩, ?_⟩
      rintro (⟨other, hother, hstarts⟩ | habove)
      · have := hleast other hother (by omega)
        omega
      · have := habove below hbelow
        omega

/-- A source of which the sections are meant. -/
def Place.sections (source : String) (line : Int) : Place :=
  { source, file := "a.html", line, selector := some "div" }

/-- What is found for a section. -/
def sectionsOf (source : String) : List Node :=
  (Index.ofSource source).findByTagAndAttrs (Selector.Shape.ofSelector "div").tag
    (Selector.Shape.ofSelector "div").constraints

theorem matches_section_iff {source : String} {node : Node} :
    Matches (Index.ofSource source) (Selector.Shape.ofSelector "div") node ↔
      node ∈ sectionsOf source := by
  have htext : nonEmpty (Selector.Shape.ofSelector "div").text = none := by decide +kernel
  refine ⟨fun h => h.found, fun h => ⟨h, fun expected hexpected => ?_⟩⟩
  rw [htext] at hexpected
  exact absurd hexpected (by simp)

theorem capture_nearest_section :
    let place := Place.sections "<p>a</p>\n<div>\n\n</div>"
    (∃ best, Captured (place 1) best ∧ best.line = 2) ∧
      ∃ best, Captured (place 3) best ∧ best.line = 2 ∧ Index.Covers best 3 = true := by
  intro place
  have hsites : (sectionsOf "<p>a</p>\n<div>\n\n</div>").map siteOf = [(2, 4, 1)] := by
    decide +kernel
  have hshape : (Selector.Shape.ofSelector "div").isEmpty = false := by decide +kernel
  obtain ⟨found, hfound, hsite⟩ := List.map_eq_singleton_iff.mp hsites
  simp only [siteOf, Prod.mk.injEq] at hsite
  have hfits : ∀ node, Matches (Index.ofSource "<p>a</p>\n<div>\n\n</div>")
      (Selector.Shape.ofSelector "div") node ↔ node = found := by
    intro node
    rw [matches_section_iff, hfound, List.mem_singleton]
  have hcovers : Index.Covers found 3 = true := by
    rw [Index.covers_iff]
    omega
  refine ⟨?_, ?_⟩
  · obtain ⟨best, hcaptured, hbest, -⟩ :=
      (@capture_nearest (place 1) "div" rfl hshape (by decide)).1
        ⟨found, (hfits found).mpr rfl, by show 1 ≤ found.line; omega⟩
    obtain rfl := (hfits best).mp hbest
    exact ⟨best, hcaptured, hsite.1⟩
  · have habove : ∀ node, Matches (Index.ofSource (place 3).source)
        (Selector.Shape.ofSelector "div") node → node.line < (place 3).line := by
      intro node hnode
      obtain rfl := (hfits node).mp hnode
      show node.line < 3
      omega
    obtain ⟨best, hcaptured, hbest, -⟩ :=
      (@capture_nearest (place 3) "div" rfl hshape (by decide)).2.1 habove
        ⟨found, (hfits found).mpr rfl, hcovers⟩
    obtain rfl := (hfits best).mp hbest
    exact ⟨best, hcaptured, hsite.1, hcovers⟩

/-- The first section is around the line, and yet the second one is captured, which is not. -/
theorem capture_nearest_leaves :
    let place := Place.sections "<div>\n\n</div>\n<div></div>" 2
    (∃ node, Matches (Index.ofSource place.source) (Selector.Shape.ofSelector "div") node ∧
        Index.Covers node place.line = true) ∧
      ∃ best, Captured place best ∧ Index.Covers best place.line = false := by
  intro place
  have hline : place.line = 2 := rfl
  have hsites : (sectionsOf place.source).map siteOf = [(1, 3, 0), (4, 4, 1)] := by
    decide +kernel
  have hshape : (Selector.Shape.ofSelector "div").isEmpty = false := by decide +kernel
  obtain ⟨first, second, hfound, hfirst, hsecond⟩ := exists_two_nodes hsites
  simp only [siteOf, Prod.mk.injEq] at hfirst hsecond
  have hfits : ∀ node, Matches (Index.ofSource place.source) (Selector.Shape.ofSelector "div")
      node ↔ node = first ∨ node = second := by
    intro node
    rw [matches_section_iff, hfound, List.mem_pair]
  obtain ⟨matching, hmatching, hsub, hmem⟩ :=
    matchingNodes_of_matches ((hfits first).mpr (Or.inl rfl))
  obtain ⟨best, hbest, hleast⟩ := nearest?_of_below hsub (pairwise_order_ofSource place.source 0)
    ((hmem second).mpr ((hfits second).mpr (Or.inr rfl))) (show place.line ≤ second.line by omega)
  obtain ⟨hlisted, hbelow⟩ := List.mem_filter.mp hleast.mem
  have hreaches : place.line ≤ best.line := of_decide_eq_true hbelow
  refine ⟨⟨first, (hfits first).mpr (Or.inl rfl), ?_⟩, best,
    captured_of_nearest rfl hshape (by omega) hmatching hbest, ?_⟩
  · rw [Index.covers_iff]
    omega
  · rw [← Bool.not_eq_true, Index.covers_iff]
    rcases (hfits best).mp ((hmem best).mp hlisted) with rfl | rfl <;> omega

end Mooring.Anchor
