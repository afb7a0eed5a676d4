import Mooring.Anchor.Capture
import Mooring.Proofs.Anchor.Written
import Mooring.Proofs.Markup.Spans
import Mooring.Proofs.Resolution.Listing

/-!
# What is captured

Whichever way the element is chosen, it is one of the elements of the source
(`mem_of_nodeToCapture?`), and a capture that succeeds makes the anchor of just that element
(`capture_eq_ok`).  Its lines are always a range, so the new anchor has them
(`rangeOf?_of_node`).
-/

namespace Mooring.Anchor

open Mooring.Fragment Mooring.Markup Mooring.Record Mooring.Text

/-! ## The chosen element -/

theorem mem_of_firstLeast? {value : Node → Int} :
    ∀ (nodes : List Node) (node : Node), firstLeast? value nodes = some node → node ∈ nodes := by
  intro nodes
  induction nodes with
  | nil => intro node h; exact absurd h (by simp [firstLeast?])
  | cons first rest ih =>
    intro node h
    simp only [firstLeast?] at h
    split at h
    next best hbest =>
      split at h
      · exact List.mem_cons_of_mem _ (ih node (hbest.trans h))
      · rw [Option.some.inj h]
        exact List.mem_cons_self
    next =>
      rw [Option.some.inj h]
      exact List.mem_cons_self

theorem mem_of_findAtLine {index : Index} {line : Int} {node : Node}
    (h : node ∈ index.findAtLine line) : node ∈ index.nodes :=
  (List.mem_filter.mp (List.mem_mergeSort.mp h)).1

theorem mem_of_nodeAtLine? {index : Index} {line : Int} {node : Node}
    (h : nodeAtLine? index line = some node) : node ∈ index.nodes := by
  unfold nodeAtLine? at h
  split at h
  next found hfound =>
    rw [← Option.some.inj h]
    exact List.mem_of_find?_eq_some hfound
  next => exact mem_of_findAtLine (List.mem_of_head? h)

theorem mem_of_matchingNodes {index : Index} {shape : Selector.Shape} {nodes : List Node}
    (h : matchingNodes index shape = .ok nodes) : ∀ node ∈ nodes, node ∈ index.nodes := by
  intro node hnode
  unfold matchingNodes nodesWithText at h
  split at h
  next => exact (List.mem_filter.mp (Resolution.mem_of_filterM h hnode)).1
  next =>
    rw [← Except.ok.inj h] at hnode
    exact (List.mem_filter.mp hnode).1

theorem mem_of_nearest? {index : Index} {matching : List Node} {line : Int} {node : Node}
    (hmatching : ∀ node ∈ matching, node ∈ index.nodes)
    (h : nearest? index matching line = some node) : node ∈ index.nodes := by
  unfold nearest? at h
  split at h
  next found hfound =>
    rw [← Option.some.inj h]
    exact hmatching found (List.mem_filter.mp (mem_of_firstLeast? _ found hfound)).1
  next => exact mem_of_findAtLine (List.mem_of_find?_eq_some h)

/-- **The element to capture is one of the elements of the source.** -/
theorem mem_of_nodeToCapture? {index : Index} {selector : Option String} {line : Int} {node : Node}
    (h : nodeToCapture? index selector line = .ok (some node)) : node ∈ index.nodes := by
  unfold nodeToCapture? at h
  split at h
  next => exact mem_of_nodeAtLine? (Except.ok.inj h)
  next selector hselector =>
    dsimp only at h
    split at h
    next => exact mem_of_nodeAtLine? (Except.ok.inj h)
    next =>
      cases hmatching : matchingNodes index (Selector.Shape.ofSelector selector) with
      | error overload =>
        rw [hmatching] at h
        exact absurd h (by simp [bind, Except.bind])
      | ok matching =>
        rw [hmatching] at h
        simp only [bind, Except.bind] at h
        split at h
        next found hfound =>
          obtain rfl := Option.some.inj (Except.ok.inj h)
          exact mem_of_nearest? (mem_of_matchingNodes hmatching) hfound
        next => exact mem_of_nodeAtLine? (Except.ok.inj h)

/-! ## The anchor of an element -/

/-- The lines of an element are a range. -/
theorem rangeOf?_of_node {source : String} {node : Node}
    (h : node ∈ (Index.ofSource source).nodes) : ∃ range : SourceRange,
      rangeOf? node = some range ∧ range.extra = [] ∧ range.first = node.line ∧
        range.last = node.line + lineFeeds node.fragment.toList := by
  obtain ⟨-, hline, hend⟩ := node_of_ofSource h
  rw [← hend]
  exact rangeOf?_of_lines (by omega) (by omega)

/-- **A capture makes the anchor of one element of the source**, with the fragment hashed in the
format that was asked for. -/
theorem capture_eq_ok {id : String} {place : Place} {stamp : String} {captured : Anchor}
    (h : capture id place stamp = .ok captured) :
    ∃ node format, node ∈ (Index.ofSource place.source).nodes ∧
      HashFormat.named place.algorithm place.digits = .ok format ∧
      visibleId (.string id) = .ok id ∧ captured = ofNode id place format stamp node := by
  unfold capture at h
  simp only [bind, Except.bind] at h
  split at h
  next => exact absurd h (by simp)
  next =>
    split at h
    next => exact absurd h (by simp)
    next =>
      split at h
      next => exact absurd h (by simp)
      next => exact absurd h (by simp)
      next node hnode =>
        split at h
        next => exact absurd h (by simp)
        next format hformat =>
          split at h
          next found hfound =>
            have hid := Checked.under_eq_ok hfound
            obtain rfl := visibleId_eq_ok hid
            exact ⟨node, format, mem_of_nodeToCapture? hnode, hformat, hid, (Except.ok.inj h).symm⟩
          next => exact absurd h (by simp)

theorem exists_capture {id : String} {place : Place} {stamp : String}
    (h : (capture id place stamp).isOk) : ∃ captured, capture id place stamp = .ok captured := by
  cases hcapture : capture id place stamp with
  | ok captured => exact ⟨captured, rfl⟩
  | error failure =>
    rw [hcapture] at h
    exact absurd h (by simp [Except.isOk, Except.toBool])

end Mooring.Anchor
