import Mathlib.Order.Bounds.Basic
import Mooring.Anchor.Capture
import Mooring.Proofs.Markup.Nesting

/-!
# Every element has its place and its end

Whatever the source, however broken, each node of its index stands in the source as it is written,
from the `<` of its element on, with the lines counted up to there (`Node.Stands`).

Ends can be found in two passes over the list of elements.  The first one looks for end tags, and
the second one goes from the last element back to the first: an element without an end tag ends
with the last of its descendants or with its own start tag, so the ends of its descendants must be
known by then (`settle`).  They are, since the descendants of an element stand right behind it in
the list (`prefix_drop_extentsOf`): the second pass never fails, and what it finds are the extents
(`settle_drafts`).
-/

namespace Mooring.Markup

open Mooring.Text

/-! ## What holds of each extent -/

section Extents

variable {masked : List Char}

mutual

/-- What holds of an extent if it holds of those inside it, holds of each extent. -/
theorem forall_extents {P : Extent → Prop}
    (h : ∀ e children, (∀ d ∈ extentsOf masked children, P d) →
      P ⟨e, children, e.offset, elementStop masked e (extentsOf masked children)⟩) :
    ∀ part : Tree, ∀ d ∈ extents masked part, P d
  | .text .., d, hd => absurd hd (by simp [extents])
  | .element e children, d, hd => by
    have hinner := forall_extentsOf h children
    rw [extents_element] at hd
    rcases List.mem_cons.mp hd with rfl | hd
    · exact h e children hinner
    · exact hinner d hd

theorem forall_extentsOf {P : Extent → Prop}
    (h : ∀ e children, (∀ d ∈ extentsOf masked children, P d) →
      P ⟨e, children, e.offset, elementStop masked e (extentsOf masked children)⟩) :
    ∀ parts : List Tree, ∀ d ∈ extentsOf masked parts, P d
  | [], d, hd => absurd hd (by simp [extentsOf])
  | part :: rest, d, hd => by
    rw [extentsOf] at hd
    exact (List.mem_append.mp hd).elim (forall_extents h part d) (forall_extentsOf h rest d)

end

/-- An extent is that of its element. -/
theorem extent_eq {parts : List Tree} {e : Extent} (he : e ∈ extentsOf masked parts) :
    e = ⟨e.element, e.children, e.element.offset,
      elementStop masked e.element (extentsOf masked e.children)⟩ :=
  forall_extentsOf (P := fun e => e = ⟨e.element, e.children, e.element.offset,
    elementStop masked e.element (extentsOf masked e.children)⟩) (fun _ _ _ => rfl) parts e he

/-- No extent reaches beyond the text. -/
theorem stop_le {parts : List Tree} {e : Extent} (he : e ∈ extentsOf masked parts) :
    e.stop ≤ masked.length := by
  refine forall_extentsOf (P := fun e => e.stop ≤ masked.length) (fun e children hinner => ?_)
    parts e he
  show elementStop masked e _ ≤ _
  rw [elementStop]
  cases hend : endOf? masked e with
  | none => exact foldl_max_le_iff.mpr ⟨Nat.sub_le _ _, hinner⟩
  | some stop =>
    obtain ⟨rest, -, rfl⟩ := Option.map_eq_some_iff.mp hend
    exact Nat.sub_le _ _

mutual

/-- The extents inside an element stand right behind its own. -/
theorem prefix_drop_extents : ∀ (part : Tree) {n : Nat} {e : Extent},
    (extents masked part)[n]? = some e →
    extentsOf masked e.children <+: (extents masked part).drop (n + 1)
  | .text .., n, e, he => absurd he (by simp [extents])
  | .element element children, n, e, he => by
    rw [extents_element] at he ⊢
    rw [List.drop_succ_cons]
    cases n with
    | zero =>
      rw [← Option.some.inj he]
      exact List.prefix_refl _
    | succ n => exact prefix_drop_extentsOf children he

theorem prefix_drop_extentsOf : ∀ (parts : List Tree) {n : Nat} {e : Extent},
    (extentsOf masked parts)[n]? = some e →
    extentsOf masked e.children <+: (extentsOf masked parts).drop (n + 1)
  | [], n, e, he => absurd he (by simp [extentsOf])
  | part :: rest, n, e, he => by
    rw [extentsOf] at he ⊢
    by_cases hn : n < (extents masked part).length
    · rw [List.getElem?_append_left hn] at he
      rw [List.drop_append_of_le_length hn]
      exact (prefix_drop_extents part he).trans (List.prefix_append _ _)
    · rw [List.getElem?_append_right (Nat.le_of_not_lt hn)] at he
      have hsum : n + 1 =
          (extents masked part).length + (n - (extents masked part).length + 1) := by
        omega
      rw [hsum, ← List.drop_drop, List.drop_left]
      exact prefix_drop_extentsOf rest he

end

end Extents

/-! ## Finding ends in two passes -/

/-- An element with its end, as far as it is known. -/
structure Draft where
  element : Element
  children : List Tree
  stop : Option Nat

/-- The end of an element's draft, if it is known; the element is found by its place. -/
def stopOf? (drafts : List Draft) (e : Element) : Option Nat :=
  (drafts.find? (·.element.offset == e.offset)).bind (·.stop)

/-- The end of a draft: the one it has, or the last of its start tag's end and the ends of its
descendants, which must be known. -/
def stopFrom? (masked : List Char) (drafts : List Draft) (d : Draft) : Option Nat :=
  match d.stop with
  | some stop => some stop
  | none => (elementsOf d.children).foldlM (fun stop e => (stopOf? drafts e).map (max stop))
      (startTagStop masked d.element)

/-- The second pass over the first `n` drafts, the last of them first. -/
def settle (masked : List Char) : Nat → List Draft → Option (List Draft)
  | 0, drafts => some drafts
  | n + 1, drafts => do
    let d ← drafts[n]?
    let stop ← stopFrom? masked drafts d
    settle masked n (drafts.set n { d with stop := some stop })

/-- The draft of an extent after the first pass: its end if there is an end tag. -/
def Extent.draft (masked : List Char) (e : Extent) : Draft :=
  ⟨e.element, e.children, endOf? masked e.element⟩

/-- The draft of an extent whose end is known. -/
def Extent.settled (e : Extent) : Draft :=
  ⟨e.element, e.children, some e.stop⟩

/-- In a list with different places, an element's draft is found by its place. -/
theorem find?_of_pairwise {drafts : List Draft} {d : Draft}
    (hplaces : drafts.Pairwise fun a b => a.element.offset < b.element.offset) (hd : d ∈ drafts) :
    drafts.find? (·.element.offset == d.element.offset) = some d := by
  induction drafts with
  | nil => exact absurd hd List.not_mem_nil
  | cons first rest ih =>
    obtain ⟨hfirst, hrest⟩ := List.pairwise_cons.mp hplaces
    rcases List.mem_cons.mp hd with rfl | hd
    · exact List.find?_cons_of_pos (beq_self_eq_true _)
    · have hne := Nat.ne_of_lt (hfirst d hd)
      rw [List.find?_cons_of_neg (by simpa using hne), ih hrest hd]

/-- If the ends of the elements of some extents are known, so is the last of them. -/
theorem foldlM_stops {stop? : Element → Option Nat} : ∀ (inner : List Extent) (start : Nat),
    (∀ d ∈ inner, stop? d.element = some d.stop) →
    (inner.map (·.element)).foldlM (fun stop e => (stop? e).map (max stop)) start =
      some (inner.foldl (fun stop d => max stop d.stop) start)
  | [], _, _ => rfl
  | d :: inner, start, h => by
    obtain ⟨hd, hinner⟩ := List.forall_mem_cons.mp h
    rw [List.map_cons, List.foldlM_cons, hd]
    exact foldlM_stops inner _ hinner

/-- The drafts when the second pass has still to go over the first `n` of them. -/
def draftsAt (masked : List Char) (spans : List Extent) (n : Nat) : List Draft :=
  (spans.take n).map (Extent.draft masked) ++ (spans.drop n).map Extent.settled

section Settle

variable {masked : List Char} {spans : List Extent} {n : Nat}

theorem map_element_draftsAt (masked : List Char) (spans : List Extent) (n : Nat) :
    (draftsAt masked spans n).map (·.element) = spans.map (·.element) := by
  rw [draftsAt, List.map_append, List.map_map, List.map_map]
  show (spans.take n).map (·.element) ++ (spans.drop n).map (·.element) = _
  rw [← List.map_append, List.take_append_drop]

theorem length_draft_take (masked : List Char) (hn : n < spans.length) :
    ((spans.take n).map (Extent.draft masked)).length = n := by
  rw [List.length_map, List.length_take]
  omega

theorem draftsAt_succ (masked : List Char) (hn : n < spans.length) :
    draftsAt masked spans (n + 1) = (spans.take n).map (Extent.draft masked) ++
      spans[n].draft masked :: (spans.drop (n + 1)).map Extent.settled := by
  rw [draftsAt, List.take_add_one, List.getElem?_eq_getElem hn, Option.toList_some, List.map_append,
    List.map_singleton, List.append_assoc, List.singleton_append]

theorem getElem?_draftsAt (masked : List Char) (hn : n < spans.length) :
    (draftsAt masked spans (n + 1))[n]? = some (spans[n].draft masked) := by
  have hlength := length_draft_take masked hn
  rw [draftsAt_succ masked hn, List.getElem?_append_right (Nat.le_of_eq hlength), hlength,
    Nat.sub_self, List.getElem?_cons_zero]

theorem set_draftsAt (masked : List Char) (hn : n < spans.length) :
    (draftsAt masked spans (n + 1)).set n spans[n].settled = draftsAt masked spans n := by
  have hlength := length_draft_take masked hn
  rw [draftsAt_succ masked hn, List.set_append_right _ _ (Nat.le_of_eq hlength), hlength,
    Nat.sub_self, List.set_cons_zero, draftsAt, List.drop_eq_getElem_cons hn, List.map_cons]

/-- A step of the second pass finds the end of an element: those of its descendants are known, as
they stand right behind it. -/
theorem stopFrom?_draftsAt {trees : List Tree} (hn : n < (extentsOf masked trees).length)
    (hplaces : (elementsOf trees).Pairwise (·.offset < ·.offset)) :
    stopFrom? masked (draftsAt masked (extentsOf masked trees) (n + 1))
      ((extentsOf masked trees)[n].draft masked) = some (extentsOf masked trees)[n].stop := by
  generalize he : (extentsOf masked trees)[n] = e
  have hget : (extentsOf masked trees)[n]? = some e := he ▸ List.getElem?_eq_getElem hn
  have hoffsets : (draftsAt masked (extentsOf masked trees) (n + 1)).Pairwise
      fun a b => a.element.offset < b.element.offset := by
    rw [← map_element_extentsOf masked,
      ← map_element_draftsAt masked (extentsOf masked trees) (n + 1), List.pairwise_map] at hplaces
    exact hplaces
  have hstop : e.stop = elementStop masked e.element (extentsOf masked e.children) :=
    congrArg Extent.stop (extent_eq (List.mem_of_getElem? hget))
  rw [stopFrom?, Extent.draft, hstop, elementStop]
  cases endOf? masked e.element with
  | some stop => rfl
  | none =>
    have hknown : ∀ d ∈ extentsOf masked e.children,
        stopOf? (draftsAt masked (extentsOf masked trees) (n + 1)) d.element = some d.stop := by
      intro d hd
      have hbehind := (prefix_drop_extentsOf trees hget).subset hd
      have hfound := find?_of_pairwise (d := d.settled) hoffsets
        (List.mem_append_right _ (List.mem_map_of_mem hbehind))
      rw [Extent.settled] at hfound
      rw [stopOf?, hfound]
      rfl
    dsimp only
    rw [← map_element_extentsOf masked e.children, foldlM_stops _ _ hknown]
    rfl

theorem settle_draftsAt {trees : List Tree}
    (hplaces : (elementsOf trees).Pairwise (·.offset < ·.offset)) :
    ∀ n ≤ (extentsOf masked trees).length,
      settle masked n (draftsAt masked (extentsOf masked trees) n) =
        some ((extentsOf masked trees).map Extent.settled)
  | 0, _ => rfl
  | n + 1, hn => by
    have hstop := stopFrom?_draftsAt hn hplaces
    rw [settle, getElem?_draftsAt masked hn]
    simp only [Option.bind_eq_bind, Option.bind_some, hstop]
    exact set_draftsAt masked hn ▸ settle_draftsAt hplaces n (Nat.le_of_succ_le hn)

/-- **The second pass goes through, and finds the extents.** -/
theorem settle_drafts {trees : List Tree}
    (hplaces : (elementsOf trees).Pairwise (·.offset < ·.offset)) :
    settle masked (extentsOf masked trees).length
        ((extentsOf masked trees).map (Extent.draft masked)) =
      some ((extentsOf masked trees).map Extent.settled) := by
  have hall : settle masked _ (draftsAt masked (extentsOf masked trees) _) = _ :=
    settle_draftsAt hplaces _ (Nat.le_refl _)
  rwa [draftsAt, List.take_length, List.drop_length, List.map_nil, List.append_nil] at hall

end Settle

/-! ## Nodes in their places -/

/-- The node stands in a source behind a text: its fragment is written there, from a `<` on, and its
lines are counted up to there, behind those before the source. -/
structure Node.Stands (node : Node) (source : List Char) (lineOffset : Int) (before : List Char) :
    Prop where
  written : ∃ after, source = before ++ (node.fragment.toList ++ after)
  opens : node.fragment.toList.head? = some '<'
  line : node.line = lineFeeds before + 1 + lineOffset
  endLine : node.endLine = node.line + lineFeeds node.fragment.toList

/-- What the index of a source says of an extent. -/
structure Node.Sound (node : Node) (source : String) (lineOffset : Int) (e : Extent) : Prop where
  own : node = e.node source.toList lineOffset node.order
  start : e.start = e.element.offset
  stands : node.Stands source.toList lineOffset (source.toList.take e.start)
  stop : e.start + node.fragment.toList.length = e.stop
  below : lineOffset + 1 ≤ node.line
  /-- Its descendants come right behind it. -/
  behind : extentsOf (mask source.toList) e.children <+: (spansOf source).drop (node.order + 1)
  /-- Its end tag ends it, if there is one. -/
  closed : ∀ stop, endOf? (mask source.toList) e.element = some stop → e.stop = stop
  /-- Else the last of its start tag's end and the ends of its descendants does. -/
  unclosed : endOf? (mask source.toList) e.element = none →
    IsGreatest {stop | stop = startTagStop (mask source.toList) e.element ∨
      ∃ d ∈ extentsOf (mask source.toList) e.children, stop = d.stop} e.stop

/-- A `<` of the masked text is one of the source. -/
theorem getElem?_of_mask {source : List Char} {place : Nat}
    (h : (mask source)[place]? = some '<') : source[place]? = some '<' := by
  have hlt := (List.getElem?_eq_some_iff.mp h).1
  rw [length_mask] at hlt
  have hc : source[place]? = some source[place] := List.getElem?_eq_getElem hlt
  obtain ⟨m, hm, hcases⟩ := getElem?_mask hc
  obtain rfl : m = '<' := Option.some.inj (hm.symm.trans h)
  rcases hcases with hsame | hblank | ⟨hquote, -⟩
  · rw [hc, ← hsame]
  · unfold blank at hblank
    split at hblank
    next => rw [hc, ← hblank]
    next => exact absurd hblank (by decide)
  · exact absurd hquote (by decide)

/-- The last of a place and some ends. -/
theorem isGreatest_foldl_max (inner : List Extent) (start : Nat) :
    IsGreatest {stop | stop = start ∨ ∃ d ∈ inner, stop = d.stop}
      (inner.foldl (fun stop d => max stop d.stop) start) := by
  have hbound := foldl_max_le_iff.mp
    (Nat.le_refl (inner.foldl (fun stop d => max stop d.stop) start))
  refine ⟨?_, ?_⟩
  · clear hbound
    induction inner generalizing start with
    | nil => exact .inl rfl
    | cons d inner ih =>
      rcases ih (max start d.stop) with hstart | ⟨d', hd', hstop⟩
      · rw [List.foldl_cons, hstart]
        rcases Nat.le_total start d.stop with hle | hle
        · exact .inr ⟨d, List.mem_cons_self, Nat.max_eq_right hle⟩
        · exact .inl (Nat.max_eq_left hle)
      · exact .inr ⟨d', List.mem_cons_of_mem d hd', hstop⟩
  · rintro stop (rfl | ⟨d, hd, rfl⟩)
    · exact hbound.1
    · exact hbound.2 d hd

theorem extents_of_spansOf {source : String} {order : Nat} {e : Extent}
    (h : (spansOf source)[order]? = some e) : ∃ trees,
      parseTrees (mask source.toList) = .ok trees ∧
        spansOf source = extentsOf (mask source.toList) trees := by
  unfold spansOf at h ⊢
  split at h
  next trees htrees => exact ⟨trees, htrees, rfl⟩
  next => exact absurd h (by simp)

/-- A node of an index that is the node of an extent, is sound. -/
theorem sound_node {source : String} {order : Nat} {e : Extent}
    (h : (spansOf source)[order]? = some e) (lineOffset : Int) :
    (e.node source.toList lineOffset order).Sound source lineOffset e := by
  obtain ⟨trees, htrees, hspans⟩ := extents_of_spansOf h
  have hget := hspans ▸ h
  have he : e ∈ extentsOf (mask source.toList) trees := List.mem_of_getElem? hget
  have hown := extent_eq he
  have hstart : e.start = e.element.offset := congrArg Extent.start hown
  have hstop := congrArg Extent.stop hown
  have hlength := length_mask source.toList
  have hopens : source.toList[e.start]? = some '<' := by
    rw [hstart]
    refine getElem?_of_mask ((sited_parseTrees htrees).2 _ ?_).opens
    exact map_element_extentsOf (mask source.toList) trees ▸ List.mem_map_of_mem he
  obtain ⟨-, hbefore⟩ := extentsOf_bounds
    (fun element helement => ((sited_parseTrees htrees).2 element helement).lt) e he
  have hend := stop_le he
  have hfragment : (e.node source.toList lineOffset order).fragment.toList =
      (source.toList.drop e.start).take (e.stop - e.start) := String.toList_ofList
  refine {
    own := rfl
    start := hstart
    stands := ⟨⟨source.toList.drop e.stop, ?_⟩, ?_, rfl, by rw [hfragment]; rfl⟩
    stop := ?_
    below := ?_
    behind := hspans ▸ prefix_drop_extentsOf trees hget
    closed := fun stop hclosed => ?_
    unclosed := fun hunclosed => ?_ }
  · have hsum : e.stop = e.start + (e.stop - e.start) := by omega
    rw [hfragment, ← List.append_assoc, ← List.take_add, ← hsum, List.take_append_drop]
  · rw [hfragment, List.head?_take, if_neg (by omega), List.head?_drop, hopens]
  · rw [hfragment, List.length_take, List.length_drop]
    omega
  · show lineOffset + 1 ≤ (lineFeeds (source.toList.take e.start) : Int) + 1 + lineOffset
    omega
  · rw [hstop]
    simp only [elementStop, hclosed, Option.getD_some]
  · rw [hstop]
    simp only [elementStop, hunclosed, Option.getD_none]
    exact isGreatest_foldl_max _ _

/-- Every node of an index is the sound node of an extent. -/
theorem exists_sound {source : String} {lineOffset : Int} {node : Node}
    (h : node ∈ (Index.ofSource source lineOffset).nodes) :
    ∃ e, (spansOf source)[node.order]? = some e ∧ node.Sound source lineOffset e := by
  rw [nodes_ofSource] at h
  obtain ⟨⟨e, order⟩, he, rfl⟩ := List.mem_map.mp h
  have hget : (spansOf source)[order]? = some e := List.mem_zipIdx_iff_getElem?.mp he
  exact ⟨e, hget, sound_node hget lineOffset⟩

/-- The lines of a node are a range, if they are lines. -/
theorem rangeOf?_of_lines {node : Node} (hfirst : 1 ≤ node.line)
    (hlast : node.line ≤ node.endLine) : ∃ range, Anchor.rangeOf? node = some range ∧
      range.extra = [] ∧ range.first = node.line ∧ range.last = node.endLine := by
  refine ⟨⟨node.line, node.endLine, [], hfirst, hlast⟩, ?_, rfl, rfl, rfl⟩
  unfold Anchor.rangeOf?
  rw [dif_pos hfirst, dif_pos hlast]

/-- **The index of any source is well formed**, however broken the source is and however many lines
stand before it.  The nodes are numbered in order.  The two passes over the elements find all ends:
the second one never lacks the end of a descendant.  And each node is sound: its fragment stands in
the source from the element's `<` on, its lines are counted right and are a range, and without an
end tag it ends with the last of its start tag and its descendants, which come right behind it. -/
theorem nodes_sound (source : String) (lines : Nat) :
    (Index.ofSource source lines).nodes.map Node.order = List.range (spansOf source).length ∧
    settle (mask source.toList) (spansOf source).length
        ((spansOf source).map (Extent.draft (mask source.toList))) =
      some ((spansOf source).map Extent.settled) ∧
    ∀ node ∈ (Index.ofSource source lines).nodes,
      (∃ e, (spansOf source)[node.order]? = some e ∧ node.Sound source lines e) ∧
      ∃ range, Anchor.rangeOf? node = some range ∧ range.extra = [] ∧ range.first = node.line ∧
        range.last = node.endLine := by
  refine ⟨?_, ?_, fun node hnode => ?_⟩
  · rw [nodes_ofSource, List.map_map]
    show (spansOf source).zipIdx.map Prod.snd = _
    rw [List.zipIdx_map_snd, List.range_eq_range']
  · unfold spansOf
    split
    next trees htrees => exact settle_drafts (sited_parseTrees htrees).1
    next => rfl
  · obtain ⟨e, hget, hsound⟩ := exists_sound hnode
    have hfirst := hsound.below
    have hlast := hsound.stands.endLine
    exact ⟨⟨e, hget, hsound⟩, rangeOf?_of_lines (by omega) (by omega)⟩

end Mooring.Markup
