import Mooring.Markup.Index
import Mooring.Markup.Region
import Mooring.Proofs.Markup.Mask
import Mooring.Proofs.Markup.Places

/-!
# The nodes of an index

Whatever the source, each node of its index has a fragment that is not empty, stands on a line after
those before the source, and ends as many lines further on as its fragment has line feeds
(`node_of_ofSource`).

The first of these has two parts.  Each element stands at a `<` of the text (`sited_parseTrees`),
and the scan for an element's end stops behind a tag (`behind_afterElement?`).  So the extent of an
element is never empty (`extents_bounds`).
-/

namespace Mooring.Markup

open Mooring.Text

/-! ## The end of an element lies behind its start tag -/

/-- The text that is left is what stands behind a `>`, or nothing is left. -/
def BehindTag (cs rest : List Char) : Prop :=
  rest = [] ∨ '>' :: rest <:+ cs

namespace BehindTag

variable {cs more rest : List Char}

theorem of_suffix (h : BehindTag cs rest) (hcs : cs <:+ more) : BehindTag more rest :=
  h.imp_right fun hrest => hrest.trans hcs

theorem suffix (h : BehindTag cs rest) : rest <:+ cs := by
  rcases h with rfl | h
  · exact List.nil_suffix
  · exact (List.suffix_cons '>' rest).trans h

theorem length {c : Char} (h : BehindTag (c :: cs) rest) : rest.length ≤ cs.length := by
  rcases h with rfl | h
  · exact Nat.zero_le _
  · exact Nat.le_of_succ_le_succ h.length_le

end BehindTag

theorem behind_afterTagFrom (quote : Option Char) (last : Char) (cs : List Char) :
    BehindTag cs (afterTagFrom quote last cs).1 := by
  fun_induction afterTagFrom quote last cs with
  | case1 => exact .inl rfl
  | case2 last c rest last' q ih => exact ih.of_suffix (List.suffix_cons c rest)
  | case3 last c rest last' hc ih => exact ih.of_suffix (List.suffix_cons c rest)
  | case4 last c rest hc hend =>
    obtain rfl : c = '>' := eq_of_beq hend
    exact .inr (List.suffix_refl _)
  | case5 last c rest last' hc hend ih => exact ih.of_suffix (List.suffix_cons c rest)

theorem behind_afterStartTag (cs : List Char) : BehindTag cs (afterStartTag cs).1 := by
  cases cs with
  | nil => exact .inl rfl
  | cons c rest => exact (behind_afterTagFrom none c rest).of_suffix (List.suffix_cons c rest)

theorem behind_afterFirst? (cs : List Char) :
    BehindTag cs ((afterFirst? (· == '>') cs).getD []) := by
  induction cs with
  | nil => exact .inl rfl
  | cons c rest ih =>
    rw [afterFirst?]
    split
    next hc => exact .inr (by rw [eq_of_beq hc]; exact List.suffix_refl _)
    next => exact ih.of_suffix (List.suffix_cons c rest)

theorem suffix_afterName? : ∀ (name cs after : List Char),
    afterName? name cs = some after → after <:+ cs := by
  intro name
  induction name with
  | nil =>
    intro cs after h
    exact Option.some.inj h ▸ List.suffix_refl _
  | cons n name ih =>
    intro cs after h
    cases cs with
    | nil => exact absurd h (by simp [afterName?])
    | cons c rest =>
      rw [afterName?] at h
      split at h
      · exact (ih rest after h).trans (List.suffix_cons c rest)
      · exact absurd h (by simp)

theorem suffix_tagNamed? {name cs after : List Char} {closing : Bool}
    (h : tagNamed? name cs = some (closing, after)) : after <:+ cs := by
  have found : ∀ {rest : List Char} {closing' : Bool},
      ((afterName? name rest).filter endsTagName).map (fun after => (closing', after)) =
        some (closing, after) → after <:+ rest := by
    intro rest closing' h
    obtain ⟨after', hafter, heq⟩ := Option.map_eq_some_iff.mp h
    obtain ⟨-, rfl⟩ := Prod.mk.inj heq
    exact suffix_afterName? name rest after' (Option.filter_eq_some_iff.mp hafter).1
  unfold tagNamed? at h
  split at h
  next rest => exact (found h).trans (List.drop_suffix 2 ('<' :: '/' :: rest))
  next rest hslash => exact (found h).trans (List.suffix_cons '<' rest)
  next => exact absurd h (by simp)

/-- The next tag of a name lies in the text. -/
theorem suffix_nextTag (name cs : List Char) :
    (∀ after, nextTag name cs = .closing after → after <:+ cs) ∧
      ∀ here, nextTag name cs = .opening here → here <:+ cs := by
  fun_induction nextTag name cs with
  | case1 => exact ⟨fun _ h => NextTag.noConfusion h, fun _ h => NextTag.noConfusion h⟩
  | case2 c rest after htag =>
    refine ⟨fun found h => ?_, fun _ h => NextTag.noConfusion h⟩
    -- A closing tag was found here; its end lies behind it.
    rw [← NextTag.closing.inj h]
    exact suffix_tagNamed? htag
  | case3 c rest after htag =>
    refine ⟨fun _ h => NextTag.noConfusion h, fun found h => ?_⟩
    exact NextTag.opening.inj h ▸ List.suffix_refl _
  | case4 c rest htag ih =>
    exact ⟨fun after h => (ih.1 after h).trans (List.suffix_cons c rest),
      fun here h => (ih.2 here h).trans (List.suffix_cons c rest)⟩

theorem behind_afterEndTag? (name : List Char) : ∀ (fuel depth : Nat) (cs rest : List Char),
    afterEndTag? name fuel depth cs = some rest → BehindTag cs rest := by
  intro fuel
  induction fuel with
  | zero => intro depth cs rest h; exact absurd h (by simp [afterEndTag?])
  | succ fuel ih =>
    intro depth cs rest h
    have hnext := suffix_nextTag name cs
    rw [afterEndTag?] at h
    split at h
    next => exact absurd h (by simp)
    next after htag =>
      have hpast := (behind_afterFirst? after).of_suffix (hnext.1 after htag)
      dsimp only at h
      split at h
      · exact Option.some.inj h ▸ hpast
      · exact (ih _ _ rest h).of_suffix hpast.suffix
    next here htag =>
      have hpast := (behind_afterStartTag here).of_suffix (hnext.2 here htag)
      exact (ih _ (afterStartTag here).1 rest h).of_suffix hpast.suffix

/-- **An element ends behind a tag**, or with the text. -/
theorem behind_afterElement? {name : String} {cs rest : List Char}
    (h : afterElement? name cs = some rest) : BehindTag cs rest := by
  have hstart := behind_afterStartTag cs
  unfold afterElement? at h
  dsimp only at h
  split at h
  · exact Option.some.inj h ▸ hstart
  · exact (behind_afterEndTag? _ _ _ _ rest h).of_suffix hstart.suffix

/-! ## No extent is empty -/

theorem foldl_max_le_iff {α : Type} {f : α → Nat} {bound : Nat} : ∀ {xs : List α} {start : Nat},
    xs.foldl (fun stop x => max stop (f x)) start ≤ bound ↔ start ≤ bound ∧ ∀ x ∈ xs, f x ≤ bound
  | [], start => by simp
  | x :: xs, start => by
    rw [List.foldl_cons, foldl_max_le_iff, Nat.max_le, List.forall_mem_cons, and_assoc]

mutual

/-- The extents of a part's elements end after their start. -/
theorem extents_bounds {masked : List Char} : ∀ {part : Tree},
    (∀ element ∈ part.elements, element.offset < masked.length) →
    ∀ e ∈ extents masked part, e.start < masked.length ∧ e.start < e.stop
  | .text .., _, e, he => absurd he (by simp [extents])
  | .element element children, h, e, he => by
    rw [Tree.elements] at h
    obtain ⟨hoffset, hchildren⟩ := List.forall_mem_cons.mp h
    rw [extents] at he
    rcases List.mem_cons.mp he with rfl | hinner
    · refine ⟨hoffset, ?_⟩
      -- The text there is not empty, and each end lies behind its first character.
      obtain ⟨c, rest, hhere⟩ : ∃ c rest, masked.drop element.offset = c :: rest :=
        List.exists_cons_of_length_pos (by rw [List.length_drop]; omega)
      have hlength := congrArg List.length hhere
      rw [List.length_drop, List.length_cons] at hlength
      show element.offset < _
      rw [hhere]
      split
      next after hafter =>
        have hend := (behind_afterElement? hafter).length
        show element.offset < masked.length - after.length
        omega
      next =>
        have hend := (behind_afterStartTag (c :: rest)).length
        refine Nat.lt_of_lt_of_le ?_ (foldl_max_le_iff.mp (Nat.le_refl _)).1
        omega
    · exact extentsOf_bounds hchildren e hinner

theorem extentsOf_bounds {masked : List Char} : ∀ {parts : List Tree},
    (∀ element ∈ elementsOf parts, element.offset < masked.length) →
    ∀ e ∈ extentsOf masked parts, e.start < masked.length ∧ e.start < e.stop
  | [], _, e, he => absurd he (by simp [extentsOf])
  | part :: rest, h, e, he => by
    rw [elementsOf] at h
    obtain ⟨hpart, hrest⟩ := List.forall_mem_append.mp h
    rw [extentsOf] at he
    rcases List.mem_append.mp he with hmem | hmem
    · exact extents_bounds hpart e hmem
    · exact extentsOf_bounds hrest e hmem

end

/-! ## The nodes -/

/-- A node comes from the extent of an element. -/
theorem exists_extent_of_ofSource {source : String} {lineOffset : Int} {node : Node}
    (h : node ∈ (Index.ofSource source lineOffset).nodes) : ∃ trees e order,
      parseTrees (mask source.toList) = .ok trees ∧
        e ∈ extentsOf (mask source.toList) trees ∧
        node = e.node source.toList lineOffset order := by
  unfold Index.ofSource at h
  dsimp only at h
  split at h
  next trees htrees =>
    unfold Index.ofTrees at h
    obtain ⟨⟨e, order⟩, he, rfl⟩ := List.mem_map.mp h
    exact ⟨trees, e, order, htrees, List.fst_mem_of_mem_zipIdx he, rfl⟩
  next => exact absurd h (by simp)

/-- **The nodes of a source.**  The fragment of a node is not empty, the node stands after the lines
before the source, and it ends as many lines further on as its fragment has line feeds. -/
theorem node_of_ofSource {source : String} {lineOffset : Int} {node : Node}
    (h : node ∈ (Index.ofSource source lineOffset).nodes) :
    node.fragment ≠ "" ∧ lineOffset + 1 ≤ node.line ∧
      node.endLine = node.line + lineFeeds node.fragment.toList := by
  obtain ⟨trees, e, order, htrees, he, rfl⟩ := exists_extent_of_ofSource h
  obtain ⟨hstart, hstop⟩ := extentsOf_bounds
    (fun element helement => ((sited_parseTrees htrees).2 element helement).lt) e he
  rw [length_mask] at hstart
  refine ⟨fun hempty => ?_, ?_, ?_⟩
  · have hlength := congrArg (List.length ∘ String.toList) hempty
    simp only [Extent.node, Function.comp, String.toList_ofList, List.length_take,
      List.length_drop] at hlength
    have : ("" : String).toList.length = 0 := rfl
    omega
  · simp only [Extent.node]
    omega
  · simp only [Extent.node, String.toList_ofList]

/-- The tag and the attributes of a node are those of a start tag. -/
theorem readStartTag_of_ofSource {source : String} {lineOffset : Int} {node : Node}
    (h : node ∈ (Index.ofSource source lineOffset).nodes) :
    ∃ tag cs rest, readStartTag cs = .tag tag rest ∧ node.tag = tag.name ∧
      node.attrs = elementAttributes tag.name tag.attributes := by
  obtain ⟨trees, e, order, htrees, he, rfl⟩ := exists_extent_of_ofSource h
  have helement : e.element ∈ elementsOf trees := by
    rw [← map_element_extentsOf]
    exact List.mem_map_of_mem he
  obtain ⟨tag, rest, hread, hsame⟩ := ((sited_parseTrees htrees).2 _ helement).read
  exact ⟨tag, _, rest, hread, congrArg Element.name hsame, congrArg Element.attributes hsame⟩

/-- Lines cut out of a source do not stand before its first line. -/
theorem sliceLines_offset (source : String) (first last : Int) :
    0 ≤ (sliceLines source first last).2 := by
  unfold sliceLines
  dsimp only
  split
  · exact Int.le_refl 0
  · show 0 ≤ max 1 _ - 1
    omega

end Mooring.Markup
