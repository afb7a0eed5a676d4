import Mooring.Markup.Index
import Mooring.Proofs.Markup.Mask
import Mooring.Proofs.Markup.Reported

/-!
# Elements are indexed exactly

The index of a well-formed document has one node for each element, in document order, and the
fragment of the node is the element: from the `<` of its start tag to the `>` of its own end tag, or
of its start tag if it has no other.  The node's lines are those of these two characters
(`nodes_of_document`).

This needs that the elements are reported where they stand; the rest is the library's own work.
Masking leaves such a document alone, since no brace stands in its tags outside quotes
(`mask_renderAll`), and the extent of an element runs up to where the scan for its end stops
(`stop_of_mem_extentsOf`), which is right behind the element (`IsElement.afterElement?`).
-/

namespace Mooring.Markup

open Mooring.Text

/-! ## Nothing to mask -/

/-- From one state, masking leaves a text as it is and goes on in another state. -/
def Unmasked (state : TagState) (cs : List Char) (state' : TagState) : Prop :=
  ∀ previous rest, ∃ previous',
    maskFrom state previous (cs ++ rest) = cs ++ maskFrom state' previous' rest

namespace Unmasked

variable {state state₁ state' : TagState} {cs more : List Char}

theorem nil (state : TagState) : Unmasked state [] state :=
  fun previous _ => ⟨previous, rfl⟩

theorem append (h : Unmasked state cs state₁) (hmore : Unmasked state₁ more state') :
    Unmasked state (cs ++ more) state' := by
  intro previous rest
  obtain ⟨previous₁, hcs⟩ := h previous (more ++ rest)
  obtain ⟨previous', hmore'⟩ := hmore previous₁ rest
  exact ⟨previous', by rw [List.append_assoc, hcs, hmore', List.append_assoc]⟩

/-- A character that opens no expression is left as it is. -/
theorem cons {c : Char} (hbrace : state = .inside → c ≠ '\x7b')
    (hafter : ∀ rest, state.after c (cs ++ rest) = state₁) (h : Unmasked state₁ cs state') :
    Unmasked state (c :: cs) state' := by
  intro previous rest
  obtain ⟨previous', hcs⟩ := h (solid previous c) rest
  have hnone : opened? state previous c (cs ++ rest) = none := by
    unfold opened?
    refine if_neg fun hboth => ?_
    obtain ⟨hinside, hc⟩ := Bool.and_eq_true_iff.mp hboth
    exact hbrace (of_decide_eq_true hinside) (eq_of_beq hc)
  refine ⟨previous', ?_⟩
  rw [List.cons_append, maskFrom, hnone]
  dsimp only
  rw [hafter, hcs]
  rfl

/-- Characters that keep the state are left as they are. -/
theorem run : ∀ {cs : List Char}, (∀ c ∈ cs, (state = .inside → c ≠ '\x7b') ∧
    ∀ rest, state.after c rest = state) → Unmasked state cs state
  | [], _ => nil state
  | _ :: _, h => by
    obtain ⟨hc, hcs⟩ := List.forall_mem_cons.mp h
    exact cons hc.1 (fun rest => hc.2 _) (run hcs)

theorem outside (h : '<' ∉ cs) : Unmasked .outside cs .outside :=
  run fun c hc => ⟨fun heq => TagState.noConfusion heq, fun rest => by
    have hne : (c == '<') = false := beq_eq_false_iff_ne.mpr fun heq => h (heq ▸ hc)
    rw [TagState.after, hne]
    rfl⟩

theorem inside (h : ∀ c ∈ cs, Passable c) : Unmasked .inside cs .inside :=
  run fun c hc => ⟨fun _ => (h c hc).brace, fun rest => by
    simp [TagState.after, (h c hc).double, (h c hc).single, (h c hc).mark]⟩

/-- A value in quotes is left as it is, braces and all. -/
theorem value (h : '"' ∉ cs) : Unmasked .inside ('"' :: (cs ++ ['"'])) .inside := by
  have hcs : Unmasked (.inValue '"') cs (.inValue '"') :=
    run fun c hc => ⟨fun heq => TagState.noConfusion heq, fun rest => by
      have hne : (c == '"') = false := beq_eq_false_iff_ne.mpr fun heq => h (heq ▸ hc)
      rw [TagState.after, hne]
      rfl⟩
  have hclose : Unmasked (.inValue '"') ['"'] .inside :=
    cons (fun heq => TagState.noConfusion heq) (fun _ => rfl) (nil _)
  exact cons (fun _ => by decide) (fun _ => rfl) (hcs.append hclose)

end Unmasked

theorem TagAttribute.unmasked (a : TagAttribute) : Unmasked .inside a.render .inside := by
  have hgap : Unmasked .inside a.gap .inside :=
    .inside fun c hc => passable_of_isBlank (a.gap_blank c hc)
  have hname : Unmasked .inside a.name .inside :=
    .inside fun c hc => passable_of_isLowNameChar (a.name_low.chars c hc)
  have hvalue : Unmasked .inside (renderValue a.value) .inside := by
    cases hsome : a.value with
    | none => exact .nil .inside
    | some value =>
      refine .cons (fun _ => by decide) (fun _ => rfl) (.value fun hmem => ?_)
      exact (a.value_plain value hsome _ hmem).1 rfl
  exact hgap.append (hname.append hvalue)

theorem unmasked_attributes (attributes : List TagAttribute) :
    Unmasked .inside (attributes.flatMap TagAttribute.render) .inside := by
  induction attributes with
  | nil => exact .nil .inside
  | cons a later ih => exact a.unmasked.append ih

theorem Tag.unmasked_inner (tag : Tag) : Unmasked .inside tag.inner .inside :=
  (unmasked_attributes tag.attributes).append
    (.inside fun c hc => passable_of_isBlank (tag.gap_blank c hc))

/-- A start tag holds no expression. -/
theorem Tag.unmasked_opening (tag : Tag) (slash : Bool) :
    Unmasked .outside (tag.opening slash) .outside := by
  obtain ⟨c, name, hname, hc⟩ := tag.name_low.isAsciiLetter_first
  have hletter := isLetter_of_isAsciiLetter hc
  have hend : Unmasked .inside (tagEnd slash) .outside := by
    have hmark : Unmasked .inside ['>'] .outside :=
      .cons (fun _ => by decide) (fun _ => rfl) (.nil _)
    cases slash with
    | false => exact hmark
    | true => exact .cons (fun _ => by decide) (fun _ => rfl) hmark
  have hlow : Unmasked .inside tag.name .inside :=
    .inside fun c hc => passable_of_isLowNameChar (tag.name_low.chars c hc)
  refine .cons (fun heq => TagState.noConfusion heq) (fun rest => ?_)
    (hlow.append (tag.unmasked_inner.append hend))
  rw [hname]
  show (if isLetter c then TagState.inside else .outside) = _
  rw [if_pos hletter]

/-- An end tag holds no expression: the scan does not take it for a tag. -/
theorem Tag.unmasked_ending (tag : Tag) : Unmasked .outside tag.ending .outside := by
  refine .cons (fun heq => TagState.noConfusion heq) (fun _ => rfl) (.outside ?_)
  intro hmem
  rcases List.mem_cons.mp hmem with hslash | hmem
  · exact absurd hslash (by decide)
  · rcases List.mem_append.mp hmem with hmem | hmem
    · exact tag.not_mem_name (by decide) hmem
    · exact absurd hmem (by decide)

theorem unmasked_tokens (tokens : List Token) :
    Unmasked .outside (tokens.flatMap Token.render) .outside := by
  induction tokens with
  | nil => exact .nil .outside
  | cons token rest ih =>
    refine Unmasked.append ?_ ih
    cases token with
    | text chars plain => exact .outside fun hmem => (plain _ hmem).1 rfl
    | opening tag slash => exact tag.unmasked_opening slash
    | ending tag => exact tag.unmasked_ending

/-- **Masking leaves a well-formed document alone.** -/
theorem mask_renderAll (document : List Item) : mask (renderAll document) = renderAll document := by
  obtain ⟨previous, hmask⟩ := unmasked_tokens (tokensOf document) none []
  rwa [flatMap_tokensOf, List.append_nil, maskFrom, List.append_nil] at hmask

/-! ## Extents -/

mutual

theorem stop_of_mem_extents {masked : List Char} {e : Extent} : ∀ {part : Tree},
    e ∈ extents masked part → e.start = e.element.offset ∧
      ∀ after, afterElement? e.element.name (masked.drop e.element.offset) = some after →
        e.stop = masked.length - after.length
  | .text .., he => absurd he (by simp [extents])
  | .element element children, he => by
    rw [extents] at he
    rcases List.mem_cons.mp he with rfl | hinner
    · refine ⟨rfl, fun after hafter => ?_⟩
      dsimp only at hafter ⊢
      rw [hafter]
    · exact stop_of_mem_extentsOf hinner

/-- **An extent runs from its element's `<` to where the scan for the element's end stops.** -/
theorem stop_of_mem_extentsOf {masked : List Char} {e : Extent} : ∀ {parts : List Tree},
    e ∈ extentsOf masked parts → e.start = e.element.offset ∧
      ∀ after, afterElement? e.element.name (masked.drop e.element.offset) = some after →
        e.stop = masked.length - after.length
  | [], he => absurd he (by simp [extentsOf])
  | part :: rest, he => by
    rw [extentsOf] at he
    rcases List.mem_append.mp he with hpart | hrest
    · exact stop_of_mem_extents hpart
    · exact stop_of_mem_extentsOf hrest

end

/-! ## Nodes -/

/-- The line on which an element starts, from 1. -/
def Standing.line (s : Standing) : Nat :=
  lineFeeds s.before + 1

/-- The line of an element's last character, from 1. -/
def Standing.lastLine (s : Standing) : Nat :=
  lineFeeds (s.before ++ s.text.dropLast) + 1

/-- The node of an element where it stands. -/
theorem node_of_standing {document : List Item} {trees : List Tree} {e : Extent} {s : Standing}
    (he : e ∈ extentsOf (renderAll document) trees) (hs : s ∈ standingsOf [] [] document)
    (hplace : e.element.place = s.place) (lineOffset : Int) (order : Nat) :
    let node := e.node (renderAll document) lineOffset order
    node.tag = String.ofList s.name ∧ node.fragment = String.ofList s.text ∧
      node.line = lineOffset + s.line ∧ node.endLine = lineOffset + s.lastLine := by
  have hwhole := whole_of_mem_standingsOf hs
  rw [List.nil_append, List.append_nil] at hwhole
  have helement := isElement_of_mem_standingsOf hs
  obtain ⟨hname, hoffset⟩ := Prod.mk.inj hplace
  obtain ⟨hstart, hstop⟩ := stop_of_mem_extentsOf he
  rw [hoffset] at hstart
  have hend : e.stop - e.start = s.text.length := by
    rw [hstop s.after ?_, hstart, ← hwhole]
    · simp only [List.length_append]
      omega
    · rw [← hwhole, hoffset, List.drop_left, hname]
      exact helement.afterElement? s.after
  have hfragment : ((renderAll document).drop e.start).take (e.stop - e.start) = s.text := by
    rw [hend, hstart, ← hwhole, List.drop_left, List.take_left]
  have hbefore : (renderAll document).take e.start = s.before := by
    rw [hstart, ← hwhole, List.take_left]
  -- The last character is no line feed, so the lines of the text end with it.
  have hfeeds : lineFeeds s.text = lineFeeds s.text.dropLast := by
    obtain ⟨front, hfront⟩ := helement.exists_front
    rw [hfront, List.dropLast_concat, lineFeeds, List.count_append]
    rfl
  have hlast : s.lastLine = s.line + lineFeeds s.text := by
    rw [hfeeds, Standing.lastLine, Standing.line, lineFeeds, List.count_append]
    exact Nat.add_right_comm _ _ _
  refine ⟨hname, congrArg String.ofList hfragment, ?_, ?_⟩
  · simp only [Extent.node, hbefore, Standing.line]
    omega
  · simp only [Extent.node, hbefore, hfragment, hlast, Standing.line]
    omega

/-- **The nodes of a well-formed document are its elements**, if these are reported. -/
theorem nodes_of_document {document : List Item} (h : Reported document) (lineOffset : Int) :
    ((Index.ofSource (String.ofList (renderAll document)) lineOffset).nodes.map fun node =>
        (node.tag, node.fragment, node.line, node.endLine)) =
      ((standingsOf [] [] document).map fun s =>
        (String.ofList s.name, String.ofList s.text, lineOffset + (s.line : Int),
          lineOffset + (s.lastLine : Int))) ∧
    ∀ s ∈ standingsOf [] [] document,
      s.before ++ (s.text ++ s.after) = renderAll document ∧
        afterElement? (String.ofList s.name) (s.text ++ s.after) = some s.after := by
  obtain ⟨trees, htrees, hplaces⟩ := h
  rw [← map_element_extentsOf (renderAll document), List.map_map] at hplaces
  refine ⟨?_, fun s hs => ⟨?_, (isElement_of_mem_standingsOf hs).afterElement? s.after⟩⟩
  · have hnodes : (Index.ofSource (String.ofList (renderAll document)) lineOffset).nodes =
        (extentsOf (renderAll document) trees).zipIdx.map fun pair =>
          pair.1.node (renderAll document) lineOffset pair.2 := by
      unfold Index.ofSource
      dsimp only
      rw [String.toList_ofList, mask_renderAll, htrees]
      rfl
    have hlength := congrArg List.length hplaces
    rw [List.length_map, List.length_map] at hlength
    rw [hnodes]
    refine List.ext_getElem (by simpa using hlength) fun i hi hi' => ?_
    obtain ⟨hextent, hstanding⟩ : i < (extentsOf (renderAll document) trees).length ∧
        i < (standingsOf [] [] document).length := by
      rw [List.length_map] at hi'
      exact ⟨hlength ▸ hi', hi'⟩
    have hplace : (extentsOf (renderAll document) trees)[i].element.place =
        (standingsOf [] [] document)[i].place := by
      have hsame := List.getElem_of_eq hplaces (by rw [List.length_map]; exact hextent)
      rwa [List.getElem_map, List.getElem_map] at hsame
    obtain ⟨hname, hfragment, hline, hlast⟩ := node_of_standing
      (List.getElem_mem hextent) (List.getElem_mem hstanding) hplace lineOffset i
    simp only [List.getElem_map, List.getElem_zipIdx, Nat.zero_add, hname, hfragment, hline, hlast]
  · have hwhole := whole_of_mem_standingsOf hs
    rwa [List.nil_append, List.append_nil] at hwhole

/-- A tag of a section, without attributes. -/
def sectionTag : Tag where
  name := ['d', 'i', 'v']
  attributes := []
  gap := []
  name_low := ⟨⟨'d', ['i', 'v'], rfl, by decide⟩, List.all_eq_true.mp (by decide)⟩
  not_raw := by decide
  gap_blank := List.all_eq_true.mp (by decide)

/-- A tag of a section over two lines, with a `>` in its title. -/
def titledTag : Tag :=
  sectionTag.withAttributes [{
    gap := ['\n', ' ']
    name := ['t', 'i', 't', 'l', 'e']
    value := some ['a', '>', 'b']
    gap_ne_nil := by decide
    gap_blank := List.all_eq_true.mp (by decide)
    name_low := ⟨⟨'t', ['i', 't', 'l', 'e'], rfl, by decide⟩, List.all_eq_true.mp (by decide)⟩
    value_plain := fun v hv => by rw [← Option.some.inj hv]; simp }]

/-- A section in a section, the inner one empty, and a text in between. -/
def nestedSections : List Item :=
  [.text ['\n'] (by simp),
    .paired titledTag
      [.single sectionTag true (.inl rfl), .text ['x', '\n'] (by simp),
        .paired sectionTag [] (by decide)]
      (by decide)]

theorem nodes_of_document_nested :
    Reported nestedSections ∧
    ((Index.ofSource "\n<div\n title=\"a>b\"><div/>x\n<div></div></div>" 7).nodes.map fun node =>
        (node.tag, node.fragment, node.line, node.endLine)) =
      [("div", "<div\n title=\"a>b\"><div/>x\n<div></div></div>", 9, 11),
        ("div", "<div/>", 10, 10), ("div", "<div></div>", 11, 11)] := by
  have hreadable : Readable nestedSections := by decide
  have h := reported_of_readable hreadable
  refine ⟨h, ?_⟩
  exact (nodes_of_document h 7).1

end Mooring.Markup
