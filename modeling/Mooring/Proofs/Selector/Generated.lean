import Mooring.Pattern.Safe
import Mooring.Proofs.Markup.Nodes
import Mooring.Proofs.Selector.Reading
import Mooring.Proofs.Text.LowName

/-!
# A generated selector describes its element

Whatever selector is generated for an element of a source, under any preference, reading it gives a
shape that demands something, and the element meets all that it demands (`generate_describes`).  It
takes values, a role and a text that can be written into a selector as they are (`Quotable`).

There is one lemma for each way to describe an element: by test identifier, identifier, role or
label, text, class, and tag with name or type.  Preferring strategies only changes the order of the
selectors (`mem_generate_iff`).

The class is looked up under two names, and only one of them counts for the element.  The other one
has a capital in it, so no element has it (`get?_className`).
-/

namespace Mooring

namespace Table

variable {α : Type}

theorem get?_ofPairs_of_not_mem {name : String} {pairs : List (String × α)}
    (h : ∀ pair ∈ pairs, pair.1 ≠ name) : get? name (ofPairs pairs) = none :=
  get?_union_of_not_mem h []

theorem exists_of_mem_ofPairs {pair : String × α} {pairs : List (String × α)}
    (h : pair ∈ ofPairs pairs) : ∃ first ∈ pairs, first.1 = pair.1 := by
  by_contra hnone
  have hget := get?_ofPairs_of_not_mem fun first hfirst heq => hnone ⟨first, hfirst, heq⟩
  have hhas := has_of_mem h
  rw [has, hget] at hhas
  exact absurd hhas (by simp)

end Table

namespace Markup

open Mooring.Text

/-- **No element has an attribute with a capital in its name.** -/
theorem get?_className {source : String} {lineOffset : Int} {node : Node}
    (h : node ∈ (Index.ofSource source lineOffset).nodes) :
    node.attrs.get? "className" = none := by
  obtain ⟨tag, cs, rest, hread, -, hattrs⟩ := readStartTag_of_ofSource h
  have hlow : ∀ pair ∈ tag.attributes, ∃ name, pair.1 = String.ofList (lower name) := by
    unfold readStartTag at hread
    split at hread
    next => exact absurd hread (by simp)
    next =>
      split at hread
      next => exact absurd hread (by simp)
      next =>
        dsimp only at hread
        split at hread
        next =>
          rw [← (StartTag.tag.inj hread).1]
          intro pair hpair
          obtain ⟨found, -, rfl⟩ := List.mem_map.mp hpair
          exact ⟨found.name, rfl⟩
        next => exact absurd hread (by simp)
  rw [hattrs, elementAttributes]
  refine Table.get?_ofPairs_of_not_mem fun pair hpair => ?_
  obtain ⟨tidied, htidied, rfl⟩ := List.mem_map.mp hpair
  obtain ⟨first, hfirst, rfl⟩ := List.mem_map.mp htidied
  obtain ⟨given, hgiven, hname⟩ := Table.exists_of_mem_ofPairs hfirst
  obtain ⟨name, hlower⟩ := hlow given hgiven
  intro heq
  -- A usual name is the name itself or one without capitals.
  have hself : first.1 = "className" := by
    have husual : usualName first.1 = "className" := heq
    unfold usualName at husual
    split at husual
    · exact absurd husual (by decide)
    · exact absurd husual (by decide)
    · exact husual
  have hcapital : 'N' ∈ lower name := by
    have hchars : "className".toList = lower name := by
      rw [← String.toList_ofList (l := lower name), ← hlower, hname, hself]
    rw [← hchars]
    decide
  exact absurd (isSmall_of_mem_lowerFrom hcapital) (by decide)

end Markup

namespace Selector

open Mooring.Markup Mooring.Text

/-! ## What makes an element describable -/

/-- The element can be written into selectors as it is. -/
structure Quotable (node : Node) : Prop where
  tag : LowName node.tag.toList
  /-- The values of attributes hold no quotes, backslashes and line feeds. -/
  values : ∀ name value, node.attrs.get? name = some value → Inert value.toList
  role : ∀ role, node.attrs.get? "role" = some role → ∀ c ∈ role.toList, isNameChar c = true
  /-- Neither does the text that a selector can use. -/
  text : ∀ text, node.leafText = some text → Inert text.toList
  /-- Nor does that text start or end with a blank. -/
  edges : ∀ text, node.leafText = some text →
    (∀ c, text.toList.head? = some c → isBlank c = false) ∧
      ∀ c, text.toList.getLast? = some c → isBlank c = false
  /-- It does not look like a pattern. -/
  slash : ∀ text, node.leafText = some text → text.toList.head? ≠ some '/'

/-- The shape demands something, and the element meets what it demands. -/
structure Describes (shape : Shape) (node : Node) : Prop where
  demands : shape.isEmpty = false
  tag : ∀ tag, shape.tag = some tag → String.ofList (lower tag.toList) = node.tag
  attrs : node.hasAttrs shape.constraints = true
  text : ∀ text, shape.text = some text → Pattern.textMatches text node.text = .ok true

/-- An element that is described is among those that are found by tag and attributes. -/
theorem Describes.mem_findByTagAndAttrs {shape : Shape} {node : Node} (h : Describes shape node)
    {index : Index} (hnode : node ∈ index.nodes) :
    node ∈ index.findByTagAndAttrs shape.tag shape.constraints := by
  refine List.mem_filter.mpr ⟨hnode, ?_⟩
  rw [h.attrs, Bool.and_true]
  cases htag : shape.tag with
  | none => rfl
  | some tag =>
    by_cases hempty : tag = ""
    · rw [hempty]
      rfl
    · have hfilled : (some tag).filter (· != "") = some tag :=
        Option.filter_eq_some_iff.mpr ⟨rfl, by simpa using hempty⟩
      rw [hfilled]
      exact beq_iff_eq.mpr (h.tag tag htag).symm

theorem get?_of_filled? {attrs : Table String} {name value : String}
    (h : filled? attrs name = some value) : attrs.get? name = some value ∧ value ≠ "" := by
  obtain ⟨hget, hfilled⟩ := Option.filter_eq_some_iff.mp h
  exact ⟨hget, by simpa using hfilled⟩

theorem testId?_eq_some {attrs : Table String} {name value : String}
    (h : testId? attrs = some (name, value)) :
    name ∈ testIdAttributes ∧ filled? attrs name = some value := by
  obtain ⟨found, hmem, hvalue⟩ := List.exists_of_findSome?_eq_some h
  obtain ⟨value', hfilled, hpair⟩ := Option.map_eq_some_iff.mp hvalue
  obtain ⟨rfl, rfl⟩ := Prod.mk.inj hpair
  exact ⟨hmem, hfilled⟩

/-- The element meets a demand for the value that it has. -/
theorem satisfies_self {node : Node} {name value : String}
    (hget : node.attrs.get? name = some value) (hclass : name ≠ "class") :
    node.satisfies name (some value) = true := by
  simp [Node.satisfies, hget, hclass]

/-- The attributes that selectors are generated with. -/
def describingNames : List String :=
  stableAttributeNames ++ ["type"]

theorem describingNames_plain {name : String} (h : name ∈ describingNames) :
    LowName name.toList ∧ name ≠ "id" ∧ name ≠ "role" ∧ name ≠ "class" := by
  have hall : (describingNames.all fun name =>
      name.toList.head?.any (fun c => 'a' ≤ c && c ≤ 'z') && name.toList.all isLowNameChar &&
        name != "id" && name != "role" && name != "class") = true := by
    decide +kernel
  have hname := List.all_eq_true.mp hall name h
  simp only [Bool.and_eq_true, Option.any_eq_true, List.head?_eq_some_iff, List.all_eq_true,
    bne_iff_ne] at hname
  obtain ⟨⟨⟨⟨⟨c, ⟨rest, hcons⟩, hfirst⟩, hchars⟩, hid⟩, hrole⟩, hclass⟩ := hname
  exact ⟨⟨⟨c, rest, hcons, by simpa using hfirst⟩, hchars⟩, hid, hrole, hclass⟩

theorem isNameChar_of_isIdentStart {c : Char} (h : isIdentStart c = true) :
    isNameChar c = true := by
  simp only [isIdentStart, Bool.or_eq_true, beq_iff_eq] at h
  rcases h with hletter | rfl
  · simp [isNameChar, isWord, toNat_lt_of_isAsciiLetter hletter, hletter]
  · decide

/-- An identifier is a whole name, if it does not end with a line feed. -/
theorem wholeName_of_isIdentifier {text : String} (h : isIdentifier text = true)
    (hfeed : '\n' ∉ text.toList) : WholeName isIdentStart text.toList := by
  have hlast : ¬(text.toList.getLast? == some '\n') = true := fun hlast =>
    hfeed (List.mem_of_getLast? (eq_of_beq hlast))
  unfold isIdentifier at h
  dsimp only at h
  rw [if_neg hlast] at h
  split at h
  next c rest htext =>
    obtain ⟨hc, hrest⟩ := Bool.and_eq_true_iff.mp h
    rw [htext]
    exact ⟨⟨c, rest, rfl, hc⟩,
      List.forall_mem_cons.mpr ⟨isNameChar_of_isIdentStart hc, List.all_eq_true.mp hrest⟩⟩
  next => exact absurd h Bool.false_ne_true

/-! ## One lemma for each description -/

namespace Quotable

variable {node : Node} {selector : String}

/-- An attribute describes its element, with or without the element's tag. -/
theorem describes_attribute (h : Quotable node) (tag : Option (List Char)) {name value : String}
    (hname : name ∈ describingNames) (hget : node.attrs.get? name = some value)
    (htag : ∀ name, tag = some name → name = node.tag.toList)
    (hselector : selector.toList = tag.getD [] ++ part name.toList value.toList) :
    Describes (Shape.ofSelector selector) node := by
  obtain ⟨hplain, hid, hrole, hclass⟩ := describingNames_plain hname
  have hfree : name.toList ≠ ("id").toList ∧ name.toList ≠ ("role").toList :=
    ⟨fun heq => hid (String.toList_inj.mp heq), fun heq => hrole (String.toList_inj.mp heq)⟩
  rw [ofSelector_part hselector (fun name hsome => htag name hsome ▸ h.tag) hplain hfree
    (h.values name value hget).quotable, String.ofList_toList, String.ofList_toList]
  refine ⟨by simp [Shape.isEmpty], fun found hfound => ?_, ?_, by simp⟩
  · obtain ⟨name, hsome, rfl⟩ := Option.map_eq_some_iff.mp hfound
    rw [String.toList_ofList, htag name hsome, h.tag.lower, String.ofList_toList]
  · have hconstraints : ∀ tag, Shape.constraints { tag, attrs := [(name, some value)] } =
        [(name, some value)] := fun _ => rfl
    rw [hconstraints]
    simp [Node.hasAttrs, satisfies_self hget hclass]

theorem describes_byTestId (h : Quotable node) (hselector : selector ∈ byTestId node.attrs) :
    Describes (Shape.ofSelector selector) node := by
  obtain ⟨⟨name, value⟩, hfound, rfl⟩ := List.mem_map.mp hselector
  obtain ⟨hmem, hfilled⟩ := testId?_eq_some (Option.mem_toList.mp hfound)
  have hget := (get?_of_filled? hfilled).1
  have hname : name ∈ describingNames :=
    List.mem_append_left _ (List.mem_append_left _ hmem)
  exact h.describes_attribute none hname hget (by simp)
    (by rw [toList_attributeSelector, (h.values name value hget).escaped]; rfl)

theorem describes_byId (h : Quotable node) (hselector : selector ∈ byId node.attrs) :
    Describes (Shape.ofSelector selector) node := by
  obtain ⟨id, hfound, rfl⟩ := List.mem_map.mp hselector
  obtain ⟨hfilled, hidentifier⟩ := Option.filter_eq_some_iff.mp (Option.mem_toList.mp hfound)
  obtain ⟨hget, hne⟩ := get?_of_filled? hfilled
  have hfeed : '\n' ∉ id.toList := fun hmem => (h.values "id" id hget _ hmem).2.2.2 rfl
  rw [ofSelector_id (wholeName_of_isIdentifier hidentifier hfeed)]
  refine ⟨by simp [Shape.isEmpty, hasText, hne], by simp, ?_, by simp⟩
  have hconstraints : Shape.constraints { elementId := some id } = [("id", some id)] := by
    simp [Shape.constraints, Shape.requiredAttrs, hasText, hne, Table.put, Table.union]
  rw [hconstraints]
  simp [Node.hasAttrs, satisfies_self hget]

theorem describes_byText (h : Quotable node) (hselector : selector ∈ byText node.leafText) :
    Describes (Shape.ofSelector selector) node := by
  obtain ⟨text, hfound, rfl⟩ := List.mem_map.mp hselector
  obtain ⟨hleaf, hshort⟩ := Option.filter_eq_some_iff.mp (Option.mem_toList.mp hfound)
  have hsame : node.text = text := by
    unfold Node.leafText at hleaf
    split at hleaf
    next => exact absurd hleaf (by simp)
    next => exact Option.some.inj hleaf
  have hne : text ≠ "" := by
    rintro rfl
    exact absurd hshort (by decide)
  have hinert := h.text text hleaf
  rw [hinert.escape, ofSelector_text hinert]
  refine ⟨by simp [Shape.isEmpty, hasText, hne], by simp, rfl, fun found hfound => ?_⟩
  obtain rfl : text = found := Option.some.inj hfound
  -- The text is no pattern, and is looked for in itself.
  have hliteral : Pattern.delimited? text = none := by
    have hstart : startsWith ['/'] text.toList = false := by
      have hslash := h.slash text hleaf
      cases htext : text.toList with
      | nil => rfl
      | cons c rest =>
        rw [htext] at hslash
        have hc : ('/' == c) = false :=
          beq_eq_false_iff_ne.mpr fun heq => hslash (by rw [heq]; rfl)
        simp [startsWith, afterLead?, hc]
    unfold Pattern.delimited?
    dsimp only
    rw [hstart, Bool.and_false]
    rfl
  have htrim : trim text.toList = text.toList :=
    trim_of_edges (h.edges text hleaf).1 (h.edges text hleaf).2
  rw [hsame, Pattern.textMatches, if_neg (by simpa using hne), hliteral, htrim, occursIn_self]
  rfl

theorem describes_byRole (h : Quotable node) (hselector : selector ∈ byRole node.attrs) :
    Describes (Shape.ofSelector selector) node := by
  unfold byRole at hselector
  split at hselector
  next role label hrole hlabel =>
    obtain ⟨hroleGet, hne⟩ := get?_of_filled? hrole
    have hlabelGet := (get?_of_filled? hlabel).1
    have hinert := h.values "aria-label" label hlabelGet
    have htext : selector.toList =
        "role:".toList ++ (role.toList ++ part ("name").toList label.toList) := by
      rw [List.mem_singleton.mp hselector, hinert.escape]
      simp [part]
    have hname : nameArgument? selector.toList = some label.toList := by
      rw [htext, ← List.append_assoc]
      have hlead : Unquoted "role:".toList := by decide
      exact nameArgument?_part (hlead.append (unquoted_of_isNameChar (h.role role hroleGet)))
        hinert.unquoted
    have hshape := ofSelector_role (by simpa using hne) (h.role role hroleGet)
      (fun c hc => by rw [← Option.some.inj hc]; decide)
      (fun c hc => by rw [← Option.some.inj ((getLast?_part [] _ _).symm.trans hc)]; decide) htext
    rw [hname, String.ofList_toList] at hshape
    simp only [Option.map_some, Option.toList_some, String.ofList_toList] at hshape
    rw [hshape]
    refine ⟨by simp [Shape.isEmpty], by simp, ?_, by simp⟩
    have hconstraints : Shape.constraints
        { role := some role, attrs := [("aria-label", some label)] } =
        [("aria-label", some label), ("role", some role)] := by
      simp [Shape.constraints, Shape.requiredAttrs, hasText, hne, Table.put, Table.union]
    rw [hconstraints]
    simp [Node.hasAttrs, satisfies_self hroleGet, satisfies_self hlabelGet]
  next role hrole hlabel =>
    obtain ⟨hget, hne⟩ := get?_of_filled? hrole
    have htext : selector.toList = "role:".toList ++ (role.toList ++ []) := by
      rw [List.mem_singleton.mp hselector]
      simp
    have hname : nameArgument? selector.toList = none := by
      rw [htext, List.append_nil]
      have hlead : Unquoted "role:".toList := by decide
      exact nameArgument?_of_unquoted (hlead.append (unquoted_of_isNameChar (h.role role hget)))
    have hshape := ofSelector_role (by simpa using hne) (h.role role hget) (by simp) (by simp) htext
    rw [hname, String.ofList_toList] at hshape
    simp only [Option.map_none, Option.toList_none] at hshape
    rw [hshape]
    refine ⟨by simp [Shape.isEmpty, hasText, hne], by simp, ?_, by simp⟩
    have hconstraints : Shape.constraints { role := some role } = [("role", some role)] := by
      simp [Shape.constraints, Shape.requiredAttrs, hasText, hne, Table.put, Table.union]
    rw [hconstraints]
    simp [Node.hasAttrs, satisfies_self hget]
  next label hrole hlabel =>
    have hget := (get?_of_filled? hlabel).1
    rw [List.mem_singleton.mp hselector]
    exact h.describes_attribute none (by decide) hget (by simp)
      (by rw [toList_attributeSelector, (h.values "aria-label" label hget).escaped]; rfl)
  next => exact absurd hselector List.not_mem_nil

theorem describes_byTag (h : Quotable node) (hselector : selector ∈ byTag node.attrs node.tag) :
    Describes (Shape.ofSelector selector) node := by
  unfold byTag at hselector
  split at hselector
  next => exact absurd hselector List.not_mem_nil
  next =>
    split at hselector
    next _ name hname =>
      have hget := (get?_of_filled? hname).1
      refine h.describes_attribute (some node.tag.toList) (by decide) hget (by simp) ?_
      rw [List.mem_singleton.mp hselector, (h.values "name" name hget).escape]
      simp [part]
    next type _ htype =>
      have hget := (get?_of_filled? htype).1
      refine h.describes_attribute (some node.tag.toList) (by decide) hget (by simp) ?_
      rw [List.mem_singleton.mp hselector, (h.values "type" type hget).escape]
      simp [part]
    next => exact absurd hselector List.not_mem_nil

/-- The class is the first one of the element, which has its classes under one name only. -/
theorem describes_byClass (hother : node.attrs.get? "className" = none)
    (hselector : selector ∈ byClass node.attrs) : Describes (Shape.ofSelector selector) node := by
  unfold byClass at hselector
  rw [hother, Option.or_none] at hselector
  dsimp only at hselector
  have hempty : selector ∉ if isIdentifier "" then ["." ++ ""] else [] := by
    rw [if_neg (by decide)]
    exact List.not_mem_nil
  cases hclass : filled? node.attrs "class" with
  | none =>
    rw [hclass] at hselector
    exact absurd hselector hempty
  | some value =>
    obtain ⟨hget, -⟩ := get?_of_filled? hclass
    rw [hclass, Option.getD_some] at hselector
    cases hwords : (words value.toList).head? with
    | none =>
      rw [hwords] at hselector
      exact absurd hselector hempty
    | some first =>
      rw [hwords] at hselector
      simp only [Option.map_some, Option.getD_some] at hselector
      split at hselector
      next hidentifier =>
        have hmem : first ∈ words value.toList := List.mem_of_head? hwords
        have hsolid := solid_of_mem_words hmem
        have hfeed : '\n' ∉ (String.ofList first).toList := by
          rw [String.toList_ofList]
          exact fun hfeed => absurd (hsolid _ hfeed) (by decide)
        have hwhole := wholeName_of_isIdentifier hidentifier hfeed
        have hne : first ≠ [] := by
          obtain ⟨c, rest, hfirst, -⟩ := hwhole.first
          rw [String.toList_ofList] at hfirst
          rw [hfirst]
          exact List.cons_ne_nil c rest
        rw [List.mem_singleton.mp hselector, ofSelector_class hwhole]
        refine ⟨by simp [Shape.isEmpty], by simp, ?_, by simp⟩
        have hconstraints : Shape.constraints { classes := [String.ofList first] } =
            [("class", some (String.ofList first))] := by
          simp [Shape.constraints, Shape.requiredAttrs, hasText, Table.put, Table.union]
        have hhas : String.ofList first ∈ node.classes := by
          rw [Node.classes, hget]
          exact List.mem_map_of_mem hmem
        rw [hconstraints]
        simp [Node.hasAttrs, Node.satisfies, hget, words_of_solid hne hsolid, hhas]
      next => exact absurd hselector List.not_mem_nil

end Quotable

/-! ## All selectors of an element -/

/-- A preference changes the order of the selectors only. -/
theorem mem_generate_iff {attrs : Table String} {tag : String} {text : Option String}
    {prefer : List String} {selector : String} : selector ∈ generate attrs tag text prefer ↔
      selector ∈ byTestId attrs ∨ selector ∈ byId attrs ∨ selector ∈ byRole attrs ∨
        selector ∈ byText text ∨ selector ∈ byClass attrs ∨ selector ∈ byTag attrs tag := by
  have hsorted : selector ∈ generate attrs tag text prefer ↔
      ∃ offer ∈ offers attrs tag text, offer.selector = selector := by
    unfold generate
    dsimp only
    split
    · exact List.mem_map
    · simp only [List.mem_map, List.mem_mergeSort]
  rw [hsorted]
  simp only [offers, List.mem_append, List.mem_map, or_and_right, exists_or, or_assoc]
  simp

/-- **A generated selector describes its element.**  For any source, any of its elements that can be
written into selectors, and any preference, what a generated selector demands is something, and the
element is found by it. -/
theorem generate_describes {source : String} {lineOffset : Int} {node : Node}
    (hnode : node ∈ (Index.ofSource source lineOffset).nodes) (hquotable : Quotable node)
    {prefer : List String} {selector : String}
    (hselector : selector ∈ generate node.attrs node.tag node.leafText prefer) :
    (Shape.ofSelector selector).isEmpty = false ∧
      node ∈ (Index.ofSource source lineOffset).findByTagAndAttrs (Shape.ofSelector selector).tag
        (Shape.ofSelector selector).constraints ∧
      ∀ text, (Shape.ofSelector selector).text = some text →
        Pattern.textMatches text node.text = .ok true := by
  have hdescribes : Describes (Shape.ofSelector selector) node := by
    rcases mem_generate_iff.mp hselector with htest | hid | hrole | htext | hclass | htag
    · exact hquotable.describes_byTestId htest
    · exact hquotable.describes_byId hid
    · exact hquotable.describes_byRole hrole
    · exact hquotable.describes_byText htext
    · exact Quotable.describes_byClass (get?_className hnode) hclass
    · exact hquotable.describes_byTag htag
  exact ⟨hdescribes.demands, hdescribes.mem_findByTagAndAttrs hnode, hdescribes.text⟩

/-- A value may look like a chain of selectors. -/
theorem generate_describes_tab :
    ∃ node ∈ (Index.ofSource "<b data-cy=\"a > .b\" role=\"tab\">Go</b>").nodes, Quotable node ∧
      "[data-cy=\"a > .b\"]" ∈ generate node.attrs node.tag node.leafText ["css", "role"] ∧
      node ∈ (Index.ofSource "<b data-cy=\"a > .b\" role=\"tab\">Go</b>").findByTagAndAttrs
        (Shape.ofSelector "[data-cy=\"a > .b\"]").tag
        (Shape.ofSelector "[data-cy=\"a > .b\"]").constraints := by
  have hnodes : (Index.ofSource "<b data-cy=\"a > .b\" role=\"tab\">Go</b>").nodes.map
      (fun node => (node.tag, node.attrs, node.leafText)) =
      [("b", [("data-cy", "a > .b"), ("role", "tab")], some "Go")] := by
    decide +kernel
  obtain ⟨node, rest, hcons, hnode, -⟩ := List.map_eq_cons_iff.mp hnodes
  have hmem : node ∈ (Index.ofSource "<b data-cy=\"a > .b\" role=\"tab\">Go</b>").nodes :=
    hcons ▸ List.mem_cons_self
  obtain ⟨htag, hattrs, htext⟩ : node.tag = "b" ∧
      node.attrs = [("data-cy", "a > .b"), ("role", "tab")] ∧ node.leafText = some "Go" := by
    simpa using hnode
  have hquotable : Quotable node := by
    refine
      { tag := ⟨⟨'b', [], by rw [htag]; rfl, by decide⟩,
          by rw [htag]; exact List.all_eq_true.mp (by decide)⟩
        values := fun name value hget => ?_
        role := fun role hget => ?_
        text := fun text hleaf => ?_
        edges := fun text hleaf => ?_
        slash := fun text hleaf => ?_ }
    · rw [hattrs, Table.get?, Table.get?] at hget
      split at hget
      · rw [← Option.some.inj hget]
        decide
      · split at hget
        · rw [← Option.some.inj hget]
          decide
        · exact absurd hget (by simp [Table.get?])
    · rw [hattrs] at hget
      obtain rfl : "tab" = role := Option.some.inj hget
      exact List.all_eq_true.mp (by decide +kernel)
    · rw [htext] at hleaf
      rw [← Option.some.inj hleaf]
      decide
    · rw [htext] at hleaf
      rw [← Option.some.inj hleaf]
      exact ⟨fun c hc => Option.some.inj hc ▸ rfl, fun c hc => Option.some.inj hc ▸ rfl⟩
    · rw [htext] at hleaf
      rw [← Option.some.inj hleaf]
      decide
  have hselector :
      "[data-cy=\"a > .b\"]" ∈ generate node.attrs node.tag node.leafText ["css", "role"] :=
    mem_generate_iff.mpr (.inl (by rw [hattrs]; decide +kernel))
  exact ⟨node, hmem, hquotable, hselector, (generate_describes hmem hquotable hselector).2.1⟩

end Selector

end Mooring
