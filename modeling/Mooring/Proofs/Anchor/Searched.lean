import Mooring.Proofs.Anchor.Captured
import Mooring.Proofs.Markup.Alone
import Mooring.Proofs.Resolution.Ties
import Mooring.Proofs.Selector.Truthful

/-!
# What a new anchor is searched by

Attribute match looks for elements by pairs of an attribute and a value (`Anchor.sought`).  They
come from the anchor's selector, from the first element of its fragment and from its hints.  A new
anchor that was captured without a selector gets all three from one element, and the pairs should be
that element's own.

Those from the selector are, if the element can be spelled in selectors (`Spellable`).  Those from
the fragment are, if the fragment reads alone as in its source (`Extent.StandsAlone`).  Those from
the hints are but for one: the hint keeps the test identifier without the attribute that had it, so
it is sought under the usual name.  That is wrong just if the element had it under another one
(`capture_seeks`).
-/

namespace Mooring

open Mooring.Markup Mooring.Resolution Mooring.Selector Mooring.Text

/-- The first element of the stored fragment. -/
def Anchor.storedNode? (anchor : Anchor) : Option Node :=
  (nonEmpty anchor.snippet).bind fun snippet => (Index.ofSource snippet).primary?

/-- The attributes, with their values, that attribute match looks for. -/
def Anchor.sought (anchor : Anchor) : List (String × String) :=
  stablePairs (.ofSelector anchor.selector) anchor.storedNode? anchor.hint

namespace Markup

/-- **A tag starts with a letter.** -/
theorem isBlank_tag_of_ofSource {source : String} {lineOffset : Int} {node : Node}
    (h : node ∈ (Index.ofSource source lineOffset).nodes) {c : Char}
    (hc : node.tag.toList.head? = some c) : isBlank c = false := by
  obtain ⟨tag, cs, rest, hread, htag, -⟩ := readStartTag_of_ofSource h
  obtain ⟨name, cursor, hname, -, -, rfl⟩ := readStartTag_iff.mp hread
  obtain ⟨first, more, rfl, hfirst⟩ : ∃ first more, name = first :: more ∧
      isAsciiLetter first = true := by
    unfold elementName? at hname
    split at hname
    next => exact absurd hname (by simp)
    next first more _ =>
      split at hname
      next hfirst =>
        rw [← (Prod.mk.inj (Option.some.inj hname)).1]
        exact ⟨first, _, rfl, hfirst⟩
      next => exact absurd hname (by simp)
  have hascii := toNat_lt_of_isAsciiLetter hfirst
  rw [htag, String.toList_ofList, lower, lowerFrom] at hc
  rw [if_neg (by simp; omega), if_neg (by simp; omega)] at hc
  rw [← Option.some.inj hc]
  exact (Fragment.isPlain_cases
    (Fragment.isPlain_lowerChar (Fragment.isNameChar_of_isAsciiLetter hfirst))).1

end Markup

/-- The usual name of a test identifier comes first. -/
theorem Selector.testId?_of_usual {attrs : Table String} {value : String}
    (h : filled? attrs "data-testid" = some value) :
    testId? attrs = some ("data-testid", value) := by
  rw [testId?, testIdAttributes, List.findSome?_cons, h]
  rfl

namespace Resolution

variable {attrs : Table String} {shape : Shape} {stored : Option Node} {hint : Option Hint}
  {pair : String × String}

/-- **Where pairs come from**: from a truthful shape and an element with the same attributes, all
are the element's own, and the rest are hints. -/
theorem own_or_hint (hshape : shape.Truthful attrs)
    (hstored : ∀ node, stored = some node → node.attrs = attrs)
    (h : pair ∈ stablePairs shape stored hint) : attrs.get? pair.1 = some pair.2 ∨
      pair ∈ named "data-testid" (hint.bind (·.testid)) ∨
        pair ∈ named "aria-label" (hint.bind (·.label)) := by
  have hmem := mem_distinct.mp h
  simp only [List.mem_append] at hmem
  rcases hmem with ((hselector | hfragment) | htestid) | hlabel
  · obtain ⟨name, -, hnamed⟩ := List.mem_flatMap.mp hselector
    obtain ⟨rfl, hvalue, -⟩ := mem_named.mp hnamed
    exact .inl (hshape _ _ (Table.mem_of_get? (Option.join_eq_some_iff.mp hvalue)))
  · obtain ⟨node, hnode, hpair⟩ := List.mem_flatMap.mp hfragment
    obtain ⟨name, -, hfound⟩ := List.mem_filterMap.mp hpair
    obtain ⟨value, hfilled, rfl⟩ := Option.map_eq_some_iff.mp hfound
    rw [← hstored node (Option.mem_toList.mp hnode)]
    exact .inl (get?_of_filled? hfilled).1
  · exact .inr (.inl htestid)
  · exact .inr (.inr hlabel)

end Resolution

namespace Anchor

variable {id stamp : String} {place : Place} {captured : Anchor}

/-- **The test identifier of a new anchor is sought under the usual name**, wherever it was. -/
theorem mem_sought_of_testId? {node : Node} {format : Fragment.HashFormat}
    {found : String × String} (h : testId? node.attrs = some found) :
    ("data-testid", found.2) ∈ (ofNode id place format stamp node).sought := by
  obtain ⟨-, hfilled⟩ := testId?_eq_some h
  have hhint : (some (hintOf node)).bind (·.testid) = some found.2 := by
    show (testId? node.attrs).map (·.2) = _
    rw [h]
    rfl
  refine mem_distinct.mpr (List.mem_append_left _ (List.mem_append_right _ ?_))
  exact mem_named.mpr ⟨rfl, hhint, (get?_of_filled? hfilled).2⟩

/-- What the selector of a new anchor says of attributes, its element has. -/
theorem truthful_selectorFor {node : Node} {given : Option String} {hint : Hint}
    (hgiven : nonEmpty given = none) (hnode : node ∈ (Index.ofSource place.source).nodes)
    (h : Spellable node.attrs node.tag node.leafText) :
    (Shape.ofSelector (selectorFor node hint given)).Truthful node.attrs := by
  unfold selectorFor
  rw [hgiven]
  dsimp only
  cases hoffered : (generate node.attrs node.tag node.leafText (hint.prefer.getD [])).head? with
  | none => exact h.truthful_tag
  | some selector =>
    exact h.truthful_generate (fun c hc => isBlank_tag_of_ofSource hnode hc)
      (List.mem_of_head? hoffered)

/-- The first element of the fragment of a new anchor is its element. -/
theorem attrs_of_storedNode? {node stored : Node} {e : Extent} {format : Fragment.HashFormat}
    (he : (spansOf place.source)[node.order]? = some e)
    (hsound : node.Sound place.source 0 e) (halone : e.StandsAlone place.source.toList)
    (h : (ofNode id place format stamp node).storedNode? = some stored) :
    stored.attrs = node.attrs := by
  obtain ⟨snippet, hsnippet, hprimary⟩ := Option.bind_eq_some_iff.mp h
  obtain ⟨hsame, -⟩ := Option.filter_eq_some_iff.mp hsnippet
  obtain rfl : node.fragment = snippet := Option.some.inj hsame
  rw [hsound.own] at hprimary ⊢
  exact (primary?_fragment he halone hprimary).2

/-- **What a new anchor is searched by.**  Whatever the source and the line, an anchor that is
captured without a selector is that of an element of the source.  Its pairs are the element's own,
but for a test identifier that is sought under the usual name; and all of them are its own just if
its test identifier, if it has one, is under the usual name.  This takes an element that can be
spelled in selectors, and a fragment that reads alone as in its source. -/
theorem capture_seeks (h : capture id place stamp = .ok captured)
    (hgiven : nonEmpty place.selector = none) :
    ∃ node e format, node ∈ (Index.ofSource place.source).nodes ∧
      (spansOf place.source)[node.order]? = some e ∧
      captured = ofNode id place format stamp node ∧
      (Spellable node.attrs node.tag node.leafText → e.StandsAlone place.source.toList →
        (∀ pair ∈ captured.sought, node.attrs.get? pair.1 = some pair.2 ∨
          pair.1 = "data-testid" ∧ ∃ name, testId? node.attrs = some (name, pair.2)) ∧
        ((∀ pair ∈ captured.sought, node.attrs.get? pair.1 = some pair.2) ↔
          ∀ found, testId? node.attrs = some found → found.1 = "data-testid")) := by
  obtain ⟨node, format, hnode, -, -, rfl⟩ := capture_eq_ok h
  obtain ⟨e, he, hsound⟩ := exists_sound hnode
  refine ⟨node, e, format, hnode, he, rfl, fun hspellable halone => ?_⟩
  have hcases : ∀ pair ∈ (ofNode id place format stamp node).sought,
      node.attrs.get? pair.1 = some pair.2 ∨
        pair.1 = "data-testid" ∧ ∃ name, testId? node.attrs = some (name, pair.2) := by
    intro pair hpair
    rcases own_or_hint (truthful_selectorFor hgiven hnode hspellable)
      (fun _ => attrs_of_storedNode? he hsound halone) hpair with hown | htestid | hlabel
    · exact .inl hown
    · obtain ⟨hname, hvalue, -⟩ := mem_named.mp htestid
      obtain ⟨⟨name, value⟩, hfound, rfl⟩ := Option.map_eq_some_iff.mp hvalue
      exact .inr ⟨hname, name, hfound⟩
    · obtain ⟨hname, hvalue, -⟩ := mem_named.mp hlabel
      rw [hname]
      exact .inl (get?_of_filled? hvalue).1
  refine ⟨hcases, fun hall found hfound => ?_, fun husual pair hpair => ?_⟩
  · have hget : node.attrs.get? "data-testid" = some found.2 :=
      hall _ (mem_sought_of_testId? hfound)
    have hne : found.2 ≠ "" := (get?_of_filled? (testId?_eq_some hfound).2).2
    have husual := testId?_of_usual (Option.filter_eq_some_iff.mpr ⟨hget, by simpa using hne⟩)
    rw [hfound] at husual
    exact congrArg Prod.fst (Option.some.inj husual)
  · rcases hcases pair hpair with hown | ⟨hname, name, hfound⟩
    · exact hown
    · obtain rfl : name = "data-testid" := husual _ hfound
      rw [hname]
      exact (get?_of_filled? (testId?_eq_some hfound).2).1

/-- A page of one element, with the test identifier under its usual name. -/
def usualPlace : Place where
  source := "<b role=\"tab\" data-testid=\"go\" aria-label=\"Go\">Go</b>"
  file := "page.html"
  line := 1

/-- A page of one element, with the test identifier under another name. -/
def otherPlace : Place where
  source := "<b role=\"tab\" data-cy=\"go\">Go</b>"
  file := "page.html"
  line := 1

/-- A tab that is sought by what it has. -/
theorem capture_seeks_usual : ∃ captured node, capture "a" usualPlace "" = .ok captured ∧
    node ∈ (Index.ofSource usualPlace.source).nodes ∧ ("data-testid", "go") ∈ captured.sought ∧
      ∀ pair ∈ captured.sought, node.attrs.get? pair.1 = some pair.2 := by
  have hspans : (spansOf usualPlace.source).map Extent.stop =
      [(mask usualPlace.source.toList).length] := by
    decide +kernel
  have hnodes : (Index.ofSource usualPlace.source).nodes.map
      (fun node => (node.tag, node.attrs, node.leafText)) =
        [("b", [("role", "tab"), ("data-testid", "go"), ("aria-label", "Go")], some "Go")] := by
    decide +kernel
  have hok : (capture "a" usualPlace "").isOk := by decide +kernel
  obtain ⟨captured, hcapture⟩ := exists_capture hok
  obtain ⟨node, e, format, hnode, he, rfl, hseeks⟩ := capture_seeks hcapture rfl
  have hnode' := List.mem_singleton.mp (hnodes ▸ List.mem_map_of_mem hnode)
  obtain ⟨htag, hattrs, htext⟩ : node.tag = "b" ∧
      node.attrs = [("role", "tab"), ("data-testid", "go"), ("aria-label", "Go")] ∧
      node.leafText = some "Go" := by
    simpa using hnode'
  have hstop : e.stop = (mask usualPlace.source.toList).length :=
    List.mem_singleton.mp (hspans ▸ List.mem_map_of_mem (List.mem_of_getElem? he))
  have hspellable : Spellable node.attrs node.tag node.leafText := by
    rw [htag, hattrs, htext]
    refine ⟨fun name value hget => ?_, fun role hrole => ?_, fun short hshort => ?_,
      by decide, by decide, by decide⟩
    · have hall : ∀ pair ∈ [("role", "tab"), ("data-testid", "go"), ("aria-label", "Go")],
          Unquoted pair.2.toList ∧ '\\' ∉ pair.2.toList := by decide
      exact hall _ (Table.mem_of_get? hget)
    · obtain rfl : "tab" = role := Option.some.inj hrole
      exact ⟨'t', ['a', 'b'], rfl, by decide⟩
    · obtain rfl : "Go" = short := Option.some.inj hshort
      decide
  have halone : e.StandsAlone usualPlace.source.toList :=
    ⟨fun hbrace => absurd hbrace (by decide), fun tag rest _ => hstop ▸ Nat.sub_le _ _⟩
  have htestid : testId? node.attrs = some ("data-testid", "go") := by
    rw [hattrs]
    rfl
  refine ⟨_, node, hcapture, hnode, mem_sought_of_testId? htestid,
    (hseeks hspellable halone).2.mpr fun found hfound => ?_⟩
  rw [← Option.some.inj (htestid.symm.trans hfound)]

/-- A tab that is sought by what it does not have. -/
theorem capture_seeks_other : ∃ captured node, capture "a" otherPlace "" = .ok captured ∧
    (Index.ofSource otherPlace.source).nodes = [node] ∧
      node.attrs = [("role", "tab"), ("data-cy", "go")] ∧
        ("data-testid", "go") ∈ captured.sought := by
  have hnodes : (Index.ofSource otherPlace.source).nodes.map (fun node => node.attrs) =
      [[("role", "tab"), ("data-cy", "go")]] := by
    decide +kernel
  have hok : (capture "a" otherPlace "").isOk := by decide +kernel
  obtain ⟨captured, hcapture⟩ := exists_capture hok
  obtain ⟨node, format, hnode, -, -, rfl⟩ := capture_eq_ok hcapture
  obtain ⟨only, honly, hattrs⟩ := List.map_eq_singleton_iff.mp hnodes
  obtain rfl := List.mem_singleton.mp (honly ▸ hnode)
  have htestid : testId? node.attrs = some ("data-cy", "go") := by
    rw [hattrs]
    rfl
  exact ⟨_, node, hcapture, honly, hattrs, mem_sought_of_testId? htestid⟩

end Anchor

end Mooring
