import Mooring.Markup.Index

/-!
# Document order

The elements of a document's forest, each before its descendants, are the elements that its events
start, in the order in which they start them (`elementsOf_treesOf`).  So whatever nesting the end
tags lead to, no element is lost, none comes up twice, and the order is that of the document.

The construction holds its elements in order at any time (`Builder.elements`): those of the finished
parts, then each open element with those inside it, outermost first.  A start event adds one at the
end, and no other event changes anything.
-/

namespace Mooring.Markup

mutual

/-- The elements of a part, each before its descendants. -/
def Tree.elements : Tree → List Element
  | .text .. => []
  | .element element children => element :: elementsOf children

/-- The elements of some parts, in document order. -/
def elementsOf : List Tree → List Element
  | [] => []
  | part :: rest => part.elements ++ elementsOf rest

end

theorem elementsOf_append (parts more : List Tree) :
    elementsOf (parts ++ more) = elementsOf parts ++ elementsOf more := by
  induction parts with
  | nil => rfl
  | cons part rest ih => rw [List.cons_append, elementsOf, elementsOf, ih, List.append_assoc]

theorem elementsOf_concat (parts : List Tree) (part : Tree) :
    elementsOf (parts ++ [part]) = elementsOf parts ++ part.elements := by
  rw [elementsOf_append, elementsOf, elementsOf, List.append_nil]

mutual

theorem map_element_extents (masked : List Char) :
    ∀ part : Tree, (extents masked part).map (·.element) = part.elements
  | .text .. => rfl
  | .element element children => by
    rw [extents, Tree.elements, List.map_cons, map_element_extentsOf masked children]

/-- Extents come in document order. -/
theorem map_element_extentsOf (masked : List Char) :
    ∀ parts : List Tree, (extentsOf masked parts).map (·.element) = elementsOf parts
  | [] => rfl
  | part :: rest => by
    rw [extentsOf, elementsOf, List.map_append, map_element_extents masked part,
      map_element_extentsOf masked rest]

end

/-- The element that a start tag at a place describes. -/
def ReadTag.element (tag : ReadTag) (offset : Nat) : Element :=
  ⟨tag.name, elementAttributes tag.name tag.attributes, offset⟩

/-- The element that an event starts, if it starts one. -/
def Event.element? : Event → Option Element
  | .start tag offset => some (tag.element offset)
  | _ => none

/-- The elements of an open element and of the parts inside it. -/
def OpenElement.elements (e : OpenElement) : List Element :=
  e.element :: elementsOf e.parts.reverse

namespace Builder

/-- The elements that the construction holds, in document order. -/
def elements (b : Builder) : List Element :=
  elementsOf b.roots.reverse ++ b.stack.reverse.flatMap OpenElement.elements

theorem elements_cons (top : OpenElement) (rest : List OpenElement) (roots : List Tree)
    (pending : List Char) (swallowed : List String) :
    elements ⟨top :: rest, roots, pending, swallowed⟩ =
      elements ⟨rest, roots, pending, swallowed⟩ ++ top.elements := by
  rw [elements, elements, List.reverse_cons, List.flatMap_append, List.flatMap_singleton,
    List.append_assoc]

theorem elements_add (b : Builder) (part : Tree) :
    (b.add part).elements = b.elements ++ part.elements := by
  obtain ⟨stack, roots, pending, swallowed⟩ := b
  cases stack with
  | nil =>
    show elementsOf (part :: roots).reverse ++ [] = elementsOf roots.reverse ++ [] ++ part.elements
    rw [List.reverse_cons, elementsOf_concat, List.append_nil, List.append_nil]
  | cons top rest =>
    show elements ⟨⟨top.element, part :: top.parts⟩ :: rest, roots, pending, swallowed⟩ = _
    rw [elements_cons, elements_cons, OpenElement.elements, OpenElement.elements,
      List.reverse_cons, elementsOf_concat, List.append_assoc, List.cons_append]

theorem elements_flush (b : Builder) : b.flush.elements = b.elements := by
  unfold flush
  split
  · rfl
  · show (b.add (.text b.owner? b.pending)).elements = b.elements
    rw [elements_add, Tree.elements, List.append_nil]

theorem elements_pop (b : Builder) : b.pop.elements = b.elements := by
  obtain ⟨stack, roots, pending, swallowed⟩ := b
  cases stack with
  | nil => rfl
  | cons top rest =>
    show (add ⟨rest, roots, pending, swallowed⟩ (.element top.element top.parts.reverse)).elements =
      _
    rw [elements_add, elements_cons, Tree.elements, OpenElement.elements]

theorem elements_pops {α : Type} (times : List α) : ∀ b : Builder,
    (times.foldl (fun b _ => b.pop) b).elements = b.elements := by
  induction times with
  | nil => exact fun _ => rfl
  | cons _ rest ih => exact fun b => (ih b.pop).trans (elements_pop b)

theorem elements_close (b : Builder) (name : String) : (b.close name).elements = b.elements := by
  unfold close
  split
  · rfl
  · exact elements_pops _ b

/-- **An event adds the element that it starts at the end**, and changes nothing otherwise. -/
theorem elements_step (b : Builder) (event : Event) :
    (b.step event).elements = b.elements ++ event.element?.toList := by
  cases event with
  | text text => exact (List.append_nil _).symm
  | separateText text =>
    refine Eq.trans ?_ (List.append_nil _).symm
    unfold step
    dsimp only
    split
    · exact elements_flush b
    · rw [elements_add, elements_flush, Tree.elements, List.append_nil]
  | cut => exact (elements_flush b).trans (List.append_nil _).symm
  | finish name =>
    refine Eq.trans ?_ (List.append_nil _).symm
    unfold step
    dsimp only
    split
    · rfl
    · rw [elements_close, elements_flush]
  | start tag offset =>
    have hopen : elements { b.flush with stack := ⟨tag.element offset, []⟩ :: b.flush.stack } =
        b.elements ++ [tag.element offset] := by
      rw [elements_cons]
      show b.flush.elements ++ [tag.element offset] = _
      rw [elements_flush]
    unfold step
    dsimp only
    rw [Event.element?, Option.toList_some]
    split
    · exact (elements_pop _).trans hopen
    · split
      · exact (elements_pop _).trans hopen
      · exact hopen

theorem elements_steps (events : List Event) : ∀ b : Builder,
    (events.foldl step b).elements = b.elements ++ events.filterMap Event.element? := by
  induction events with
  | nil => exact fun b => (List.append_nil _).symm
  | cons event rest ih =>
    intro b
    rw [List.foldl_cons, ih, elements_step, List.append_assoc]
    cases h : event.element? with
    | none => rw [List.filterMap_cons_none h]; rfl
    | some element => rw [List.filterMap_cons_some h]; rfl

theorem length_stack_pop (b : Builder) : b.pop.stack.length = b.stack.length - 1 := by
  obtain ⟨stack, roots, pending, swallowed⟩ := b
  match stack with
  | [] => rfl
  | [_] => rfl
  | _ :: _ :: _ => rfl

/-- Every open element is finished by as many steps as there are open elements. -/
theorem stack_pops (opened : List OpenElement) : ∀ b : Builder, b.stack.length = opened.length →
    (opened.foldl (fun b _ => b.pop) b).stack = [] := by
  induction opened with
  | nil => exact fun b h => List.length_eq_zero_iff.mp h
  | cons _ rest ih =>
    intro b h
    refine ih b.pop ?_
    rw [length_stack_pop, h, List.length_cons, Nat.add_sub_cancel]

theorem elementsOf_finish (b : Builder) : elementsOf b.finish = b.elements := by
  have hstack := stack_pops b.flush.stack b.flush rfl
  have hsame := elements_pops b.flush.stack b.flush
  rw [elements_flush, elements, hstack, List.reverse_nil, List.flatMap_nil,
    List.append_nil] at hsame
  exact hsame

end Builder

/-- **The elements of a document's forest are those that its events start**, in that order. -/
theorem elementsOf_treesOf (events : List Event) :
    elementsOf (treesOf events) = events.filterMap Event.element? := by
  rw [treesOf, Builder.elementsOf_finish, Builder.elements_steps]
  rfl

end Mooring.Markup
