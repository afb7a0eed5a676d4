import Mooring.Proofs.Selector.Generated

/-!
# The ways to write a selector

Each generated selector is written in one of eight ways (`Form`): by test attribute, identifier,
role, role and label, label, text, class, or tag with name or type.  An element has a selector for
each form that suits it, and no other one, under any preference (`mem_generate_iff_form`).
-/

namespace Mooring.Selector

open Mooring.Text

/-- A way to write a selector, with what goes into it. -/
inductive Form
  | testId (name value : String) (known : name ∈ testIdAttributes)
  | identifier (id : String) (valid : isIdentifier id = true)
  | namedRole (role label : String)
  | role (role : String)
  | label (label : String)
  | text (text : String)
  | className (name : String) (valid : isIdentifier name = true)
  | tagged (tag name value : String) (known : name = "name" ∨ name = "type")

/-- The first class of an element. -/
def firstClass (attrs : Table String) : String :=
  let value := ((filled? attrs "class").or (attrs.get? "className")).getD ""
  ((words value.toList).head?.map String.ofList).getD ""

namespace Form

/-- The selector in writing. -/
def selector : Form → String
  | .testId name value _ => attributeSelector name value
  | .identifier id _ => "#" ++ id
  | .namedRole kind shown => "role:" ++ kind ++ "[name=\"" ++ escape shown ++ "\"]"
  | .role kind => "role:" ++ kind
  | .label shown => attributeSelector "aria-label" shown
  | .text shown => "text:\"" ++ escape shown ++ "\""
  | .className name _ => "." ++ name
  | .tagged element name value _ => element ++ attributeSelector name value

/-- An element with these attributes, this tag and this text has the selector of the form. -/
def Suits (attrs : Table String) (tag : String) (content : Option String) : Form → Prop
  | .testId name value _ => testId? attrs = some (name, value)
  | .identifier id _ => filled? attrs "id" = some id
  | .namedRole kind shown =>
    filled? attrs "role" = some kind ∧ filled? attrs "aria-label" = some shown
  | .role kind => filled? attrs "role" = some kind ∧ filled? attrs "aria-label" = none
  | .label shown => filled? attrs "role" = none ∧ filled? attrs "aria-label" = some shown
  | .text shown => shortText? content = some shown
  | .className name _ => firstClass attrs = name
  | .tagged element name value _ =>
    element = tag ∧ filled? attrs "id" = none ∧ testId? attrs = none ∧
      filled? attrs name = some value ∧ (name = "type" → filled? attrs "name" = none)

end Form

section Produced

variable (attrs : Table String) (tag : String) (text : Option String) {selector : String}

theorem mem_byTestId_iff : selector ∈ byTestId attrs ↔
    ∃ name value known, Form.Suits attrs tag text (.testId name value known) ∧
      (Form.testId name value known).selector = selector := by
  constructor
  · intro h
    obtain ⟨⟨name, value⟩, hfound, hselector⟩ := List.mem_map.mp h
    have hfound := Option.mem_toList.mp hfound
    exact ⟨name, value, (testId?_eq_some hfound).1, hfound, hselector⟩
  · rintro ⟨name, value, _, hfound, hselector⟩
    exact List.mem_map.mpr ⟨(name, value), Option.mem_toList.mpr hfound, hselector⟩

theorem mem_byId_iff : selector ∈ byId attrs ↔
    ∃ id valid, Form.Suits attrs tag text (.identifier id valid) ∧
      (Form.identifier id valid).selector = selector := by
  constructor
  · intro h
    obtain ⟨id, hfound, hselector⟩ := List.mem_map.mp h
    obtain ⟨hfilled, hvalid⟩ := Option.filter_eq_some_iff.mp (Option.mem_toList.mp hfound)
    exact ⟨id, hvalid, hfilled, hselector⟩
  · rintro ⟨id, hvalid, hfilled, hselector⟩
    exact List.mem_map.mpr ⟨id,
      Option.mem_toList.mpr (Option.filter_eq_some_iff.mpr ⟨hfilled, hvalid⟩), hselector⟩

theorem mem_byRole_iff : selector ∈ byRole attrs ↔
    (∃ role label, Form.Suits attrs tag text (.namedRole role label) ∧
      (Form.namedRole role label).selector = selector) ∨
    (∃ role, Form.Suits attrs tag text (.role role) ∧ (Form.role role).selector = selector) ∨
    ∃ label, Form.Suits attrs tag text (.label label) ∧ (Form.label label).selector = selector := by
  unfold byRole
  simp only [Form.Suits, Form.selector]
  cases filled? attrs "role" <;> cases filled? attrs "aria-label" <;> simp [eq_comm]

theorem mem_byText_iff : selector ∈ byText text ↔
    ∃ shown, Form.Suits attrs tag text (.text shown) ∧ (Form.text shown).selector = selector := by
  simp only [byText, List.mem_map, Option.mem_toList, Form.Suits, Form.selector]

theorem mem_byClass_iff : selector ∈ byClass attrs ↔
    ∃ name valid, Form.Suits attrs tag text (.className name valid) ∧
      (Form.className name valid).selector = selector := by
  show selector ∈ (if isIdentifier (firstClass attrs) then ["." ++ firstClass attrs] else []) ↔ _
  constructor
  · intro h
    split at h
    next hvalid => exact ⟨_, hvalid, rfl, (List.mem_singleton.mp h).symm⟩
    next => exact absurd h List.not_mem_nil
  · rintro ⟨name, hvalid, hname, hselector⟩
    have hname : firstClass attrs = name := hname
    rw [hname, if_pos hvalid]
    exact List.mem_singleton.mpr hselector.symm

theorem mem_byTag_iff : selector ∈ byTag attrs tag ↔
    ∃ element name value known, Form.Suits attrs tag text (.tagged element name value known) ∧
      (Form.tagged element name value known).selector = selector := by
  have happend (name value : String) : tag ++ attributeSelector name value =
      tag ++ ("[" ++ name ++ "=\"") ++ escape value ++ "\"]" := by
    simp [attributeSelector, String.append_assoc]
  unfold byTag
  constructor
  · intro h
    split at h
    next => exact absurd h List.not_mem_nil
    next hfree =>
      obtain ⟨hid, htest⟩ : filled? attrs "id" = none ∧ testId? attrs = none := by
        simpa using hfree
      split at h
      next name hname =>
        exact ⟨tag, "name", name, Or.inl rfl, ⟨rfl, hid, htest, hname, fun heq => absurd heq (by decide)⟩,
          (happend _ _).trans (List.mem_singleton.mp h).symm⟩
      next kind hname hkind =>
        exact ⟨tag, "type", kind, Or.inr rfl, ⟨rfl, hid, htest, hkind, fun _ => hname⟩,
          (happend _ _).trans (List.mem_singleton.mp h).symm⟩
      next => exact absurd h List.not_mem_nil
  · rintro ⟨_, name, value, known, ⟨rfl, hid, htest, hvalue, hname⟩, hselector⟩
    rw [if_neg (by simp [hid, htest])]
    rcases known with rfl | rfl
    · rw [hvalue]
      exact List.mem_singleton.mpr (hselector.symm.trans (happend _ _))
    · rw [hname rfl, hvalue]
      exact List.mem_singleton.mpr (hselector.symm.trans (happend _ _))

end Produced

/-- **Whatever is generated is written in one of the forms**, and an element has a selector for each
form that suits it. -/
theorem mem_generate_iff_form {attrs : Table String} {tag : String} {text : Option String}
    {prefer : List String} {selector : String} : selector ∈ generate attrs tag text prefer ↔
      ∃ form : Form, form.Suits attrs tag text ∧ form.selector = selector := by
  rw [mem_generate_iff, mem_byTestId_iff attrs tag text, mem_byId_iff attrs tag text,
    mem_byRole_iff attrs tag text, mem_byText_iff attrs tag text, mem_byClass_iff attrs tag text,
    mem_byTag_iff attrs tag text]
  constructor
  · rintro (⟨_, _, _, h⟩ | ⟨_, _, h⟩ | (⟨_, _, h⟩ | ⟨_, h⟩ | ⟨_, h⟩) | ⟨_, h⟩ | ⟨_, _, h⟩ |
      ⟨_, _, _, _, h⟩)
    all_goals exact ⟨_, h⟩
  · rintro ⟨form, h⟩
    cases form with
    | testId name value known => exact Or.inl ⟨name, value, known, h⟩
    | identifier id valid => exact Or.inr (Or.inl ⟨id, valid, h⟩)
    | namedRole role label => exact Or.inr (Or.inr (Or.inl (Or.inl ⟨role, label, h⟩)))
    | role role => exact Or.inr (Or.inr (Or.inl (Or.inr (Or.inl ⟨role, h⟩))))
    | label label => exact Or.inr (Or.inr (Or.inl (Or.inr (Or.inr ⟨label, h⟩))))
    | text shown => exact Or.inr (Or.inr (Or.inr (Or.inl ⟨shown, h⟩)))
    | className name valid => exact Or.inr (Or.inr (Or.inr (Or.inr (Or.inl ⟨name, valid, h⟩))))
    | tagged element name value known =>
      exact Or.inr (Or.inr (Or.inr (Or.inr (Or.inr ⟨element, name, value, known, h⟩))))

end Mooring.Selector
