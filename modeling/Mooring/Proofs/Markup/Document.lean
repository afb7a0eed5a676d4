import Mooring.Markup.Extent
import Mooring.Proofs.Text.LowName

/-!
# Well-formed documents

Documents as trees: texts, elements with content, and elements that are their start tag only.  The
trees carry what makes them well-formed, so whatever is built of them is.  `renderAll` writes a
document down, and `standingsOf` says where its elements stand in what was written.

The same document is also a row of tags and texts (`tokensOf`), for those who read it from left to
right and do not care what belongs to what.
-/

namespace Mooring.Markup

open Mooring.Text

/-! ## Tags -/

/-- An attribute in a start tag, with the blanks before it and its value in double quotes, if it has
one. -/
structure TagAttribute where
  gap : List Char
  name : List Char
  value : Option (List Char)
  gap_ne_nil : gap ≠ []
  gap_blank : ∀ c ∈ gap, isBlank c = true
  name_low : LowName name
  value_plain : ∀ v, value = some v → ∀ c ∈ v, c ≠ '"' ∧ c ≠ '<' ∧ c ≠ '&' ∧ c ≠ '\x7b'

/-- The name and the attributes of a start tag, and the blanks before its end. -/
structure Tag where
  name : List Char
  attributes : List TagAttribute
  gap : List Char
  name_low : LowName name
  /-- What stands in a script or a style sheet is no markup. -/
  not_raw : name ≠ ("script").toList ∧ name ≠ ("style").toList
  gap_blank : ∀ c ∈ gap, isBlank c = true

/-- A value behind its equals sign. -/
def renderValue : Option (List Char) → List Char
  | none => []
  | some value => '=' :: '"' :: (value ++ ['"'])

def TagAttribute.render (a : TagAttribute) : List Char :=
  a.gap ++ (a.name ++ renderValue a.value)

/-- What stands between the name and the end of a start tag. -/
def Tag.inner (tag : Tag) : List Char :=
  tag.attributes.flatMap TagAttribute.render ++ tag.gap

/-- The end of a start tag, which a slash may close. -/
def tagEnd (slash : Bool) : List Char :=
  if slash then ['/', '>'] else ['>']

/-- A start tag in writing. -/
def Tag.opening (tag : Tag) (slash : Bool) : List Char :=
  '<' :: (tag.name ++ (tag.inner ++ tagEnd slash))

/-- An end tag in writing. -/
def Tag.ending (tag : Tag) : List Char :=
  '<' :: '/' :: (tag.name ++ ['>'])

/-! ## Documents -/

/-- Elements of this name have no content. -/
def Tag.IsContentless (tag : Tag) : Prop :=
  contentless.contains (String.ofList tag.name) = true

instance (tag : Tag) : Decidable tag.IsContentless :=
  inferInstanceAs (Decidable (_ = true))

/-- A text or an element. -/
inductive Item
  | text (chars : List Char) (plain : ∀ c ∈ chars, c ≠ '<' ∧ c ≠ '&')
  /-- An element that is its start tag only: a slash closes it, or there is nothing to close. -/
  | single (tag : Tag) (slash : Bool) (alone : slash = true ∨ tag.IsContentless)
  | paired (tag : Tag) (content : List Item) (open_ : ¬tag.IsContentless)

mutual

/-- A part of a document in writing. -/
def Item.render : Item → List Char
  | .text chars _ => chars
  | .single tag slash _ => tag.opening slash
  | .paired tag content _ => tag.opening false ++ (renderAll content ++ tag.ending)

/-- A document in writing. -/
def renderAll : List Item → List Char
  | [] => []
  | item :: rest => item.render ++ renderAll rest

end

/-- An element where it stands: its name and its own text, from the `<` of its start tag to the `>`
of its own end tag, and what stands before and after. -/
structure Standing where
  before : List Char
  name : List Char
  text : List Char
  after : List Char

/-- The name of an element and the place of its `<`. -/
def Standing.place (s : Standing) : String × Nat :=
  (String.ofList s.name, s.before.length)

mutual

/-- The elements of a part that stands between two texts, in document order. -/
def Item.standings (before after : List Char) : Item → List Standing
  | .text .. => []
  | .single tag slash _ => [⟨before, tag.name, tag.opening slash, after⟩]
  | .paired tag content _ =>
    ⟨before, tag.name, tag.opening false ++ (renderAll content ++ tag.ending), after⟩ ::
      standingsOf (before ++ tag.opening false) (tag.ending ++ after) content

/-- The elements of some parts that stand between two texts, in document order. -/
def standingsOf (before after : List Char) : List Item → List Standing
  | [] => []
  | item :: rest =>
    item.standings before (renderAll rest ++ after) ++
      standingsOf (before ++ item.render) after rest

end

mutual

theorem Item.whole_of_mem_standings {s : Standing} : ∀ {item : Item} {before after : List Char},
    s ∈ item.standings before after →
    s.before ++ (s.text ++ s.after) = before ++ (item.render ++ after)
  | .text .., _, _, h => absurd h (by simp [Item.standings])
  | .single tag slash _, _, _, h => by
    rw [Item.standings] at h
    rw [List.mem_singleton.mp h, Item.render]
  | .paired tag content _, before, after, h => by
    rw [Item.standings] at h
    rw [Item.render]
    rcases List.mem_cons.mp h with rfl | hinner
    · rfl
    · rw [whole_of_mem_standingsOf hinner]
      simp only [List.append_assoc]

/-- An element stands in the document where it is said to. -/
theorem whole_of_mem_standingsOf {s : Standing} : ∀ {items : List Item} {before after : List Char},
    s ∈ standingsOf before after items →
    s.before ++ (s.text ++ s.after) = before ++ (renderAll items ++ after)
  | [], _, _, h => absurd h (by simp [standingsOf])
  | item :: rest, before, after, h => by
    rw [standingsOf] at h
    rw [renderAll]
    rcases List.mem_append.mp h with hitem | hrest
    · rw [Item.whole_of_mem_standings hitem]
      simp only [List.append_assoc]
    · rw [whole_of_mem_standingsOf hrest]
      simp only [List.append_assoc]

end

/-- The text is an element of this name in writing. -/
inductive IsElement : List Char → List Char → Prop
  | single (tag : Tag) (slash : Bool) (alone : slash = true ∨ tag.IsContentless) :
    IsElement tag.name (tag.opening slash)
  | paired (tag : Tag) (content : List Item) (open_ : ¬tag.IsContentless) :
    IsElement tag.name (tag.opening false ++ (renderAll content ++ tag.ending))

mutual

theorem Item.isElement_of_mem_standings {s : Standing} : ∀ {item : Item} {before after : List Char},
    s ∈ item.standings before after → IsElement s.name s.text
  | .text .., _, _, h => absurd h (by simp [Item.standings])
  | .single tag slash alone, _, _, h => by
    rw [Item.standings] at h
    rw [List.mem_singleton.mp h]
    exact .single tag slash alone
  | .paired tag content open_, _, _, h => by
    rw [Item.standings] at h
    rcases List.mem_cons.mp h with rfl | hinner
    · exact .paired tag content open_
    · exact isElement_of_mem_standingsOf hinner

/-- What stands in a document as an element is one. -/
theorem isElement_of_mem_standingsOf {s : Standing} : ∀ {items : List Item}
    {before after : List Char}, s ∈ standingsOf before after items → IsElement s.name s.text
  | [], _, _, h => absurd h (by simp [standingsOf])
  | item :: rest, _, _, h => by
    rw [standingsOf] at h
    rcases List.mem_append.mp h with hitem | hrest
    · exact Item.isElement_of_mem_standings hitem
    · exact isElement_of_mem_standingsOf hrest

end

/-- An element ends with `>`. -/
theorem IsElement.exists_front {name text : List Char} (h : IsElement name text) :
    ∃ front, text = front ++ ['>'] := by
  cases h with
  | single tag slash alone =>
    refine ⟨'<' :: (tag.name ++ (tag.inner ++ if slash then ['/'] else [])), ?_⟩
    cases slash <;> simp [Tag.opening, tagEnd]
  | paired tag content open_ =>
    refine ⟨tag.opening false ++ (renderAll content ++ '<' :: '/' :: tag.name), ?_⟩
    simp [Tag.ending]

/-! ## Documents from left to right -/

/-- A text or a tag. -/
inductive Token
  | text (chars : List Char) (plain : ∀ c ∈ chars, c ≠ '<' ∧ c ≠ '&')
  | opening (tag : Tag) (slash : Bool)
  | ending (tag : Tag)

def Token.render : Token → List Char
  | .text chars _ => chars
  | .opening tag slash => tag.opening slash
  | .ending tag => tag.ending

mutual

/-- The tags and texts of a part. -/
def Item.tokens : Item → List Token
  | .text chars plain => [.text chars plain]
  | .single tag slash _ => [.opening tag slash]
  | .paired tag content _ => .opening tag false :: (tokensOf content ++ [.ending tag])

/-- The tags and texts of a document. -/
def tokensOf : List Item → List Token
  | [] => []
  | item :: rest => item.tokens ++ tokensOf rest

end

mutual

theorem Item.flatMap_tokens : ∀ item : Item, item.tokens.flatMap Token.render = item.render
  | .text chars plain => by
    rw [Item.tokens, List.flatMap_singleton, Token.render, Item.render]
  | .single tag slash _ => by
    rw [Item.tokens, List.flatMap_singleton, Token.render, Item.render]
  | .paired tag content _ => by
    rw [Item.tokens, List.flatMap_cons, List.flatMap_append, List.flatMap_singleton,
      flatMap_tokensOf content, Item.render, Token.render, Token.render]

/-- The tags and texts of a document are the document. -/
theorem flatMap_tokensOf : ∀ items : List Item,
    (tokensOf items).flatMap Token.render = renderAll items
  | [] => rfl
  | item :: rest => by
    rw [tokensOf, List.flatMap_append, Item.flatMap_tokens item, flatMap_tokensOf rest, renderAll]

end

/-- The names of the start tags among some tags and texts, each with its place, if the first one
stands at `offset`. -/
def startsFrom (offset : Nat) : List Token → List (String × Nat)
  | [] => []
  | .opening tag slash :: rest =>
    (String.ofList tag.name, offset) :: startsFrom (offset + (tag.opening slash).length) rest
  | token :: rest => startsFrom (offset + token.render.length) rest

theorem startsFrom_append (tokens more : List Token) : ∀ offset : Nat,
    startsFrom offset (tokens ++ more) =
      startsFrom offset tokens ++
        startsFrom (offset + (tokens.flatMap Token.render).length) more := by
  induction tokens with
  | nil => exact fun _ => rfl
  | cons token rest ih =>
    intro offset
    rw [List.flatMap_cons, List.length_append, ← Nat.add_assoc]
    cases token with
    | text chars plain => exact ih _
    | opening tag slash => exact congrArg (List.cons _) (ih _)
    | ending tag => exact ih _

mutual

theorem Item.startsFrom_tokens : ∀ (item : Item) (before after : List Char),
    startsFrom before.length item.tokens =
      (item.standings before after).map Standing.place
  | .text .., _, _ => rfl
  | .single .., _, _ => rfl
  | .paired tag content _, before, after => by
    rw [Item.tokens, Item.standings, List.map_cons, startsFrom, startsFrom_append,
      ← List.length_append, startsFrom_tokensOf content (before ++ tag.opening false)
        (tag.ending ++ after)]
    exact congrArg (List.cons _) (List.append_nil _)

/-- **The start tags of a document, from left to right, are those of its elements in document
order.** -/
theorem startsFrom_tokensOf : ∀ (items : List Item) (before after : List Char),
    startsFrom before.length (tokensOf items) =
      (standingsOf before after items).map Standing.place
  | [], _, _ => rfl
  | item :: rest, before, after => by
    rw [tokensOf, standingsOf, List.map_append, startsFrom_append, Item.flatMap_tokens item,
      ← List.length_append, Item.startsFrom_tokens item before (renderAll rest ++ after),
      startsFrom_tokensOf rest (before ++ item.render) after]

end

end Mooring.Markup
