import Mooring.Proofs.Markup.Places

/-!
# The scan and the reader

The end of an element is found by a scan of its own, which counts the tags of the element's name and
knows nothing else of the document (`Mooring.Markup.Extent`).  This is what the scan has to see for
its answer to be right: the start tag as the reader read it, and behind it the tags of the name that
the reader read (`Agrees`).

That alone is not enough, since end tags may be missing.  `Orderly` says when a missing one goes
unnoticed: the scan for the element that lacks it then comes to nothing (`closing?_eq_none`), and
the scan for any other element stops at the end tag that the reader closed it with
(`Awaits.close`).
-/

namespace Mooring.Markup

open Mooring.Text

/-! ## What the scan sees -/

/-- What a tag does to the number of open elements of its name. -/
inductive TagKind
  | opening
  | alone
  | ending
  deriving DecidableEq

/-- A tag, with the place behind it. -/
structure SeenTag where
  kind : TagKind
  stop : Nat
  deriving DecidableEq

/-- The tags of a name that the scan sees in the rest of a text of this size. -/
def seenTags (size : Nat) (name : List Char) : Nat → List Char → List SeenTag
  | 0, _ => []
  | fuel + 1, cs =>
    match nextTag name cs with
    | .none => []
    | .closing after =>
      let rest := (afterFirst? (· == '>') after).getD []
      ⟨.ending, size - rest.length⟩ :: seenTags size name fuel rest
    | .opening here =>
      let (rest, closed) := afterStartTag here
      ⟨if closed then .alone else .opening, size - rest.length⟩ :: seenTags size name fuel rest

/-- The place behind the tag that closes `depth` open elements. -/
def closing? (depth : Nat) : List SeenTag → Option Nat
  | [] => none
  | ⟨.opening, _⟩ :: later => closing? (depth + 1) later
  | ⟨.alone, _⟩ :: later => closing? depth later
  | ⟨.ending, stop⟩ :: later => if depth ≤ 1 then some stop else closing? (depth - 1) later

/-- The scan stops at the tag that closes the last open element. -/
theorem map_afterEndTag? (size : Nat) (name : List Char) : ∀ (fuel depth : Nat) (cs : List Char),
    (afterEndTag? name fuel depth cs).map (size - ·.length) =
      closing? depth (seenTags size name fuel cs)
  | 0, _, _ => rfl
  | fuel + 1, depth, cs => by
    rw [afterEndTag?, seenTags]
    cases nextTag name cs with
    | none => rfl
    | closing after =>
      dsimp only
      rw [closing?]
      split
      · rfl
      · exact map_afterEndTag? size name fuel _ _
    | opening here =>
      dsimp only
      rw [map_afterEndTag? size name fuel]
      cases (afterStartTag here).2 with
      | true => rfl
      | false => rfl

/-- The place behind the end tag of an element, if the scan finds one. -/
def endOf? (masked : List Char) (e : Element) : Option Nat :=
  (afterElement? e.name (masked.drop e.offset)).map (masked.length - ·.length)

/-- The place behind the start tag of an element, as the scan sees it. -/
def startTagStop (masked : List Char) (e : Element) : Nat :=
  masked.length - (afterStartTag (masked.drop e.offset)).1.length

/-! ## What the reader reads -/

/-- The tag of a name that an event was read from. -/
def Placed.tag? (name : String) (p : Placed) : Option SeenTag :=
  match p.event with
  | .start tag _ =>
    if tag.name = name then some ⟨if tag.selfClosing then .alone else .opening, p.stop⟩ else none
  | .finish other => if other = name then some ⟨.ending, p.stop⟩ else none
  | _ => none

namespace Placed

variable {p : Placed} {name : String}

theorem tag?_start {tag : ReadTag} {offset : Nat} (hevent : p.event = .start tag offset)
    (hsame : tag.name = name) :
    p.tag? name = some ⟨if tag.selfClosing then .alone else .opening, p.stop⟩ := by
  rw [tag?, hevent]
  exact if_pos hsame

theorem tag?_start_of_ne {tag : ReadTag} {offset : Nat} (hevent : p.event = .start tag offset)
    (hne : tag.name ≠ name) : p.tag? name = none := by
  rw [tag?, hevent]
  exact if_neg hne

theorem tag?_finish (hevent : p.event = .finish name) : p.tag? name = some ⟨.ending, p.stop⟩ := by
  rw [tag?, hevent]
  exact if_pos rfl

theorem tag?_finish_of_ne {other : String} (hevent : p.event = .finish other)
    (hne : other ≠ name) : p.tag? name = none := by
  rw [tag?, hevent]
  exact if_neg hne

theorem tag?_of_text (hstart : ∀ tag offset, p.event ≠ .start tag offset)
    (hfinish : ∀ other, p.event ≠ .finish other) (name : String) : p.tag? name = none := by
  unfold tag?
  split
  next tag offset hevent => exact absurd hevent (hstart tag offset)
  next other hevent => exact absurd hevent (hfinish other)
  next => rfl

end Placed

/-- The tags of a name that some events were read from. -/
def readTags (name : String) (placed : List Placed) : List SeenTag :=
  placed.filterMap (·.tag? name)

theorem readTags_skip {name : String} {p : Placed} (h : p.tag? name = none) (later : List Placed) :
    readTags name (p :: later) = readTags name later :=
  List.filterMap_cons_none h

theorem readTags_cons {name : String} {p : Placed} {tag : SeenTag} (h : p.tag? name = some tag)
    (later : List Placed) : readTags name (p :: later) = tag :: readTags name later :=
  List.filterMap_cons_some h

/-- An element has content, for the scan. -/
def hasContent (tag : ReadTag) : Bool :=
  !(tag.selfClosing || contentless.contains tag.name)

/-- **The scan sees what the reader read** of an element: the end of its start tag, that it has no
content if the reader says so, and otherwise the tags of its name behind it. -/
structure Agrees (masked : List Char) (tag : ReadTag) (offset stop : Nat) (later : List Placed) :
    Prop where
  startTag : afterStartTag (masked.drop offset) = (masked.drop stop, tag.selfClosing)
  void : voidNames.contains tag.name = true → hasContent tag = false
  tags : hasContent tag = true → seenTags masked.length tag.name.toList (masked.drop stop).length
    (masked.drop stop) = readTags tag.name later

/-- The scan sees what the reader read of the elements that some events start. -/
def AllAgree (masked : List Char) : List Placed → Prop
  | [] => True
  | p :: later =>
    (match p.event with
      | .start tag offset => Agrees masked tag offset p.stop later
      | _ => True) ∧ AllAgree masked later

instance (masked : List Char) (tag : ReadTag) (offset stop : Nat) (later : List Placed) :
    Decidable (Agrees masked tag offset stop later) :=
  decidable_of_iff (afterStartTag (masked.drop offset) = (masked.drop stop, tag.selfClosing) ∧
      (voidNames.contains tag.name = true → hasContent tag = false) ∧
      (hasContent tag = true → seenTags masked.length tag.name.toList (masked.drop stop).length
        (masked.drop stop) = readTags tag.name later))
    ⟨fun ⟨h₁, h₂, h₃⟩ => ⟨h₁, h₂, h₃⟩, fun h => ⟨h.startTag, h.void, h.tags⟩⟩

instance decidableAllAgree (masked : List Char) : ∀ placed, Decidable (AllAgree masked placed)
  | [] => .isTrue trivial
  | ⟨event, stop⟩ :: later =>
    have := decidableAllAgree masked later
    match event with
    | .start tag offset =>
      inferInstanceAs (Decidable (Agrees masked tag offset stop later ∧ AllAgree masked later))
    | .finish _ | .text _ | .separateText _ | .cut =>
      inferInstanceAs (Decidable (True ∧ AllAgree masked later))

section Agrees

variable {masked : List Char} {tag : ReadTag} {offset stop : Nat} {later : List Placed}

/-- The start tag of an element ends where the reader says. -/
theorem Agrees.startTagStop (h : Agrees masked tag offset stop later)
    (hstop : stop ≤ masked.length) : startTagStop masked (tag.element offset) = stop := by
  show masked.length - (afterStartTag (masked.drop offset)).1.length = stop
  rw [h.startTag, List.length_drop]
  omega

/-- An element without content ends with its start tag. -/
theorem Agrees.endOf?_of_contentless (h : Agrees masked tag offset stop later)
    (hstop : stop ≤ masked.length) (hcontent : hasContent tag = false) :
    endOf? masked (tag.element offset) = some stop := by
  have hclosed : (tag.selfClosing || contentless.contains tag.name) = true := by
    rwa [hasContent, Bool.not_eq_false'] at hcontent
  show (afterElement? tag.name (masked.drop offset)).map _ = _
  rw [afterElement?, h.startTag]
  dsimp only
  rw [if_pos hclosed, Option.map_some, List.length_drop]
  congr 1
  omega

/-- The scan for an element's end starts with one open element. -/
theorem Agrees.endOf?_of_content (h : Agrees masked tag offset stop later)
    (hcontent : hasContent tag = true) :
    endOf? masked (tag.element offset) = closing? 1 (readTags tag.name later) := by
  have hopen : (tag.selfClosing || contentless.contains tag.name) = false := by
    rwa [hasContent, Bool.not_eq_true'] at hcontent
  show (afterElement? tag.name (masked.drop offset)).map _ = _
  rw [afterElement?, h.startTag]
  dsimp only
  rw [hopen, ← h.tags hcontent]
  exact map_afterEndTag? masked.length tag.name.toList _ 1 (masked.drop stop)

end Agrees

/-! ## Missing end tags -/

/-- End tags may be missing, as long as no other end tag can be taken for a missing one.  Given the
names of the elements closed without an end tag and of the open elements, innermost first: an end
tag that closes nothing has no namesake among the former, and the elements that an end tag closes on
its way have no namesake among those that stay open. -/
def Orderly (left opened : List String) : List Placed → Prop
  | [] => True
  | p :: later =>
    match p.event with
    | .start tag _ => Orderly left (if hasContent tag then tag.name :: opened else opened) later
    | .finish name =>
      if contentless.contains name then Orderly left opened later
      else
        match opened.findIdx? (· == name) with
        | none => name ∉ left ∧ Orderly left opened later
        | some depth => (∀ other ∈ opened.take depth, other ∉ opened.drop (depth + 1)) ∧
            Orderly (opened.take depth ++ left) (opened.drop (depth + 1)) later
    | _ => Orderly left opened later

instance decidableOrderly : ∀ (placed : List Placed) (left opened : List String),
    Decidable (Orderly left opened placed)
  | [], _, _ => .isTrue trivial
  | ⟨event, _⟩ :: later, left, opened =>
    match event with
    | .start tag _ =>
      decidableOrderly later left (if hasContent tag then tag.name :: opened else opened)
    | .finish name =>
      have := decidableOrderly later left opened
      have : Decidable (match opened.findIdx? (· == name) with
          | none => name ∉ left ∧ Orderly left opened later
          | some depth => (∀ other ∈ opened.take depth, other ∉ opened.drop (depth + 1)) ∧
              Orderly (opened.take depth ++ left) (opened.drop (depth + 1)) later) :=
        match opened.findIdx? (· == name) with
        | none => inferInstanceAs (Decidable (name ∉ left ∧ Orderly left opened later))
        | some depth =>
          have := decidableOrderly later (opened.take depth ++ left) (opened.drop (depth + 1))
          inferInstanceAs (Decidable (_ ∧ _))
      inferInstanceAs (Decidable (if contentless.contains name then _ else _))
    | .text _ | .separateText _ | .cut => decidableOrderly later left opened

/-- The first place where something holds splits a list. -/
theorem exists_of_findIdx? {α : Type} {p : α → Bool} : ∀ {xs : List α} {n : Nat},
    xs.findIdx? p = some n → ∃ before x after, xs = before ++ x :: after ∧ before.length = n ∧
      p x = true ∧ ∀ y ∈ before, p y = false
  | [], n, h => absurd h (by simp)
  | x :: xs, n, h => by
    rw [List.findIdx?_cons] at h
    split at h
    next hx =>
      obtain rfl := Option.some.inj h
      exact ⟨[], x, xs, rfl, rfl, hx, by simp⟩
    next hx =>
      obtain ⟨m, hm, rfl⟩ := Option.map_eq_some_iff.mp h
      obtain ⟨before, y, after, rfl, rfl, hy, hbefore⟩ := exists_of_findIdx? hm
      exact ⟨x :: before, y, after, rfl, rfl, hy,
        List.forall_mem_cons.mpr ⟨Bool.eq_false_iff.mpr hx, hbefore⟩⟩

theorem drop_succ_left {α : Type} (before : List α) (x : α) (after : List α) :
    (before ++ x :: after).drop (before.length + 1) = after := by
  rw [List.drop_append, List.drop_of_length_le (by omega), Nat.add_sub_cancel_left]
  rfl

/-- **A missing end tag goes unnoticed**: the scan for an element that lacks one finds no other. -/
theorem closing?_eq_none {name : String} (hname : contentless.contains name = false) :
    ∀ {placed : List Placed} {left opened : List String} {depth : Nat},
      Orderly left opened placed → name ∈ left → opened.count name < depth →
      closing? depth (readTags name placed) = none
  | [], _, _, _, _, _, _ => rfl
  | p :: later, left, opened, depth, h, hleft, hdepth => by
    rw [Orderly] at h
    split at h
    next tag offset hevent =>
      by_cases hsame : tag.name = name
      · rw [readTags_cons (Placed.tag?_start hevent hsame)]
        cases hclosing : tag.selfClosing with
        | true =>
          rw [hasContent, hclosing] at h
          exact closing?_eq_none hname h hleft hdepth
        | false =>
          rw [hasContent, hclosing, hsame, hname] at h
          refine closing?_eq_none hname h hleft ?_
          show (name :: opened).count name < depth + 1
          rw [List.count_cons_self]
          omega
      · rw [readTags_skip (Placed.tag?_start_of_ne hevent hsame)]
        refine closing?_eq_none hname h hleft ?_
        split
        · rwa [List.count_cons_of_ne hsame]
        · exact hdepth
    next other hevent =>
      split at h
      next hcontentless =>
        have hne : other ≠ name := fun heq => by
          rw [heq, hname] at hcontentless
          exact absurd hcontentless (by simp)
        rw [readTags_skip (Placed.tag?_finish_of_ne hevent hne)]
        exact closing?_eq_none hname h hleft hdepth
      next =>
        split at h
        next =>
          have hne : other ≠ name := fun heq => h.1 (heq ▸ hleft)
          rw [readTags_skip (Placed.tag?_finish_of_ne hevent hne)]
          exact closing?_eq_none hname h.2 hleft hdepth
        next found hfound =>
          obtain ⟨inner, x, outer, rfl, rfl, hx, -⟩ := exists_of_findIdx? hfound
          obtain rfl := eq_of_beq hx
          rw [List.take_left, drop_succ_left] at h
          have hleft' := List.mem_append_right inner hleft
          rw [List.count_append] at hdepth
          by_cases hsame : x = name
          · subst hsame
            rw [List.count_cons_self] at hdepth
            rw [readTags_cons (Placed.tag?_finish hevent), closing?, if_neg (by omega)]
            exact closing?_eq_none hname h.2 hleft' (by omega)
          · rw [List.count_cons_of_ne hsame] at hdepth
            rw [readTags_skip (Placed.tag?_finish_of_ne hevent hsame)]
            exact closing?_eq_none hname h.2 hleft' (by omega)
    next hstart hfinish =>
      rw [readTags_skip (Placed.tag?_of_text hstart hfinish name)]
      exact closing?_eq_none hname h hleft hdepth

/-! ## Waiting for an end tag -/

/-- The scan for each open element is waiting for the end tags of its namesakes inside it and for
its own. -/
def Awaits (masked : List Char) (opened : List Element) (placed : List Placed) : Prop :=
  ∀ inner e outer, opened = inner ++ e :: outer →
    endOf? masked e = closing? ((inner.map (·.name)).count e.name + 1) (readTags e.name placed)

namespace Awaits

variable {masked : List Char} {opened inner outer : List Element} {e : Element} {p : Placed}
  {later : List Placed}

theorem skip (h : Awaits masked opened (p :: later)) (hskip : ∀ e ∈ opened, p.tag? e.name = none) :
    Awaits masked opened later := by
  intro inner e outer hsplit
  have hmem : e ∈ opened := hsplit ▸ List.mem_append_right inner List.mem_cons_self
  rw [h inner e outer hsplit, readTags_skip (hskip e hmem)]

theorem alone {tag : ReadTag} {offset : Nat} (h : Awaits masked opened (p :: later))
    (hevent : p.event = .start tag offset) (hcontent : hasContent tag = false)
    (hopened : ∀ e ∈ opened, contentless.contains e.name = false) : Awaits masked opened later := by
  intro inner e outer hsplit
  have hmem : e ∈ opened := hsplit ▸ List.mem_append_right inner List.mem_cons_self
  rw [h inner e outer hsplit]
  by_cases hsame : tag.name = e.name
  · -- Open elements have content, so a namesake without must have closed itself.
    have hclosing : tag.selfClosing = true := by
      rwa [hasContent, hsame, hopened e hmem, Bool.or_false, Bool.not_eq_false'] at hcontent
    rw [readTags_cons (Placed.tag?_start hevent hsame), if_pos hclosing, closing?]
  · rw [readTags_skip (Placed.tag?_start_of_ne hevent hsame)]

theorem push {tag : ReadTag} {offset : Nat} (h : Awaits masked opened (p :: later))
    (hevent : p.event = .start tag offset) (hcontent : hasContent tag = true)
    (hagrees : Agrees masked tag offset p.stop later) :
    Awaits masked (tag.element offset :: opened) later := by
  intro inner e outer hsplit
  cases inner with
  | nil =>
    obtain ⟨rfl, -⟩ := List.cons.inj hsplit
    exact hagrees.endOf?_of_content hcontent
  | cons first inner =>
    obtain ⟨rfl, hrest⟩ := List.cons.inj hsplit
    rw [h inner e outer hrest]
    show _ = closing? ((tag.name :: inner.map (·.name)).count e.name + 1) _
    by_cases hsame : tag.name = e.name
    · have hopens : tag.selfClosing = false := by
        rw [hasContent, Bool.not_eq_true', Bool.or_eq_false_iff] at hcontent
        exact hcontent.1
      rw [readTags_cons (Placed.tag?_start hevent hsame), hopens, hsame, List.count_cons_self]
      rfl
    · rw [readTags_skip (Placed.tag?_start_of_ne hevent hsame), List.count_cons_of_ne hsame]

/-- **An end tag is the one that its element is waiting for.**  The elements that it closes on the
way wait in vain, and those that stay open keep waiting. -/
theorem close {left : List String} (h : Awaits masked (inner ++ e :: outer) (p :: later))
    (hevent : p.event = .finish e.name) (hinner : ∀ i ∈ inner, i.name ≠ e.name)
    (hopened : ∀ i ∈ inner, contentless.contains i.name = false)
    (hapart : ∀ i ∈ inner, i.name ∉ outer.map (·.name))
    (horderly : Orderly left (outer.map (·.name)) later) (hleft : ∀ i ∈ inner, i.name ∈ left) :
    endOf? masked e = some p.stop ∧ (∀ i ∈ inner, endOf? masked i = none) ∧
      Awaits masked outer later := by
  have hself : p.tag? e.name = some ⟨.ending, p.stop⟩ := Placed.tag?_finish hevent
  have hnone : (inner.map (·.name)).count e.name = 0 := by
    refine List.count_eq_zero.mpr fun hmem => ?_
    obtain ⟨i, hi, hname⟩ := List.mem_map.mp hmem
    exact hinner i hi hname
  refine ⟨?_, fun i hi => ?_, fun inner' x outer' hsplit => ?_⟩
  · rw [h inner e outer rfl, hnone, readTags_cons hself, closing?]
    rfl
  · obtain ⟨before, after, rfl⟩ := List.append_of_mem hi
    rw [h before i (after ++ e :: outer) (by simp),
      readTags_skip (Placed.tag?_finish_of_ne hevent (hinner i hi).symm)]
    refine closing?_eq_none (hopened i hi) horderly (hleft i hi) ?_
    rw [List.count_eq_zero.mpr (hapart i hi)]
    exact Nat.succ_pos _
  · subst hsplit
    rw [h (inner ++ e :: inner') x outer' (by simp)]
    have hzero : (inner.map (·.name)).count x.name = 0 := by
      refine List.count_eq_zero.mpr fun hmem => ?_
      obtain ⟨i, hi, hname⟩ := List.mem_map.mp hmem
      exact hapart i hi (hname ▸ List.mem_map_of_mem (by simp))
    rw [List.map_append, List.map_cons, List.count_append, hzero, Nat.zero_add]
    by_cases hsame : e.name = x.name
    · rw [hsame, List.count_cons_self, readTags_cons (hsame ▸ hself), closing?, if_neg (by omega),
        Nat.add_sub_cancel]
    · rw [List.count_cons_of_ne hsame, readTags_skip (Placed.tag?_finish_of_ne hevent hsame)]

/-- Elements that are open at the end of the text wait in vain. -/
theorem endOf?_eq_none (h : Awaits masked opened []) (he : e ∈ opened) : endOf? masked e = none := by
  obtain ⟨inner, outer, rfl⟩ := List.append_of_mem he
  exact h inner e outer rfl

end Awaits

end Mooring.Markup
