import Mooring.Proofs.Markup.ElementEnd
import Mooring.Proofs.Markup.Order

/-!
# Reading well-formed documents

Reading a well-formed document reports its elements: each one once, in document order, under its
name and at the place of its `<` (`reported_of_readable`).

There is one proviso.  Between the parts of a tag any blank will do, but right behind an element's
name the reader goes on over the blanks that are rare, as if they were part of the name; so a
document is readable if none of those stands there (`Readable`).  Other documents may be reported as
well, and it is being reported that matters later on (`Reported`).

A document is read from left to right, tag by tag.  A start tag is passed attribute by attribute
(`attributes_inner`), twice: once to find its end, and once to read it.
-/

namespace Mooring.Markup

open Mooring.Text

/-- A text without ampersands stands for itself. -/
theorem resolveReferences_plain {value : List Char} (h : ∀ c ∈ value, c ≠ '&') :
    resolveReferences value = value := by
  have hfrom : ∀ fuel, resolveFrom fuel value = value := by
    induction value with
    | nil => exact fun fuel => by cases fuel <;> rfl
    | cons c rest ih =>
      obtain ⟨hc, hrest⟩ := List.forall_mem_cons.mp h
      intro fuel
      cases fuel with
      | zero => rfl
      | succ fuel => rw [resolveFrom, if_neg (by simpa using hc), ih hrest]
  exact hfrom value.length

/-! ## Reading positions -/

/-- A run of characters is passed up to the first one of another kind. -/
theorem Cursor.skip_stop {p : Char → Bool} {lead : List Char} (hlead : ∀ c ∈ lead, p c = true)
    {c : Char} (hc : p c = false) (rest : List Char) : ∀ previous : Char,
    Cursor.skip p previous (lead ++ c :: rest) = ⟨lead.getLastD previous, c :: rest⟩ := by
  induction lead with
  | nil => exact fun previous => by simp [Cursor.skip, hc]
  | cons d lead ih =>
    intro previous
    obtain ⟨hd, hlead'⟩ := List.forall_mem_cons.mp hlead
    rw [List.cons_append, Cursor.skip, if_pos hd, ih hlead', List.getLastD_cons]

/-- Blanks are passed up to what is no gap any more. -/
theorem Cursor.skipGaps_stop {gap : List Char} (hgap : ∀ c ∈ gap, isBlank c = true)
    {c : Char} {rest : List Char}
    (hstop : (isBlank c = false ∧ c ≠ '/') ∨ ∃ more, c :: rest = '/' :: '>' :: more) :
    ∀ previous : Char,
    Cursor.skipGaps previous (gap ++ c :: rest) = ⟨gap.getLastD previous, c :: rest⟩ := by
  induction gap with
  | nil =>
    intro previous
    rw [List.nil_append]
    rcases hstop with ⟨hblank, hslash⟩ | ⟨more, heq⟩
    · rw [Cursor.skipGaps.eq_3 _ _ _ fun more heq _ => hslash heq]
      exact if_neg (by simp [hblank, hslash])
    · rw [heq]
      rfl
  | cons d gap ih =>
    intro previous
    obtain ⟨hd, hgap'⟩ := List.forall_mem_cons.mp hgap
    have hslash : d ≠ '/' := (passable_of_isBlank hd).slash
    rw [List.cons_append, Cursor.skipGaps.eq_3 _ _ _ fun more heq _ => hslash heq,
      if_pos (by rw [hd, Bool.true_or]), ih hgap', List.getLastD_cons]

theorem suffix_skipGaps (previous : Char) (cs : List Char) :
    (Cursor.skipGaps previous cs).rest <:+ cs := by
  fun_induction Cursor.skipGaps previous cs with
  | case1 => exact List.suffix_refl _
  | case2 => exact List.suffix_refl _
  | case3 previous c rest hne hc ih => exact ih.trans (List.suffix_cons c rest)
  | case4 => exact List.suffix_refl _

/-! ## Names -/

theorem isBlank_of_isLowNameChar {c : Char} (h : isLowNameChar c = true) : isBlank c = false := by
  rw [← Bool.not_eq_true]
  intro hblank
  have hends : endsTagName [c] = true := by simp [endsTagName, hblank]
  rw [isLowNameChar_of_endsTagName hends] at h
  exact absurd h (by decide)

theorem isAttributeNameChar_of_isLowNameChar {c : Char} (h : isLowNameChar c = true) :
    isAttributeNameChar c = true := by
  obtain ⟨-, -, hend, hslash, -⟩ := passable_of_isLowNameChar h
  have hequals : c ≠ '=' := by
    rintro rfl
    exact absurd h (by decide)
  simp [isAttributeNameChar, isBlank_of_isLowNameChar h, hend, hslash, hequals]

theorem isEndNameChar_of_isLowNameChar {c : Char} (h : isLowNameChar c = true) :
    isEndNameChar c = true := by
  simp only [isLowNameChar, Bool.or_eq_true] at h
  rcases h with (hletter | hdigit) | hhyphen
  · simp [isEndNameChar, isAsciiLetter, hletter]
  · simp [isEndNameChar, hdigit]
  · simp [isEndNameChar, hhyphen]

theorem endsElementName_of_isLowNameChar {c : Char} (h : isLowNameChar c = true) :
    endsElementName c = false := by
  rw [← Bool.not_eq_true]
  intro hends
  simp only [endsElementName, Bool.or_eq_true, beq_iff_eq] at hends
  rcases hends with ((((((rfl | rfl) | rfl) | rfl) | rfl) | rfl) | rfl) | rfl <;>
    exact absurd h (by decide)

/-! ## Attributes -/

/-- A value in quotes is read up to its closing quote. -/
theorem value?_some {value : List Char} (h : '"' ∉ value) (rest : List Char) :
    value? (renderValue (some value) ++ rest) = some (value, ⟨'"', rest⟩) := by
  have hwhole : renderValue (some value) ++ rest = '=' :: '"' :: (value ++ '"' :: rest) := by
    simp [renderValue]
  have hquoted : quotedValue? ('"' :: (value ++ '"' :: rest)) = some (value, ⟨'"', rest⟩) := by
    have hsplit : splitBefore? (· == '"') (value ++ '"' :: rest) = some (value, '"' :: rest) :=
      splitBefore?_lead (fun _ hc => beq_eq_false_iff_ne.mpr fun heq => h (by rwa [← heq])) rfl rest
    rw [quotedValue?, if_pos (show ('"' == '"' || '"' == '\'') = true from rfl), hsplit]
    rfl
  rw [hwhole]
  unfold value?
  have hblanks : ('=' :: '"' :: (value ++ '"' :: rest)).dropWhile isBlank =
      '=' :: '"' :: (value ++ '"' :: rest) := List.dropWhile_cons_of_neg (by decide)
  have hequals : ('=' :: '"' :: (value ++ '"' :: rest)).takeWhile (· == '=') = ['='] := rfl
  have hafter : ('=' :: '"' :: (value ++ '"' :: rest)).dropWhile (· == '=') =
      '"' :: (value ++ '"' :: rest) := rfl
  have hskip : Cursor.skip isBlank '=' ('"' :: (value ++ '"' :: rest)) =
      ⟨'=', '"' :: (value ++ '"' :: rest)⟩ := rfl
  dsimp only
  rw [hblanks, hequals, hafter, hskip, hquoted]
  rfl

/-- No attribute stands where the tag ends. -/
theorem attribute?_tagEnd (previous : Char) (slash : Bool) (rest : List Char) :
    attribute? ⟨previous, tagEnd slash ++ rest⟩ = none := by
  unfold attribute?
  dsimp only
  split
  · rfl
  · cases slash <;> rfl

theorem attributes_of_none {cursor : Cursor} (h : attribute? cursor = none) (stop fuel : Nat) :
    attributes stop fuel cursor = ([], cursor) := by
  cases fuel with
  | zero => rfl
  | succ fuel =>
    rw [attributes]
    split
    · rfl
    · rw [h]

theorem attributes_of_some {cursor after : Cursor} {a : ReadAttribute} {more : List ReadAttribute}
    {stop fuel : Nat} (h : attribute? cursor = some a) (hstop : stop < cursor.rest.length)
    (hmore : attributes stop fuel a.after = (more, after)) :
    attributes stop (fuel + 1) cursor = (a :: more, after) := by
  rw [attributes, if_neg (Nat.not_le.mpr hstop), h]
  dsimp only
  rw [hmore]

namespace Tag

variable (tag : Tag)

/-- The tag with only some of its attributes. -/
def withAttributes (later : List TagAttribute) : Tag :=
  { tag with attributes := later }

/-- The blanks behind the name, or behind an attribute, and what they are followed by: the next
attribute or the end of the tag. -/
theorem exists_gap (slash : Bool) (rest : List Char) : ∃ gap c more,
    tag.inner ++ (tagEnd slash ++ rest) = gap ++ c :: more ∧
      (∀ d ∈ gap, isBlank d = true) ∧ isBlank c = false ∧ c ≠ '=' := by
  unfold inner
  cases tag.attributes with
  | cons a later =>
    obtain ⟨c, name, hname, -⟩ := a.name_low.first
    have hlow := a.name_low.chars c (hname ▸ List.mem_cons_self)
    refine ⟨a.gap, c, name ++ (renderValue a.value ++ (later.flatMap TagAttribute.render ++
      (tag.gap ++ (tagEnd slash ++ rest)))), ?_, a.gap_blank, isBlank_of_isLowNameChar hlow, ?_⟩
    · simp [TagAttribute.render, hname]
    · rintro rfl
      exact absurd hlow (by decide)
  | nil =>
    cases slash with
    | true => exact ⟨tag.gap, '/', '>' :: rest, rfl, tag.gap_blank, by decide, by decide⟩
    | false => exact ⟨tag.gap, '>', rest, rfl, tag.gap_blank, by decide, by decide⟩

/-- There is no value where no equals sign stands. -/
theorem value?_none (slash : Bool) (rest : List Char) :
    value? (renderValue none ++ (tag.inner ++ (tagEnd slash ++ rest))) = none := by
  obtain ⟨gap, c, more, hwhole, hgap, hc, hequals⟩ := tag.exists_gap slash rest
  have hstart : (c :: more).takeWhile (· == '=') = [] :=
    List.takeWhile_cons_of_neg (by simpa using hequals)
  unfold value?
  dsimp only
  rw [renderValue, List.nil_append, hwhole, dropWhile_stop hgap hc, hstart]
  rfl

/-- Behind an attribute's name stands a character that ends it. -/
theorem exists_nameStop (value : Option (List Char)) (slash : Bool) (rest : List Char) :
    ∃ stop more, renderValue value ++ (tag.inner ++ (tagEnd slash ++ rest)) = stop :: more ∧
      isAttributeNameChar stop = false := by
  cases value with
  | some value =>
    rw [renderValue, List.cons_append]
    exact ⟨'=', _, rfl, by decide⟩
  | none =>
    obtain ⟨stop, more, hmore, hstop⟩ := tag.exists_stop slash rest
    refine ⟨stop, more, hmore, ?_⟩
    simp only [endsTagName, Bool.or_eq_true, beq_iff_eq] at hstop
    rcases hstop with (hblank | rfl) | rfl
    · simp [isAttributeNameChar, hblank]
    · decide
    · decide

/-- **An attribute is read up to the next one.** -/
theorem attribute?_render (a : TagAttribute) (slash : Bool) (rest : List Char) {previous : Char}
    (hprevious : isBlank previous = true) : ∃ last,
    attribute?
        ⟨previous, a.name ++ (renderValue a.value ++ (tag.inner ++ (tagEnd slash ++ rest)))⟩ =
      some ⟨a.name, a.value.getD [],
        Cursor.skipGaps last (tag.inner ++ (tagEnd slash ++ rest))⟩ := by
  obtain ⟨c, name, hname, -⟩ := a.name_low.first
  have hlow : ∀ d ∈ c :: name, isLowNameChar d = true := hname ▸ a.name_low.chars
  obtain ⟨hc, hlater⟩ := List.forall_mem_cons.mp hlow
  obtain ⟨-, -, hend, hslash, -⟩ := passable_of_isLowNameChar hc
  have hrun : ∀ d ∈ name, isAttributeNameChar d = true := fun d hd =>
    isAttributeNameChar_of_isLowNameChar (hlater d hd)
  obtain ⟨stop, more, hmore, hstop⟩ := tag.exists_nameStop a.value slash rest
  rw [hname, List.cons_append]
  unfold attribute?
  dsimp only
  rw [if_neg (by simp [hprevious]),
    if_neg (by simp [isBlank_of_isLowNameChar hc, hend, hslash]), hmore,
    takeWhile_stop hrun hstop, Cursor.skip_stop hrun hstop, ← hmore]
  dsimp only
  cases hvalue : a.value with
  | none =>
    rw [tag.value?_none]
    exact ⟨_, rfl⟩
  | some value =>
    rw [value?_some fun hmem => (a.value_plain value hvalue _ hmem).1 rfl]
    exact ⟨'"', rfl⟩

theorem inner_cons (a : TagAttribute) (later : List TagAttribute) :
    (tag.withAttributes (a :: later)).inner =
      a.gap ++ (a.name ++ (renderValue a.value ++ (tag.withAttributes later).inner)) := by
  simp [inner, withAttributes, TagAttribute.render]

/-- The position where the reader goes on behind a name or an attribute if no other attribute
follows. -/
theorem skipGaps_tagEnd (slash : Bool) (rest : List Char) (previous : Char) :
    Cursor.skipGaps previous (tag.gap ++ (tagEnd slash ++ rest)) =
      ⟨tag.gap.getLastD previous, tagEnd slash ++ rest⟩ := by
  cases slash with
  | true => exact Cursor.skipGaps_stop tag.gap_blank (.inr ⟨rest, rfl⟩) previous
  | false => exact Cursor.skipGaps_stop tag.gap_blank (.inl ⟨by decide, by decide⟩) previous

/-- The position where the reader goes on if an attribute follows. -/
theorem skipGaps_attribute (a : TagAttribute) (rest : List Char) (previous : Char) : ∃ last,
    isBlank last = true ∧
      Cursor.skipGaps previous (a.gap ++ (a.name ++ rest)) = ⟨last, a.name ++ rest⟩ := by
  obtain ⟨c, name, hname, -⟩ := a.name_low.first
  have hlow := a.name_low.chars c (hname ▸ List.mem_cons_self)
  refine ⟨a.gap.getLastD previous, ?_, ?_⟩
  · obtain ⟨d, gap, hgap⟩ := List.exists_cons_of_ne_nil a.gap_ne_nil
    rw [hgap, List.getLastD_cons]
    exact a.gap_blank _ (hgap ▸ List.getLastD_mem_cons)
  · rw [hname, List.cons_append]
    exact Cursor.skipGaps_stop a.gap_blank
      (.inl ⟨isBlank_of_isLowNameChar hlow, (passable_of_isLowNameChar hlow).slash⟩) previous

theorem skip_attribute (a : TagAttribute) (rest : List Char) (previous : Char) :
    Cursor.skip (fun c => isBlank c || c == '/') previous (a.gap ++ (a.name ++ rest)) =
      Cursor.skipGaps previous (a.gap ++ (a.name ++ rest)) := by
  obtain ⟨c, name, hname, -⟩ := a.name_low.first
  have hlow := a.name_low.chars c (hname ▸ List.mem_cons_self)
  have hblank := isBlank_of_isLowNameChar hlow
  have hslash := (passable_of_isLowNameChar hlow).slash
  rw [hname, List.cons_append, Cursor.skipGaps_stop a.gap_blank (.inl ⟨hblank, hslash⟩)]
  exact Cursor.skip_stop (fun d hd => by rw [a.gap_blank d hd, Bool.true_or])
    (by simp [hblank, hslash]) _ previous

/-- **The attributes of a tag are read as they are written**, up to the end of the tag. -/
theorem attributes_inner {stop : Nat} (slash : Bool) {rest : List Char}
    (hstop : stop ≤ rest.length) :
    ∀ (given : List TagAttribute) (fuel : Nat) (previous : Char),
      (Cursor.skipGaps previous
        ((tag.withAttributes given).inner ++ (tagEnd slash ++ rest))).rest.length ≤ fuel →
      ∃ found last, Markup.attributes stop fuel
          (Cursor.skipGaps previous ((tag.withAttributes given).inner ++ (tagEnd slash ++ rest))) =
            (found, ⟨last, tagEnd slash ++ rest⟩) ∧
        found.map (fun a => (a.name, a.value)) = given.map fun a => (a.name, a.value.getD []) := by
  intro given
  induction given with
  | nil =>
    intro fuel previous _
    refine ⟨[], tag.gap.getLastD previous, ?_, rfl⟩
    have hgap : (tag.withAttributes []).inner = tag.gap := rfl
    rw [hgap, skipGaps_tagEnd, attributes_of_none (attribute?_tagEnd _ slash rest)]
  | cons a later ih =>
    intro fuel previous hfuel
    rw [inner_cons, List.append_assoc, List.append_assoc, List.append_assoc] at hfuel ⊢
    obtain ⟨blank, hblank, hskip⟩ := skipGaps_attribute a (renderValue a.value ++
      ((tag.withAttributes later).inner ++ (tagEnd slash ++ rest))) previous
    obtain ⟨last, hread⟩ := (tag.withAttributes later).attribute?_render a slash rest hblank
    have hpos := List.length_pos_iff.mpr a.name_low.ne_nil
    rw [hskip, List.length_append, List.length_append] at hfuel
    rw [hskip]
    cases fuel with
    | zero => omega
    | succ fuel =>
      -- What is left is behind the attribute, and that has a name.
      have hleft := (suffix_skipGaps last
        ((tag.withAttributes later).inner ++ (tagEnd slash ++ rest))).length_le
      obtain ⟨found, last', hfound, hsame⟩ := ih fuel last (by omega)
      have hlong : stop < (a.name ++ (renderValue a.value ++
          ((tag.withAttributes later).inner ++ (tagEnd slash ++ rest)))).length := by
        simp only [List.length_append]
        omega
      refine ⟨_, last', attributes_of_some hread hlong hfound, ?_⟩
      rw [List.map_cons, List.map_cons, hsame]

end Tag

/-! ## Tags -/

/-- Behind the name, the tag goes on with a blank that ends names, if it goes on. -/
def Tag.Readable (tag : Tag) : Prop :=
  tag.inner.head?.all endsElementName = true

instance (tag : Tag) : Decidable tag.Readable :=
  inferInstanceAs (Decidable (_ = true))

/-- A reader that stops at the end of the tag behind its attributes has found that end. -/
theorem startTagEnd_of_attributes {cursor gap : Cursor} {found : List ReadAttribute} {last : Char}
    {slash : Bool} {rest : List Char}
    (hgap : Cursor.skip (fun c => isBlank c || c == '/') cursor.previous cursor.rest = gap)
    (h : attributes 0 gap.rest.length gap = (found, ⟨last, tagEnd slash ++ rest⟩)) :
    startTagEnd cursor = .before rest := by
  unfold startTagEnd
  dsimp only
  rw [hgap, h]
  cases slash <;> rfl

namespace Tag

variable {tag : Tag}

/-- The end of a tag is found. -/
theorem startTagEnd_inner (slash : Bool) (rest : List Char) (previous : Char) :
    startTagEnd ⟨previous, tag.inner ++ (tagEnd slash ++ rest)⟩ = .before rest := by
  cases hgiven : tag.attributes with
  | nil =>
    -- A slash before the end is passed with the blanks.
    have hinner : tag.inner = tag.gap := by rw [inner, hgiven, List.flatMap_nil, List.nil_append]
    have hgap : ∀ c ∈ tag.gap ++ (if slash then ['/'] else []),
        (isBlank c || c == '/') = true := by
      intro c hc
      rcases List.mem_append.mp hc with hc | hc
      · rw [tag.gap_blank c hc, Bool.true_or]
      · cases slash with
        | true => rw [List.mem_singleton.mp hc]; rfl
        | false => exact absurd hc List.not_mem_nil
    have hwhole : tag.inner ++ (tagEnd slash ++ rest) =
        (tag.gap ++ (if slash then ['/'] else [])) ++ '>' :: rest := by
      rw [hinner]
      cases slash <;> simp [tagEnd]
    have hnone := attribute?_tagEnd ((tag.gap ++ (if slash then ['/'] else [])).getLastD previous)
      false rest
    rw [hwhole]
    exact startTagEnd_of_attributes (Cursor.skip_stop hgap (by decide) rest previous)
      (attributes_of_none hnone 0 _)
  | cons a later =>
    have hwhole : tag.inner = a.gap ++ (a.name ++ (renderValue a.value ++
        (tag.withAttributes later).inner)) := by
      rw [← inner_cons, ← hgiven]
      rfl
    obtain ⟨found, last, hread, -⟩ := tag.attributes_inner slash (Nat.zero_le rest.length)
      tag.attributes _ previous (Nat.le_refl _)
    refine startTagEnd_of_attributes ?_ hread
    show _ = Cursor.skipGaps previous (tag.inner ++ (tagEnd slash ++ rest))
    rw [hwhole, List.append_assoc, List.append_assoc]
    exact skip_attribute a _ previous

/-- The name of a tag is read up to its end. -/
theorem elementName?_inner (h : tag.Readable) (slash : Bool) (rest : List Char) : ∃ last,
    elementName? (tag.name ++ (tag.inner ++ (tagEnd slash ++ rest))) =
      some (tag.name, ⟨last, tag.inner ++ (tagEnd slash ++ rest)⟩) := by
  obtain ⟨stop, more, hmore, hstop⟩ : ∃ stop more,
      tag.inner ++ (tagEnd slash ++ rest) = stop :: more ∧ endsElementName stop = true := by
    cases hinner : tag.inner with
    | cons c inner =>
      rw [Readable, hinner] at h
      exact ⟨c, _, rfl, h⟩
    | nil =>
      cases slash with
      | true => exact ⟨'/', _, rfl, by decide⟩
      | false => exact ⟨'>', _, rfl, by decide⟩
  obtain ⟨c, name, hname, hc⟩ := tag.name_low.isAsciiLetter_first
  have hrun : ∀ d ∈ name, (!endsElementName d) = true := fun d hd => by
    rw [endsElementName_of_isLowNameChar
      (tag.name_low.chars d (hname ▸ List.mem_cons_of_mem c hd)), Bool.not_false]
  have hstop' : (!endsElementName stop) = false := by rw [hstop, Bool.not_true]
  rw [hmore, hname, List.cons_append, elementName?, if_pos hc]
  dsimp only
  rw [takeWhile_stop hrun hstop', Cursor.skip_stop hrun hstop']
  exact ⟨_, rfl⟩

/-- A tag as a reader sees it. -/
def read (tag : Tag) (slash : Bool) : ReadTag where
  name := String.ofList tag.name
  attributes := tag.attributes.map fun a =>
    (String.ofList a.name, String.ofList (a.value.getD []))
  selfClosing := slash

/-- Values without references stand for themselves. -/
theorem map_read {found : List ReadAttribute} (h : found.map (fun a => (a.name, a.value)) =
    tag.attributes.map fun a => (a.name, a.value.getD [])) (slash : Bool) :
    found.map (fun a => (String.ofList (lower a.name), String.ofList (resolveReferences a.value))) =
      (tag.read slash).attributes := by
  have hpairs := congrArg (List.map fun pair : List Char × List Char =>
    (String.ofList (lower pair.1), String.ofList (resolveReferences pair.2))) h
  rw [List.map_map, List.map_map] at hpairs
  refine hpairs.trans (List.map_congr_left fun a _ => ?_)
  have hvalue : resolveReferences (a.value.getD []) = a.value.getD [] := by
    cases hsome : a.value with
    | none => rfl
    | some value => exact resolveReferences_plain fun c hc => (a.value_plain value hsome c hc).2.2.1
  simp only [Function.comp, a.name_low.lower, hvalue]

/-- **A start tag is read as it is written.** -/
theorem readStartTag_opening (h : tag.Readable) (slash : Bool) (rest : List Char) :
    readStartTag (tag.opening slash ++ rest) = .tag (tag.read slash) rest := by
  have hdrop : (tag.opening slash ++ rest).drop 1 =
      tag.name ++ (tag.inner ++ (tagEnd slash ++ rest)) := by
    simp [opening]
  obtain ⟨last, hname⟩ := elementName?_inner h slash rest
  obtain ⟨found, last', hfound, hsame⟩ := tag.attributes_inner slash (Nat.le_refl rest.length)
    tag.attributes _ last (Nat.le_refl _)
  have hall : tag.withAttributes tag.attributes = tag := rfl
  rw [hall] at hfound
  have htail : trim ((tagEnd slash ++ rest).take ((tagEnd slash ++ rest).length - rest.length)) =
      tagEnd slash := by
    rw [List.length_append, Nat.add_sub_cancel, List.take_left]
    cases slash <;> decide
  unfold readStartTag
  rw [hdrop, hname]
  dsimp only
  rw [startTagEnd_inner]
  dsimp only
  rw [hfound]
  dsimp only
  rw [htail, map_read hsame slash, tag.name_low.lower]
  cases slash <;> rfl

/-- An end tag is read as it is written. -/
theorem readEndTag_ending (tag : Tag) (rest : List Char) :
    readEndTag none (tag.ending ++ rest) =
      .read [.finish (String.ofList tag.name)] none rest := by
  obtain ⟨c, name, hname, hc⟩ := tag.name_low.isAsciiLetter_first
  have hlow : ∀ d ∈ c :: name, isLowNameChar d = true := hname ▸ tag.name_low.chars
  have hrun : ∀ d ∈ name, isEndNameChar d = true := fun d hd =>
    isEndNameChar_of_isLowNameChar (hlow d (List.mem_cons_of_mem c hd))
  have hblank := isBlank_of_isLowNameChar (hlow c List.mem_cons_self)
  have hwhole : tag.ending ++ rest = '<' :: '/' :: (c :: name ++ '>' :: rest) := by
    simp [ending, hname]
  have hregular : regularEndTag? ('<' :: '/' :: (c :: name ++ '>' :: rest)) =
      some (tag.name, rest) := by
    unfold regularEndTag?
    rw [List.drop_succ_cons, List.drop_succ_cons, List.drop_zero, List.cons_append,
      List.dropWhile_cons_of_neg (by simp [hblank])]
    dsimp only
    rw [if_pos hc, takeWhile_stop hrun (by decide), dropWhile_stop hrun (by decide), hname]
    rfl
  have hmark : afterFirst? (· == '>') ('/' :: (c :: name ++ '>' :: rest)) = some rest := by
    rw [← List.cons_append]
    refine afterFirst?_lead (fun d hd => ?_) rfl rest
    rcases List.mem_cons.mp hd with rfl | hd
    · rfl
    · exact beq_eq_false_iff_ne.mpr (passable_of_isLowNameChar (hlow d hd)).mark
  rw [hwhole]
  unfold readEndTag
  rw [List.drop_succ_cons, List.drop_zero, hmark]
  dsimp only
  rw [hregular]
  dsimp only
  rw [tag.name_low.lower]
  rfl

end Tag

/-! ## Documents -/

/-- A start tag among tags and texts is readable. -/
def Token.Readable : Token → Prop
  | .opening tag _ => tag.Readable
  | _ => True

instance : ∀ token : Token, Decidable token.Readable
  | .text .. => inferInstanceAs (Decidable True)
  | .opening tag _ => inferInstanceAs (Decidable tag.Readable)
  | .ending _ => inferInstanceAs (Decidable True)

/-- No tag of the document has a rare blank right behind its name. -/
def Readable (document : List Item) : Prop :=
  ∀ token ∈ tokensOf document, token.Readable

instance (document : List Item) : Decidable (Readable document) :=
  inferInstanceAs (Decidable (∀ token ∈ tokensOf document, token.Readable))

/-- A `<` before a letter opens a start tag. -/
theorem readMarkup?_letter (offset : Nat) (raw : Option String) {c : Char}
    (hc : isAsciiLetter c = true) (rest : List Char) :
    readMarkup? offset raw ('<' :: c :: rest) = some (readStart offset ('<' :: c :: rest)) := by
  have hplain : c ≠ '/' ∧ c ≠ '!' ∧ c ≠ '?' := by
    refine ⟨?_, ?_, ?_⟩ <;> rintro rfl <;> exact absurd hc (by decide)
  unfold readMarkup?
  split
  next heq => exact absurd (List.cons.inj (List.cons.inj heq).2).1 hplain.1
  next heq => exact absurd (List.cons.inj (List.cons.inj heq).2).1 hplain.2.1
  next heq => exact absurd (List.cons.inj (List.cons.inj heq).2).1 hplain.2.2
  next heq => exact absurd (List.cons.inj (List.cons.inj heq).2).1 hplain.2.1
  next heq => exact absurd (List.cons.inj (List.cons.inj heq).2).1 hplain.2.1
  next heq =>
    rw [← (List.cons.inj (List.cons.inj heq).2).1, if_pos hc]
  next hnone => exact absurd rfl (hnone c _)

theorem readMarkup?_opening {tag : Tag} (h : tag.Readable) (offset : Nat) (slash : Bool)
    (rest : List Char) : readMarkup? offset none (tag.opening slash ++ rest) =
      some (.read [.start (tag.read slash) offset] none rest) := by
  obtain ⟨c, name, hname, hc⟩ := tag.name_low.isAsciiLetter_first
  have hraw : ∀ raw : String, tag.name ≠ raw.toList → ((tag.read slash).name == raw) = false := by
    intro raw hne
    refine beq_eq_false_iff_ne.mpr fun heq => hne ?_
    rw [← heq]
    exact String.toList_ofList.symm
  have hwhole : tag.opening slash ++ rest =
      '<' :: c :: (name ++ (tag.inner ++ (tagEnd slash ++ rest))) := by
    simp [Tag.opening, hname]
  have hread : readMarkup? offset none (tag.opening slash ++ rest) =
      some (readStart offset (tag.opening slash ++ rest)) := by
    rw [hwhole]
    exact readMarkup?_letter offset none hc _
  rw [hread]
  unfold readStart
  rw [Tag.readStartTag_opening h]
  dsimp only
  rw [hraw _ tag.not_raw.1, hraw _ tag.not_raw.2, Bool.or_self, Bool.and_false]
  rfl

theorem readMarkup?_ending (tag : Tag) (offset : Nat) (rest : List Char) :
    readMarkup? offset none (tag.ending ++ rest) =
      some (.read [.finish (String.ofList tag.name)] none rest) :=
  congrArg some (tag.readEndTag_ending rest)

/-- A pass over a text and a construct goes on behind the construct. -/
theorem pass_markup {final : Bool} {size fuel : Nat} {lead here rest : List Char}
    {events : List Event} {later : Progress} (hlead : ∀ c ∈ lead, c ≠ '<' ∧ c ≠ '&')
    (hread : readMarkup? (size - ('<' :: here).length) none ('<' :: here) =
      some (.read events none rest))
    (hlater : pass final size fuel none rest = .ok later) :
    pass final size (fuel + 1) none (lead ++ '<' :: here) =
      .ok { later with events := textEvents lead ++ events ++ later.events } := by
  have hsplit : splitBeforeMarkup? none (lead ++ '<' :: here) = some (lead, '<' :: here) := by
    unfold splitBeforeMarkup?
    dsimp only
    rw [splitBefore?_lead (fun c hc => by simp [hlead c hc]) (by decide)]
    rfl
  have hat : readAt final (size - ('<' :: here).length) none ('<' :: here) =
      .next events none rest := by
    unfold readAt
    rw [if_pos (by rfl), hread]
  rw [pass, if_neg (by simp), hsplit]
  dsimp only
  rw [if_neg (by simp), hat]
  dsimp only
  rw [hlater]
  rfl

/-- A pass over a text only. -/
theorem pass_text {final : Bool} {size fuel : Nat} {cs : List Char}
    (h : ∀ c ∈ cs, c ≠ '<' ∧ c ≠ '&') :
    pass final size (fuel + 1) none cs = .ok ⟨textEvents cs, none, []⟩ := by
  have hsplit : splitBefore? (fun c => c == '<' || c == '&') cs = none :=
    splitBefore?_none fun c hc => by simp [h c hc]
  have hmarkup : splitBeforeMarkup? none cs = some (cs, []) := by
    unfold splitBeforeMarkup?
    dsimp only
    rw [hsplit]
    rfl
  rw [pass]
  split
  next hempty => rw [List.isEmpty_iff.mp hempty]; rfl
  next => rw [hmarkup]; rfl

/-- The name and the place of an element. -/
def Element.place (element : Element) : String × Nat :=
  (element.name, element.offset)

theorem filterMap_textEvents (text : List Char) :
    (textEvents text).filterMap Event.element? = [] := by
  unfold textEvents
  split <;> rfl

/-- **A pass over tags and texts reports the start tags**, each at its place.  The text before them,
in which nothing starts, is what was read since the last tag. -/
theorem pass_tokens (final : Bool) (size : Nat) : ∀ (tokens : List Token) (lead : List Char)
    (fuel : Nat), (∀ token ∈ tokens, token.Readable) → (∀ c ∈ lead, c ≠ '<' ∧ c ≠ '&') →
    (lead ++ tokens.flatMap Token.render).length < fuel →
    (tokens.flatMap Token.render).length ≤ size →
    ∃ events, pass final size fuel none (lead ++ tokens.flatMap Token.render) =
        .ok ⟨events, none, []⟩ ∧
      (events.filterMap Event.element?).map Element.place =
        startsFrom (size - (tokens.flatMap Token.render).length) tokens := by
  intro tokens
  induction tokens with
  | nil =>
    intro lead fuel _ hlead hfuel _
    rw [List.flatMap_nil, List.append_nil] at hfuel ⊢
    cases fuel with
    | zero => omega
    | succ fuel =>
      exact ⟨textEvents lead, pass_text hlead, by rw [filterMap_textEvents]; rfl⟩
  | cons token tokens ih =>
    intro lead fuel hreadable hlead hfuel hsize
    obtain ⟨htoken, htokens⟩ := List.forall_mem_cons.mp hreadable
    rw [List.flatMap_cons] at hfuel hsize ⊢
    rw [List.length_append] at hsize
    rw [List.length_append, List.length_append] at hfuel
    have hplace : size - (token.render ++ tokens.flatMap Token.render).length +
        token.render.length = size - (tokens.flatMap Token.render).length := by
      rw [List.length_append]
      omega
    cases token with
    | text chars plain =>
      obtain ⟨events, hpass, hstarts⟩ := ih (lead ++ chars) fuel htokens
        (List.forall_mem_append.mpr ⟨hlead, plain⟩)
        (by simp only [Token.render] at hfuel; simp only [List.length_append]; omega) (by omega)
      refine ⟨events, ?_, ?_⟩
      · rw [← List.append_assoc]
        exact hpass
      · rw [hstarts, ← hplace]
        rfl
    | opening tag slash =>
      have hpos : 0 < (Token.opening tag slash).render.length := Nat.succ_pos _
      cases fuel with
      | zero => omega
      | succ fuel =>
        obtain ⟨events, hlater, hstarts⟩ := ih [] fuel htokens (by simp)
          (by rw [List.nil_append]; omega) (by omega)
        refine ⟨_, pass_markup hlead (readMarkup?_opening htoken _ slash _) hlater, ?_⟩
        rw [List.filterMap_append, List.filterMap_append, filterMap_textEvents, List.map_append,
          hstarts, ← hplace]
        rfl
    | ending tag =>
      have hpos : 0 < (Token.ending tag).render.length := Nat.succ_pos _
      cases fuel with
      | zero => omega
      | succ fuel =>
        obtain ⟨events, hlater, hstarts⟩ := ih [] fuel htokens (by simp)
          (by rw [List.nil_append]; omega) (by omega)
        refine ⟨_, pass_markup hlead (readMarkup?_ending tag _ _) hlater, ?_⟩
        rw [List.filterMap_append, List.filterMap_append, filterMap_textEvents, List.map_append,
          hstarts, ← hplace]
        rfl

/-- Reading the document reports each of its elements once, in document order, under its name and at
the place of its `<`. -/
def Reported (document : List Item) : Prop :=
  ∃ trees, parseTrees (renderAll document) = .ok trees ∧
    (elementsOf trees).map Element.place = (standingsOf [] [] document).map Standing.place

/-- **The elements of a readable document are reported.** -/
theorem reported_of_readable {document : List Item} (h : Readable document) :
    Reported document := by
  obtain ⟨events, hpass, hstarts⟩ := pass_tokens false (renderAll document).length
    (tokensOf document) [] ((renderAll document).length + 1) h (by simp)
    (by rw [List.nil_append, flatMap_tokensOf]; exact Nat.lt_succ_self _)
    (by rw [flatMap_tokensOf])
  rw [List.nil_append, flatMap_tokensOf] at hpass
  rw [flatMap_tokensOf, Nat.sub_self] at hstarts
  -- The first pass leaves nothing to the second one.
  have hevents : eventsOf (renderAll document) = .ok (events ++ [] ++ []) := by
    unfold eventsOf
    rw [hpass]
    rfl
  refine ⟨treesOf events, ?_, ?_⟩
  · rw [parseTrees, hevents, List.append_nil, List.append_nil]
    rfl
  · rw [elementsOf_treesOf, hstarts]
    exact startsFrom_tokensOf document [] []

end Mooring.Markup
