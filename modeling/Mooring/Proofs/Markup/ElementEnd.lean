import Mooring.Proofs.Fragment.Plain
import Mooring.Proofs.Markup.Document
import Mooring.Proofs.Text.Finding

/-!
# Elements end with their own end tags

The scan for the end of an element stops right behind that element, however deep its content and
whatever follows it (`IsElement.afterElement?`).

The scan knows nothing of the tree; it counts the tags of one name.  So what has to be shown of a
part of a document is that passing it leaves the count as it was (`Item.closes`).  The tags of other
names are no tags of this one, even if one name starts with the other (`tagNamed?_opening`,
`tagNamed?_ending`), and the scan over a start tag ends with that tag, whatever its values hold
(`afterStartTag_opening`).
-/

namespace Mooring.Markup

open Mooring.Text

/-! ## Names in tags -/

/-- A character that may follow the name in a tag is no character of low names. -/
theorem isLowNameChar_of_endsTagName {c : Char} {rest : List Char}
    (h : endsTagName (c :: rest) = true) : isLowNameChar c = false := by
  rw [← Bool.not_eq_true]
  intro hlow
  have hcode := isLowNameChar_iff.mp hlow
  simp only [endsTagName, Bool.or_eq_true, beq_iff_eq] at h
  rcases h with (hblank | rfl) | rfl
  · have hascii := (Fragment.isBlank_ascii (c := c) (by omega)).mp hblank
    omega
  · exact absurd hlow (by decide)
  · exact absurd hlow (by decide)

/-- The small letters that count as the same as an ASCII letter. -/
theorem letterTwins_ascii : ∀ n < 128, ∀ m ∈ (letterTwins.lookup n).getD [],
    m = 0x131 ∨ m = 0x17f := by
  decide

/-- A character of low names is the same letter as no other one that comes up in a tag. -/
theorem eq_of_sameLetter {n c : Char} (hn : isLowNameChar n = true)
    (hc : isLowNameChar c = true ∨ endsTagName [c] = true) (h : sameLetter n c = true) : n = c := by
  have hsmall : isSmall c = true := by
    rcases hc with hlow | hends
    · exact isSmall_of_isLowNameChar hlow
    · simp only [endsTagName, Bool.or_eq_true, beq_iff_eq] at hends
      rcases hends with (hblank | rfl) | rfl
      · exact Fragment.isSmall_of_isBlank hblank
      · decide
      · decide
  have hcode := isLowNameChar_iff.mp hn
  unfold sameLetter at h
  rw [eq_of_beq (isSmall_of_isLowNameChar hn), eq_of_beq hsmall] at h
  dsimp only at h
  rcases Bool.or_eq_true_iff.mp h with heq | htwin
  · exact eq_of_beq heq
  · have hwide := letterTwins_ascii n.toNat (by omega) c.toNat (List.contains_iff_mem.mp htwin)
    -- The twins are letters that are not ASCII, and not blank either.
    rcases hc with hlow | hends
    · have hlowCode := isLowNameChar_iff.mp hlow
      omega
    · simp only [endsTagName, Bool.or_eq_true, beq_iff_eq] at hends
      rcases hends with (hblank | rfl) | rfl
      · have hlist := (Fragment.isBlank_wide (c := c) (by omega)).mp hblank
        rcases hwide with hwide | hwide <;> rw [hwide] at hlist <;> exact absurd hlist (by decide)
      · exact absurd hwide (by decide)
      · exact absurd hwide (by decide)

theorem sameLetter_self (c : Char) : sameLetter c c = true := by
  simp [sameLetter]

/-- **A name in a tag is the whole name.** -/
theorem afterName?_filter {stop : Char} {rest : List Char}
    (hstop : endsTagName (stop :: rest) = true) : ∀ {name other : List Char},
    (∀ c ∈ name, isLowNameChar c = true) → (∀ c ∈ other, isLowNameChar c = true) →
    (afterName? name (other ++ stop :: rest)).filter endsTagName =
      if name = other then some (stop :: rest) else none
  | [], [], _, _ => by
    rw [List.nil_append, afterName?, if_pos rfl]
    exact Option.filter_eq_some_iff.mpr ⟨rfl, hstop⟩
  | [], d :: other, _, hother => by
    have hd : endsTagName (d :: (other ++ stop :: rest)) = false := by
      rw [← Bool.not_eq_true]
      intro hends
      have hlow := isLowNameChar_of_endsTagName hends
      rw [hother d List.mem_cons_self] at hlow
      exact absurd hlow (by decide)
    rw [List.cons_append, afterName?, if_neg (by simp), Option.filter_some, hd]
    rfl
  | n :: name, [], hname, _ => by
    have hne : ¬sameLetter n stop = true := by
      intro hsame
      have heq := eq_of_sameLetter (hname n List.mem_cons_self) (.inr hstop) hsame
      have hlow := isLowNameChar_of_endsTagName hstop
      rw [← heq, hname n List.mem_cons_self] at hlow
      exact absurd hlow (by decide)
    rw [List.nil_append, afterName?, if_neg hne, if_neg (by simp)]
    rfl
  | n :: name, d :: other, hname, hother => by
    obtain ⟨hn, hname'⟩ := List.forall_mem_cons.mp hname
    obtain ⟨hd, hother'⟩ := List.forall_mem_cons.mp hother
    rw [List.cons_append, afterName?]
    by_cases heq : n = d
    · subst heq
      rw [if_pos (sameLetter_self n), afterName?_filter hstop hname' hother']
      simp
    · rw [if_neg fun hsame => heq (eq_of_sameLetter hn (.inl hd) hsame),
        if_neg fun hcons => heq (List.cons.inj hcons).1]
      rfl

namespace Tag

variable (tag : Tag)

/-- Behind the name of a tag stands a character that ends it. -/
theorem exists_stop (slash : Bool) (rest : List Char) : ∃ stop more,
    tag.inner ++ (tagEnd slash ++ rest) = stop :: more ∧ endsTagName (stop :: more) = true := by
  have hblank : ∀ (c : Char) (more : List Char), isBlank c = true →
      endsTagName (c :: more) = true := by
    intro c more hc
    simp [endsTagName, hc]
  unfold inner
  cases hattributes : tag.attributes with
  | cons first later =>
    obtain ⟨c, gap, hgap⟩ := List.exists_cons_of_ne_nil first.gap_ne_nil
    refine ⟨c, gap ++ (first.name ++ (renderValue first.value ++
      (later.flatMap TagAttribute.render ++ (tag.gap ++ (tagEnd slash ++ rest))))), ?_,
      hblank c _ (first.gap_blank c (by rw [hgap]; exact List.mem_cons_self))⟩
    simp [TagAttribute.render, hgap]
  | nil =>
    cases hgap : tag.gap with
    | cons c gap =>
      exact ⟨c, _, rfl, hblank c _ (tag.gap_blank c (by rw [hgap]; exact List.mem_cons_self))⟩
    | nil =>
      cases slash with
      | true => exact ⟨'/', _, rfl, rfl⟩
      | false => exact ⟨'>', _, rfl, rfl⟩

/-- A start tag is a tag of its own name only. -/
theorem tagNamed?_opening {name : List Char} (hname : ∀ c ∈ name, isLowNameChar c = true)
    (slash : Bool) (rest : List Char) : tagNamed? name (tag.opening slash ++ rest) =
      if name = tag.name then some (false, tag.inner ++ (tagEnd slash ++ rest)) else none := by
  obtain ⟨stop, more, hmore, hstop⟩ := tag.exists_stop slash rest
  have hwhole : tag.opening slash ++ rest = '<' :: (tag.name ++ stop :: more) := by
    rw [← hmore]
    simp [opening]
  have hletter : ∀ after, tag.name ++ stop :: more ≠ '/' :: after := by
    intro after heq
    obtain ⟨c, name, hfirst, hc⟩ := tag.name_low.first
    rw [hfirst] at heq
    rw [(List.cons.inj heq).1] at hc
    exact absurd hc (by decide)
  rw [hwhole, tagNamed?.eq_2 _ _ hletter, afterName?_filter hstop hname tag.name_low.chars, hmore]
  split <;> rfl

/-- An end tag is a tag of its own name only. -/
theorem tagNamed?_ending {name : List Char} (hname : ∀ c ∈ name, isLowNameChar c = true)
    (rest : List Char) : tagNamed? name (tag.ending ++ rest) =
      if name = tag.name then some (true, '>' :: rest) else none := by
  have hwhole : tag.ending ++ rest = '<' :: '/' :: (tag.name ++ '>' :: rest) := by
    simp [ending]
  rw [hwhole, tagNamed?, afterName?_filter rfl hname tag.name_low.chars]
  split <;> rfl

end Tag

/-! ## The end of a start tag -/

/-- A character that means nothing to those who scan a tag. -/
structure Passable (c : Char) : Prop where
  double : c ≠ '"'
  single : c ≠ '\''
  mark : c ≠ '>'
  slash : c ≠ '/'
  brace : c ≠ '\x7b'

theorem passable_of_isLowNameChar {c : Char} (h : isLowNameChar c = true) : Passable c := by
  constructor <;> rintro rfl <;> exact absurd h (by decide)

theorem passable_of_isBlank {c : Char} (h : isBlank c = true) : Passable c := by
  constructor <;> rintro rfl <;> exact absurd h (by decide)

/-- Outside quotes, the scan passes what means nothing, and goes on with some last character. -/
theorem afterTagFrom_pass {cs : List Char} (h : ∀ c ∈ cs, Passable c) (rest : List Char) : ∀ {last : Char}, last ≠ '/' → ∃ last', last' ≠ '/' ∧
      afterTagFrom none last (cs ++ rest) = afterTagFrom none last' rest := by
  induction cs with
  | nil => exact fun hlast => ⟨_, hlast, rfl⟩
  | cons c cs ih =>
    intro last hlast
    obtain ⟨⟨hdouble, hsingle, hend, hslash, -⟩, hcs⟩ := List.forall_mem_cons.mp h
    have hnext : (if isBlank c then last else c) ≠ '/' := by
      split
      · exact hlast
      · exact hslash
    obtain ⟨last', hlast', hpass⟩ := ih hcs hnext
    refine ⟨last', hlast', ?_⟩
    rw [List.cons_append, afterTagFrom]
    simp only [beq_eq_false_iff_ne.mpr hdouble, beq_eq_false_iff_ne.mpr hsingle,
      beq_eq_false_iff_ne.mpr hend, Bool.or_self, Bool.false_eq_true, if_false]
    exact hpass

/-- Inside double quotes, the scan passes everything up to the closing quote. -/
theorem afterTagFrom_value {value : List Char} (h : '"' ∉ value) (rest : List Char) :
    ∀ last : Char, afterTagFrom (some '"') last (value ++ '"' :: rest) =
      afterTagFrom none '"' rest := by
  induction value with
  | nil => exact fun _ => rfl
  | cons c value ih =>
    intro last
    have hc : (c == '"') = false :=
      beq_eq_false_iff_ne.mpr fun heq => h (heq ▸ List.mem_cons_self)
    rw [List.cons_append, afterTagFrom]
    simp only [hc, Bool.false_eq_true, if_false]
    exact ih (fun hmem => h (List.mem_cons_of_mem _ hmem)) _

/-- The scan passes an attribute. -/
theorem TagAttribute.afterTagFrom (a : TagAttribute) (rest : List Char) {last : Char}
    (hlast : last ≠ '/') : ∃ last', last' ≠ '/' ∧
      Markup.afterTagFrom none last (a.render ++ rest) = Markup.afterTagFrom none last' rest := by
  have hname : ∀ c ∈ a.gap ++ a.name, Passable c := by
    intro c hc
    rcases List.mem_append.mp hc with hgap | hname
    · exact passable_of_isBlank (a.gap_blank c hgap)
    · exact passable_of_isLowNameChar (a.name_low.chars c hname)
  obtain ⟨last', hlast', hpass⟩ := afterTagFrom_pass hname (renderValue a.value ++ rest) hlast
  have hwhole : a.render ++ rest = (a.gap ++ a.name) ++ (renderValue a.value ++ rest) := by
    simp [TagAttribute.render]
  rw [hwhole, hpass]
  cases hvalue : a.value with
  | none => exact ⟨last', hlast', rfl⟩
  | some value =>
    have hquote : '"' ∉ value := fun hmem => (a.value_plain value hvalue _ hmem).1 rfl
    refine ⟨'"', by decide, ?_⟩
    have hequals : renderValue (some value) ++ rest = '=' :: '"' :: (value ++ '"' :: rest) := by
      simp [renderValue]
    rw [hequals]
    exact afterTagFrom_value hquote rest _

/-- The scan passes one attribute after the other. -/
theorem afterTagFrom_attributes (attributes : List TagAttribute) (rest : List Char) :
    ∀ {last : Char}, last ≠ '/' → ∃ last', last' ≠ '/' ∧
      afterTagFrom none last (attributes.flatMap TagAttribute.render ++ rest) =
        afterTagFrom none last' rest := by
  induction attributes with
  | nil => exact fun hlast => ⟨_, hlast, rfl⟩
  | cons a later ih =>
    intro last hlast
    rw [List.flatMap_cons, List.append_assoc]
    obtain ⟨middle, hmiddle, hfirst⟩ :=
      a.afterTagFrom (later.flatMap TagAttribute.render ++ rest) hlast
    obtain ⟨last', hlast', hlater⟩ := ih hmiddle
    exact ⟨last', hlast', hfirst.trans hlater⟩

/-- **The scan over a start tag ends with that tag**, and finds the slash if there is one. -/
theorem Tag.afterStartTag_opening (tag : Tag) (slash : Bool) (rest : List Char) :
    afterStartTag (tag.opening slash ++ rest) = (rest, slash) := by
  have hwhole : tag.opening slash ++ rest = '<' :: (tag.name ++
      (tag.attributes.flatMap TagAttribute.render ++ (tag.gap ++ (tagEnd slash ++ rest)))) := by
    simp [Tag.opening, Tag.inner]
  rw [hwhole, afterStartTag]
  obtain ⟨last₁, hlast₁, hname⟩ := afterTagFrom_pass
    (fun c hc => passable_of_isLowNameChar (tag.name_low.chars c hc)) _ (show '<' ≠ '/' by decide)
  obtain ⟨last₂, hlast₂, hlater⟩ := afterTagFrom_attributes tag.attributes _ hlast₁
  obtain ⟨last₃, hlast₃, hgap⟩ := afterTagFrom_pass
    (fun c hc => passable_of_isBlank (tag.gap_blank c hc)) _ hlast₂
  rw [hname, hlater, hgap]
  cases slash with
  | true => rfl
  | false =>
    show (rest, last₃ == '/') = _
    rw [beq_eq_false_iff_ne.mpr hlast₃]

/-! ## Counting the tags of one name -/

/-- A name is the name of elements with content. -/
structure Countable (name : List Char) : Prop where
  low : LowName name
  content : ¬contentless.contains (String.ofList name) = true

variable {name : List Char}

theorem nextTag_skip_cons {c : Char} {rest : List Char} (h : tagNamed? name (c :: rest) = none) :
    nextTag name (c :: rest) = nextTag name rest := by
  rw [nextTag, h]

/-- Where no `<` stands, no tag starts. -/
theorem nextTag_skip {cs : List Char} (h : '<' ∉ cs) (rest : List Char) :
    nextTag name (cs ++ rest) = nextTag name rest := by
  induction cs with
  | nil => rfl
  | cons c cs ih =>
    have hne : c ≠ '<' := fun heq => h (heq ▸ List.mem_cons_self)
    have hnone : tagNamed? name (c :: (cs ++ rest)) = none := by
      unfold tagNamed?
      split
      next heq => exact absurd (List.cons.inj heq).1 hne
      next heq => exact absurd (List.cons.inj heq).1 hne
      next => rfl
    rw [List.cons_append, nextTag_skip_cons hnone]
    exact ih fun hmem => h (List.mem_cons_of_mem _ hmem)

/-- A tag that is no tag of the name is passed as a text. -/
theorem nextTag_skip_tag {body : List Char} (h : '<' ∉ body) {rest : List Char}
    (hnone : tagNamed? name ('<' :: body ++ rest) = none) :
    nextTag name ('<' :: body ++ rest) = nextTag name rest := by
  rw [List.cons_append] at hnone ⊢
  rw [nextTag_skip_cons hnone, nextTag_skip h]

namespace Tag

variable (tag : Tag)

theorem not_mem_name {c : Char} (h : isLowNameChar c = false) : c ∉ tag.name := by
  intro hmem
  rw [tag.name_low.chars c hmem] at h
  exact absurd h (by decide)

theorem not_mem_inner : '<' ∉ tag.inner := by
  intro hmem
  rcases List.mem_append.mp hmem with hattributes | hgap
  · obtain ⟨a, -, ha⟩ := List.mem_flatMap.mp hattributes
    rcases List.mem_append.mp ha with hgap | hrest
    · exact absurd (a.gap_blank _ hgap) (by decide)
    · rcases List.mem_append.mp hrest with hname | hvalue
      · exact absurd (a.name_low.chars _ hname) (by decide)
      · cases hsome : a.value with
        | none =>
          rw [hsome] at hvalue
          exact absurd hvalue List.not_mem_nil
        | some value =>
          rw [hsome] at hvalue
          have hplain : '<' ∉ value := fun h => (a.value_plain value hsome _ h).2.1 rfl
          simp [renderValue, hplain] at hvalue
  · exact absurd (tag.gap_blank _ hgap) (by decide)

theorem nextTag_opening (hname : LowName name) (slash : Bool) (rest : List Char) :
    nextTag name (tag.opening slash ++ rest) =
      if name = tag.name then .opening (tag.opening slash ++ rest) else nextTag name rest := by
  have htag := tag.tagNamed?_opening hname.chars slash rest
  by_cases heq : name = tag.name
  · rw [if_pos heq] at htag ⊢
    unfold opening at htag ⊢
    rw [List.cons_append] at htag ⊢
    rw [nextTag, htag]
  · rw [if_neg heq] at htag ⊢
    refine nextTag_skip_tag ?_ htag
    intro hmem
    rcases List.mem_append.mp hmem with hmem | hmem
    · exact tag.not_mem_name (by decide) hmem
    · rcases List.mem_append.mp hmem with hinner | hend
      · exact tag.not_mem_inner hinner
      · cases slash <;> exact absurd hend (by decide)

theorem nextTag_ending (hname : LowName name) (rest : List Char) :
    nextTag name (tag.ending ++ rest) =
      if name = tag.name then .closing ('>' :: rest) else nextTag name rest := by
  have htag := tag.tagNamed?_ending hname.chars rest
  by_cases heq : name = tag.name
  · rw [if_pos heq] at htag ⊢
    unfold ending at htag ⊢
    rw [List.cons_append] at htag ⊢
    rw [nextTag, htag]
  · rw [if_neg heq] at htag ⊢
    refine nextTag_skip_tag ?_ htag
    intro hmem
    rcases List.mem_cons.mp hmem with hslash | hmem
    · exact absurd hslash (by decide)
    · rcases List.mem_append.mp hmem with hmem | hmem
      · exact tag.not_mem_name (by decide) hmem
      · exact absurd hmem (by decide)

end Tag

/-- With `depth` open elements of the name, the scan over a text ends before `after`. -/
def Closes (name : List Char) (depth : Nat) (text after : List Char) : Prop :=
  ∀ fuel, text.length ≤ fuel → afterEndTag? name fuel depth text = some after

namespace Closes

variable {depth : Nat} {rest after : List Char}

/-- What holds no tag of the name is passed. -/
theorem skip {cs : List Char} (hskip : nextTag name (cs ++ rest) = nextTag name rest)
    (h : Closes name depth rest after) : Closes name depth (cs ++ rest) after := by
  intro fuel hfuel
  rw [List.length_append] at hfuel
  rw [← h fuel (by omega)]
  cases fuel with
  | zero => rfl
  | succ fuel => rw [afterEndTag?, afterEndTag?, hskip]

/-- A start tag of the name opens one more element, unless it closes itself. -/
theorem opening {tag : Tag} {slash : Bool} (hname : LowName tag.name)
    (h : Closes tag.name (if slash then depth else depth + 1) rest after) :
    Closes tag.name depth (tag.opening slash ++ rest) after := by
  intro fuel hfuel
  rw [List.length_append, Tag.opening, List.length_cons] at hfuel
  cases fuel with
  | zero => omega
  | succ fuel =>
    rw [afterEndTag?, tag.nextTag_opening hname, if_pos rfl]
    dsimp only
    rw [tag.afterStartTag_opening]
    exact h fuel (by omega)

/-- An end tag of the name closes one element. -/
theorem ending {tag : Tag} (hname : LowName tag.name) (hdepth : 1 ≤ depth)
    (h : Closes tag.name depth rest after) :
    Closes tag.name (depth + 1) (tag.ending ++ rest) after := by
  intro fuel hfuel
  rw [List.length_append, Tag.ending, List.length_cons] at hfuel
  cases fuel with
  | zero => omega
  | succ fuel =>
    rw [afterEndTag?, tag.nextTag_ending hname, if_pos rfl]
    dsimp only
    rw [if_neg (by omega)]
    exact h fuel (by omega)

/-- The end tag of the last open element is the end. -/
theorem last (tag : Tag) (hname : LowName tag.name) (rest : List Char) :
    Closes tag.name 1 (tag.ending ++ rest) rest := by
  intro fuel hfuel
  rw [List.length_append, Tag.ending, List.length_cons] at hfuel
  cases fuel with
  | zero => omega
  | succ fuel =>
    rw [afterEndTag?, tag.nextTag_ending hname, if_pos rfl]
    dsimp only
    rw [if_pos (Nat.le_refl 1)]
    rfl

end Closes

mutual

/-- **Passing a part of a document leaves the count of open elements as it was.** -/
theorem Item.closes : ∀ (item : Item) {name : List Char} {depth : Nat} {rest after : List Char},
    Countable name → 1 ≤ depth → Closes name depth rest after →
    Closes name depth (item.render ++ rest) after
  | .text chars plain, _, _, _, _, _, _, h => by
    rw [Item.render]
    exact h.skip (nextTag_skip (fun hmem => (plain _ hmem).1 rfl) _)
  | .single tag slash alone, name, _, _, _, hname, _, h => by
    rw [Item.render]
    by_cases heq : name = tag.name
    · subst heq
      obtain rfl : slash = true := alone.resolve_right hname.content
      exact .opening hname.low h
    · exact h.skip (by rw [tag.nextTag_opening hname.low, if_neg heq])
  | .paired tag content _, name, _, rest, after, hname, hdepth, h => by
    rw [Item.render, List.append_assoc, List.append_assoc]
    by_cases heq : name = tag.name
    · subst heq
      have hcontent := closes_renderAll content hname (Nat.le_succ_of_le hdepth)
        (.ending hname.low hdepth h)
      exact .opening hname.low hcontent
    · have hending : Closes name _ (tag.ending ++ rest) after :=
        h.skip (by rw [tag.nextTag_ending hname.low, if_neg heq])
      have hcontent := closes_renderAll content hname hdepth hending
      exact hcontent.skip (by rw [tag.nextTag_opening hname.low, if_neg heq])

theorem closes_renderAll : ∀ (items : List Item) {name : List Char} {depth : Nat}
    {rest after : List Char}, Countable name → 1 ≤ depth → Closes name depth rest after →
    Closes name depth (renderAll items ++ rest) after
  | [], _, _, _, _, _, _, h => h
  | item :: more, _, _, _, _, hname, hdepth, h => by
    rw [renderAll, List.append_assoc]
    exact item.closes hname hdepth (closes_renderAll more hname hdepth h)

end

/-! ## Every element -/

/-- **The scan for the end of an element stops right behind that element**, whatever follows. -/
theorem IsElement.afterElement? {name text : List Char} (h : IsElement name text)
    (rest : List Char) :
    Markup.afterElement? (String.ofList name) (text ++ rest) = some rest := by
  unfold Markup.afterElement?
  cases h with
  | single tag slash alone =>
    rw [tag.afterStartTag_opening]
    exact if_pos (Bool.or_eq_true_iff.mpr alone)
  | paired tag content open_ =>
    rw [List.append_assoc, List.append_assoc, tag.afterStartTag_opening]
    dsimp only
    have hcontent : ¬contentless.contains (String.ofList tag.name) = true := open_
    rw [Bool.false_or, if_neg hcontent, String.toList_ofList]
    exact closes_renderAll content ⟨tag.name_low, hcontent⟩ (Nat.le_refl 1)
      (.last tag tag.name_low rest) _ (Nat.le_refl _)

end Mooring.Markup
