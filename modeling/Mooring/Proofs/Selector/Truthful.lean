import Mooring.Proofs.Selector.Quoting

/-!
# What generated selectors say of attributes

A generated selector need not find its element: an odd tag or role makes it demand something else.
But what it says of an attribute's value holds of the element (`truthful_generate`), under
conditions that are weaker than those for finding it (`Spellable`).

There are two places that the reader takes such a value from: the bracket of a part, and the name
behind a role.  A generated selector has one bracket at most that could be a part, and it stands at
the end.  So the tag before it may hold nearly everything, combinators and parentheses included: the
scan for combinators may cut the tag, but it passes the part (`lastCompound_part`).
-/

namespace Mooring.Selector

open Mooring.Text

/-- What selectors are made of can be read back from them, as far as attributes are concerned. -/
structure Spellable (attrs : Table String) (tag : String) (text : Option String) : Prop where
  values : ∀ name value, attrs.get? name = some value →
    Unquoted value.toList ∧ '\\' ∉ value.toList
  /-- A role is taken for one by its first character. -/
  role : ∀ role, filled? attrs "role" = some role →
    ∃ c rest, role.toList = c :: rest ∧ isNameChar c = true
  /-- A text over several lines is not taken for a text. -/
  text : ∀ short, shortText? text = some short → '\n' ∉ short.toList ∨ '[' ∉ short.toList
  tag_quotes : Unquoted tag.toList
  tag_bracket : '[' ∉ tag.toList
  /-- The tag is not taken for a role. -/
  tag_free : startsWith "role:".toList tag.toList = false

/-- The values that the shape demands of attributes are those that the table has. -/
def Shape.Truthful (shape : Shape) (attrs : Table String) : Prop :=
  ∀ name value, (name, some value) ∈ shape.attrs → attrs.get? name = some value

namespace Shape

variable {shape : Shape} {attrs : Table String}

theorem truthful_of_nil (h : shape.attrs = []) : shape.Truthful attrs := by
  intro name value hmem
  rw [h] at hmem
  exact absurd hmem List.not_mem_nil

/-- A shape that demands one value at most is truthful if that is right. -/
theorem truthful_of_one {name value : String} (hattrs : shape.attrs ⊆ [(name, some value)])
    (hget : attrs.get? name = some value) : shape.Truthful attrs := by
  intro name' value' hmem
  obtain ⟨rfl, heq⟩ := Prod.mk.inj (List.mem_singleton.mp (hattrs hmem))
  rw [Option.some.inj heq]
  exact hget

end Shape

/-! ## Roles, texts and names without brackets -/

theorem attrs_of_roleShape? {cs : List Char} {shape : Shape} (h : roleShape? cs = some shape) :
    shape.attrs = ((nameArgument? cs).map fun name =>
      ("aria-label", some (String.ofList name))).toList := by
  obtain ⟨rest, -, hrest⟩ := Option.bind_eq_some_iff.mp h
  obtain ⟨-, hrest⟩ := Option.ite_none_left_eq_some.mp hrest
  rw [← Option.some.inj hrest]
  cases nameArgument? cs <;> rfl

theorem attrs_of_textShape? {cs : List Char} {shape : Shape} (h : textShape? cs = some shape) :
    shape.attrs = [] := by
  obtain ⟨rest, -, hrest⟩ := Option.bind_eq_some_iff.mp h
  obtain ⟨-, hrest⟩ := Option.ite_none_left_eq_some.mp hrest
  rw [← Option.some.inj hrest]

theorem Unquoted.within {cs part : List Char} (h : Unquoted cs) (hpart : part <:+: cs) :
    Unquoted part :=
  fun c hc => h c (hpart.subset hc)

/-- Without brackets, a selector says nothing of attributes, if it says nothing as a role. -/
theorem attrs_of_unbracketed {selector : String} (hbracket : '[' ∉ selector.toList)
    (hrole : ∀ shape, roleShape? (trim selector.toList) = some shape → shape.attrs = []) :
    (Shape.ofSelector selector).attrs = [] := by
  unfold Shape.ofSelector
  dsimp only
  split
  next => rfl
  next =>
    split
    next shape hshape => exact hrole shape hshape
    next =>
      cases htext : textShape? (trim selector.toList) with
      | some shape => exact attrs_of_textShape? htext
      | none =>
        have hfree : '[' ∉ lastCompound (trim selector.toList) := fun hmem =>
          hbracket (((infix_lastCompound _).trans (infix_trim _)).subset hmem)
        refine List.eq_nil_iff_forall_not_mem.mpr fun pair hpair => ?_
        obtain ⟨part, hpart, -⟩ := mem_attrs_compoundShape hpair
        have hparts := takeAttrParts_append hfree 0 []
        rw [Nat.add_zero, List.append_nil] at hparts
        rw [hparts] at hpart
        exact absurd hpart List.not_mem_nil

/-- Without brackets and quotes, a selector says nothing of attributes. -/
theorem attrs_of_plain {selector : String} (hbracket : '[' ∉ selector.toList)
    (hquotes : Unquoted selector.toList) : (Shape.ofSelector selector).attrs = [] := by
  refine attrs_of_unbracketed hbracket fun shape hshape => ?_
  rw [attrs_of_roleShape? hshape, nameArgument?_of_unquoted (hquotes.within (infix_trim _))]
  rfl

/-- **What starts as a role, is read as one**: it can say something of the label only. -/
theorem attrs_of_role {selector : String} {c : Char} {rest : List Char}
    (h : trim selector.toList = "role:".toList ++ c :: rest) (hc : isNameChar c = true) :
    (Shape.ofSelector selector).attrs = ((nameArgument? (trim selector.toList)).map fun name =>
      ("aria-label", some (String.ofList name))).toList := by
  obtain ⟨shape, hshape⟩ : ∃ shape, roleShape? (trim selector.toList) = some shape := by
    rw [h, roleShape?, afterLead?_append]
    dsimp only [Option.bind]
    rw [List.takeWhile_cons_of_pos hc, if_neg (by simp)]
    exact ⟨_, rfl⟩
  have hread : Shape.ofSelector selector = shape := by
    unfold Shape.ofSelector
    dsimp only
    rw [if_neg (by rw [h]; simp), hshape]
  rw [hread, attrs_of_roleShape? hshape]

/-- A text on one line is read as a text, and without brackets it may have several lines. -/
theorem attrs_of_text {text : String} (h : '\n' ∉ text.toList ∨ '[' ∉ text.toList) :
    (Shape.ofSelector ("text:\"" ++ escape text ++ "\"")).attrs = [] := by
  have hselector : ("text:\"" ++ escape text ++ "\"").toList =
      "text:".toList ++ '"' :: (escaped text.toList ++ ['"']) := by
    simp [toList_escape]
  have htrim : trim ("text:\"" ++ escape text ++ "\"").toList =
      "text:".toList ++ '"' :: (escaped text.toList ++ ['"']) := by
    rw [hselector]
    refine trim_of_edges (fun c hc => ?_) fun c hc => ?_
    · rw [← Option.some.inj hc]
      decide
    · rw [← List.cons_append, ← List.append_assoc, List.getLast?_concat] at hc
      rw [← Option.some.inj hc]
      decide
  have hrole : roleShape? ("text:".toList ++ '"' :: (escaped text.toList ++ ['"'])) = none := rfl
  rcases h with hlines | hbracket
  · have hfree : '\n' ∉ escaped text.toList := fun hmem =>
      (mem_escaped hmem).elim hlines (by decide)
    obtain ⟨shape, hshape⟩ : ∃ shape,
        textShape? ("text:".toList ++ '"' :: (escaped text.toList ++ ['"'])) = some shape := by
      rw [textShape?, afterLead?_append]
      dsimp only [Option.or, Option.bind]
      rw [List.dropWhile_cons_of_neg (by decide), if_neg (by simp [hfree])]
      exact ⟨_, rfl⟩
    have hread : Shape.ofSelector ("text:\"" ++ escape text ++ "\"") = shape := by
      unfold Shape.ofSelector
      dsimp only
      rw [htrim, if_neg (by simp), hrole, hshape]
      rfl
    rw [hread, attrs_of_textShape? hshape]
  · have hfree : '[' ∉ escaped text.toList := fun hmem =>
      (mem_escaped hmem).elim hbracket (by decide)
    refine attrs_of_unbracketed (by rw [hselector]; simp [hfree]) fun shape hshape => ?_
    rw [htrim, hrole] at hshape
    exact absurd hshape (by simp)

/-! ## A part behind a tag -/

theorem passes_part {name value : List Char} (hname : ∀ c ∈ name, isNameChar c = true)
    (hvalue : '"' ∉ value) (depth : Int) : Passes { depth } (part name value) { depth } := by
  have hopen : Nesting.after { depth } '[' = { depth := depth + 1 } := rfl
  have hclose : Nesting.after { depth := depth + 1 } ']' = { depth } :=
    congrArg (Nesting.mk · none) (Int.add_sub_cancel depth 1)
  have hnone : ∀ {depth : Int} {c : Char}, isCombinator c = false →
      Nesting.separates { depth } c = false := fun hc => by
    rw [Nesting.separates, hc, Bool.and_false]
  refine Passes.cons (hnone (by decide)) ?_
  rw [hopen]
  refine (passes_of_marks (fun c hc => isMarkChar_of_isNameChar (hname c hc)) _).append
    (Passes.cons (hnone (by decide)) (Passes.cons (hnone (by decide)) ?_))
  refine (passes_quoted hvalue _).append (Passes.cons rfl (Passes.cons (hnone (by decide)) ?_))
  show Passes (Nesting.after { depth := depth + 1 } ']') [] _
  rw [hclose]
  exact Passes.nil _

/-- Without quotes, the scan may forget some of the characters, and may be anywhere but inside
quotes. -/
theorem lastFrom_unquoted {cs : List Char} (h : Unquoted cs) (rest : List Char) : ∀ depth current,
    ∃ depth' kept,
      lastFrom { depth } current (cs ++ rest) = lastFrom { depth := depth' } kept rest ∧
        kept ⊆ cs ++ current := by
  induction cs with
  | nil => exact fun depth current => ⟨depth, current, rfl, List.Subset.refl _⟩
  | cons c cs ih =>
    obtain ⟨hc, hcs⟩ := List.forall_mem_cons.mp h
    intro depth current
    rw [List.cons_append, lastFrom]
    split
    · obtain ⟨depth', kept, hscan, hkept⟩ := ih hcs depth []
      refine ⟨depth', kept, hscan, fun d hd => ?_⟩
      rw [List.cons_append, List.mem_cons, List.mem_append]
      exact .inr (.inl (by simpa using hkept hd))
    · obtain ⟨depth₁, hafter⟩ : ∃ depth₁, Nesting.after { depth } c = { depth := depth₁ } := by
        unfold Nesting.after
        dsimp only
        rw [if_neg (by simp [hc])]
        split
        · exact ⟨_, rfl⟩
        · split
          · exact ⟨_, rfl⟩
          · exact ⟨_, rfl⟩
      obtain ⟨depth', kept, hscan, hkept⟩ := ih hcs depth₁ (c :: current)
      refine ⟨depth', kept, by rw [hafter, hscan], fun d hd => ?_⟩
      have hmem := hkept hd
      simp only [List.mem_append, List.mem_cons, List.cons_append] at hmem ⊢
      grind

/-- **The last compound ends with the part**, and some of what stands before it is left. -/
theorem lastCompound_part {tag name value : List Char} (htag : Unquoted tag)
    (hname : ∀ c ∈ name, isNameChar c = true) (hvalue : '"' ∉ value) : ∃ front,
    lastCompound (tag ++ part name value) = front ++ part name value ∧ front ⊆ tag := by
  obtain ⟨depth, kept, hscan, hkept⟩ := lastFrom_unquoted htag (part name value) 0 []
  rw [List.append_nil] at hkept
  have hlast : lastFrom {} [] (tag ++ part name value) = kept.reverse ++ part name value := by
    have hpass := passes_part hname hvalue depth kept []
    rw [List.append_nil] at hpass
    rw [hscan, hpass, lastFrom, List.reverse_append, List.reverse_reverse]
  refine ⟨kept.reverse.dropWhile isBlank, ?_, fun c hc => ?_⟩
  · have hdrop : (kept.reverse ++ part name value).dropWhile isBlank =
        kept.reverse.dropWhile isBlank ++ part name value := by
      rw [List.dropWhile_append]
      split
      next hempty =>
        rw [List.isEmpty_iff.mp hempty, part, List.dropWhile_cons_of_neg (by decide)]
        rfl
      next => rfl
    rw [lastCompound, hlast, trim, hdrop]
    refine dropTrailing_of_last fun c hc => ?_
    rw [getLast?_part] at hc
    rw [← Option.some.inj hc]
    decide
  · exact hkept (List.mem_reverse.mp ((List.dropWhile_suffix _).subset hc))

theorem trim_part {tag : List Char} (hfirst : ∀ c, tag.head? = some c → isBlank c = false)
    (name value : List Char) : trim (tag ++ part name value) = tag ++ part name value := by
  refine trim_of_edges (fun c hc => ?_) fun c hc => ?_
  · rw [List.head?_append, Option.or_eq_some_iff] at hc
    rcases hc with htag | ⟨-, hpart⟩
    · exact hfirst c htag
    · rw [← Option.some.inj hpart]
      decide
  · rw [getLast?_part] at hc
    rw [← Option.some.inj hc]
    decide

/-- With a tag that is not taken for a role, the part behind it does not make one. -/
theorem roleShape?_part {tag : List Char} (hfree : startsWith "role:".toList tag = false)
    (name value : List Char) : roleShape? (tag ++ part name value) = none := by
  have hlead : afterLead? "role:".toList (tag ++ part name value) = none := by
    by_contra hsome
    obtain ⟨rest, hrest⟩ := Option.ne_none_iff_exists'.mp hsome
    -- The word stands in the tag, or the bracket would be one of its characters.
    rcases List.append_eq_append_iff.mp (eq_append_of_afterLead? hrest) with
      ⟨x, hx, hpart⟩ | ⟨x, rfl, -⟩
    · cases x with
      | nil =>
        rw [List.append_nil] at hx
        rw [← hx, startsWith_iff.mpr (List.prefix_refl _)] at hfree
        exact absurd hfree (by decide)
      | cons d x =>
        obtain ⟨rfl, -⟩ := List.cons.inj hpart
        have hmem : '[' ∈ "role:".toList := by simp [hx]
        exact absurd hmem (by decide)
    · rw [startsWith_iff.mpr (List.prefix_append _ _)] at hfree
      exact absurd hfree (by decide)
  rw [roleShape?, hlead]
  rfl

/-- **A part behind a tag demands its attribute**, or the selector says nothing of attributes. -/
theorem attrs_of_part {selector : String} {tag name value : List Char}
    (hselector : selector.toList = tag ++ part name value) (hquotes : Unquoted tag)
    (hbracket : '[' ∉ tag) (hfree : startsWith "role:".toList tag = false)
    (hfirst : ∀ c, tag.head? = some c → isBlank c = false) (hname : LowName name)
    (hkind : name ≠ ("id").toList ∧ name ≠ ("role").toList) (hvalue : '"' ∉ value) :
    (Shape.ofSelector selector).attrs ⊆ [(String.ofList name, some (String.ofList value))] := by
  let condition : Condition := ⟨name, .compared 0 .equals 0 value hvalue, hname, hkind⟩
  have hrender : part name value = [condition].flatMap Condition.render := by
    simp [condition, Condition.render, Test.render, Operator.render, spaces, part]
  have hnames : ∀ c ∈ name, isNameChar c = true := fun c hc =>
    isNameChar_of_isLowNameChar (hname.chars c hc)
  unfold Shape.ofSelector
  dsimp only
  rw [hselector, trim_part hfirst, if_neg (by simp [part]), roleShape?_part hfree]
  dsimp only
  cases htext : textShape? (tag ++ part name value) with
  | some shape =>
    rw [Option.getD_some, attrs_of_textShape? htext]
    exact List.nil_subset _
  | none =>
    obtain ⟨front, hlast, hfront⟩ := lastCompound_part hquotes hnames hvalue
    intro pair hpair
    rw [Option.getD_none, hlast] at hpair
    obtain ⟨found, hfound, rfl⟩ := mem_attrs_compoundShape hpair
    rw [List.length_append, takeAttrParts_append (fun hmem => hbracket (hfront hmem)), hrender,
      takeAttrParts_conditions _ _ (Nat.le_refl _)] at hfound
    rw [List.mem_singleton.mp hfound]
    exact List.mem_singleton_self _

/-! ## One lemma for each description -/

theorem chars_of_isIdentifier {text : String} (h : isIdentifier text = true) :
    ∀ c ∈ text.toList, isNameChar c = true ∨ c = '\n' := by
  unfold isIdentifier at h
  dsimp only at h
  generalize hcounted : (if text.toList.getLast? == some '\n' then text.toList.dropLast
    else text.toList) = counted at h
  have hall : ∀ c ∈ counted, isNameChar c = true := by
    cases counted with
    | nil => exact fun _ hc => absurd hc List.not_mem_nil
    | cons c rest =>
      obtain ⟨hc, hrest⟩ := Bool.and_eq_true_iff.mp h
      exact List.forall_mem_cons.mpr ⟨isNameChar_of_isIdentStart hc, List.all_eq_true.mp hrest⟩
  by_cases hlast : text.toList.getLast? == some '\n'
  · obtain ⟨front, hfront⟩ := List.getLast?_eq_some_iff.mp (eq_of_beq hlast)
    rw [if_pos hlast, hfront, List.dropLast_concat] at hcounted
    rw [hfront, hcounted]
    exact List.forall_mem_append.mpr ⟨fun c hc => .inl (hall c hc),
      List.forall_mem_singleton.mpr (.inr rfl)⟩
  · rw [if_neg hlast] at hcounted
    exact fun c hc => .inl (hall c (hcounted ▸ hc))

/-- An identifier behind a mark says nothing of attributes. -/
theorem attrs_of_marked {mark name : String} (hmark : Unquoted mark.toList ∧ '[' ∉ mark.toList)
    (h : isIdentifier name = true) : (Shape.ofSelector (mark ++ name)).attrs = [] := by
  have hother : ∀ c ∈ name.toList, ∀ d, isNameChar d = false → d ≠ '\n' → c ≠ d := by
    intro c hc d hd hfeed
    rcases chars_of_isIdentifier h c hc with hname | rfl
    · exact ne_of_isNameChar hname hd
    · exact hfeed.symm
  refine attrs_of_plain (fun hmem => ?_) ?_
  · rw [String.toList_append] at hmem
    rcases List.mem_append.mp hmem with hmem | hmem
    · exact hmark.2 hmem
    · exact hother _ hmem '[' (by decide) (by decide) rfl
  · rw [String.toList_append]
    exact hmark.1.append fun c hc =>
      ⟨hother c hc '"' (by decide) (by decide), hother c hc '\'' (by decide) (by decide)⟩

namespace Spellable

variable {attrs : Table String} {tag : String} {text : Option String} {selector : String}

theorem escaped_value (h : Spellable attrs tag text) {name value : String}
    (hget : attrs.get? name = some value) : escaped value.toList = value.toList := by
  obtain ⟨hquotes, hback⟩ := h.values name value hget
  refine escaped_eq_iff.mpr fun c hc => ?_
  have hne : c ≠ '\\' := fun heq => hback (heq ▸ hc)
  simp [isEscaped, (hquotes c hc).1, hne]

/-- An attribute is told as it is, whatever harmless text stands before it. -/
theorem truthful_attribute (h : Spellable attrs tag text) {name value : String}
    (hname : name ∈ describingNames) (hget : attrs.get? name = some value) {front : List Char}
    (hquotes : Unquoted front) (hbracket : '[' ∉ front)
    (hfree : startsWith "role:".toList front = false)
    (hfirst : ∀ c, front.head? = some c → isBlank c = false)
    (hselector : selector.toList = front ++ part name.toList (escaped value.toList)) :
    (Shape.ofSelector selector).Truthful attrs := by
  obtain ⟨hplain, hid, hrole, -⟩ := describingNames_plain hname
  have hkind : name.toList ≠ ("id").toList ∧ name.toList ≠ ("role").toList :=
    ⟨fun heq => hid (String.toList_inj.mp heq), fun heq => hrole (String.toList_inj.mp heq)⟩
  have hquote : '"' ∉ value.toList := fun hmem => ((h.values name value hget).1 _ hmem).1 rfl
  rw [h.escaped_value hget] at hselector
  have hattrs := attrs_of_part hselector hquotes hbracket hfree hfirst hplain hkind hquote
  rw [String.ofList_toList, String.ofList_toList] at hattrs
  exact Shape.truthful_of_one hattrs hget

theorem truthful_attributeSelector (h : Spellable attrs tag text) {name value : String}
    (hname : name ∈ describingNames) (hget : attrs.get? name = some value) :
    (Shape.ofSelector (attributeSelector name value)).Truthful attrs :=
  have hnone : Unquoted [] := by decide
  h.truthful_attribute hname hget hnone List.not_mem_nil rfl (by simp)
    (toList_attributeSelector name value)

theorem truthful_byTestId (h : Spellable attrs tag text) (hselector : selector ∈ byTestId attrs) :
    (Shape.ofSelector selector).Truthful attrs := by
  obtain ⟨⟨name, value⟩, hfound, rfl⟩ := List.mem_map.mp hselector
  obtain ⟨hmem, hfilled⟩ := testId?_eq_some (Option.mem_toList.mp hfound)
  have hname : name ∈ describingNames := List.mem_append_left _ (List.mem_append_left _ hmem)
  exact h.truthful_attributeSelector hname (get?_of_filled? hfilled).1

theorem truthful_byRole (h : Spellable attrs tag text) (hselector : selector ∈ byRole attrs) :
    (Shape.ofSelector selector).Truthful attrs := by
  have hlead : Unquoted "role:".toList := by decide
  unfold byRole at hselector
  split at hselector
  next role label hrole hlabel =>
    obtain ⟨c, rest, hcons, hc⟩ := h.role role hrole
    have hlabelGet := (get?_of_filled? hlabel).1
    have hbefore : Unquoted ("role:".toList ++ role.toList) :=
      hlead.append (h.values _ _ (get?_of_filled? hrole).1).1
    have htext : selector.toList =
        "role:".toList ++ role.toList ++ part ("name").toList label.toList := by
      rw [List.mem_singleton.mp hselector]
      simp [part, toList_escape, h.escaped_value hlabelGet]
    have htrim : trim selector.toList = selector.toList := by
      rw [htext]
      exact trim_part (fun d hd => by rw [← Option.some.inj hd]; decide) _ _
    have hstart : trim selector.toList =
        "role:".toList ++ c :: (rest ++ part ("name").toList label.toList) := by
      rw [htrim, htext, hcons, List.append_assoc, List.cons_append]
    have hname : nameArgument? (trim selector.toList) = some label.toList := by
      rw [htrim, htext]
      exact nameArgument?_part hbefore (h.values _ _ hlabelGet).1
    refine Shape.truthful_of_one ?_ hlabelGet
    rw [attrs_of_role hstart hc, hname]
    simp
  next role hrole hlabel =>
    obtain ⟨c, rest, hcons, hc⟩ := h.role role hrole
    have htext : selector.toList = "role:".toList ++ c :: rest := by
      rw [List.mem_singleton.mp hselector, String.toList_append, hcons]
    have hquotes : Unquoted selector.toList := by
      rw [htext, ← hcons]
      exact hlead.append (h.values _ _ (get?_of_filled? hrole).1).1
    have htrim : trim selector.toList = "role:".toList ++ c :: trimRight rest := by
      have hfront : ∀ d ∈ "role:".toList ++ [c], isBlank d = false :=
        List.forall_mem_append.mpr
          ⟨by simp [isBlank], List.forall_mem_singleton.mpr (isBlank_of_isNameChar hc)⟩
      have hsplit : "role:".toList ++ c :: rest = ("role:".toList ++ [c]) ++ rest := by
        rw [List.append_assoc]
        rfl
      rw [htext, hsplit, trim_append (by simp) hfront, List.append_assoc]
      rfl
    refine Shape.truthful_of_nil ?_
    rw [attrs_of_role htrim hc, nameArgument?_of_unquoted (hquotes.within (infix_trim _))]
    rfl
  next label hrole hlabel =>
    rw [List.mem_singleton.mp hselector]
    exact h.truthful_attributeSelector (by decide) (get?_of_filled? hlabel).1
  next => exact absurd hselector List.not_mem_nil

theorem truthful_byTag (h : Spellable attrs tag text)
    (hfirst : ∀ c, tag.toList.head? = some c → isBlank c = false)
    (hselector : selector ∈ byTag attrs tag) : (Shape.ofSelector selector).Truthful attrs := by
  have htagged : ∀ (name value : String), name ∈ describingNames → attrs.get? name = some value →
      selector.toList = tag.toList ++ part name.toList (escaped value.toList) →
      (Shape.ofSelector selector).Truthful attrs := fun _ _ hname hget =>
    h.truthful_attribute hname hget h.tag_quotes h.tag_bracket h.tag_free hfirst
  unfold byTag at hselector
  split at hselector
  next => exact absurd hselector List.not_mem_nil
  next =>
    split at hselector
    next _ name hname =>
      refine htagged "name" name (by decide) (get?_of_filled? hname).1 ?_
      rw [List.mem_singleton.mp hselector]
      simp [part, toList_escape]
    next type _ htype =>
      refine htagged "type" type (by decide) (get?_of_filled? htype).1 ?_
      rw [List.mem_singleton.mp hselector]
      simp [part, toList_escape]
    next => exact absurd hselector List.not_mem_nil

/-- **What a generated selector says of attributes, is right**, under any preference. -/
theorem truthful_generate (h : Spellable attrs tag text)
    (hfirst : ∀ c, tag.toList.head? = some c → isBlank c = false) {prefer : List String}
    (hselector : selector ∈ generate attrs tag text prefer) :
    (Shape.ofSelector selector).Truthful attrs := by
  rcases mem_generate_iff.mp hselector with htest | hid | hrole | htext | hclass | htag
  · exact h.truthful_byTestId htest
  · obtain ⟨id, hfound, rfl⟩ := List.mem_map.mp hid
    exact Shape.truthful_of_nil (attrs_of_marked (by decide)
      (Option.filter_eq_some_iff.mp (Option.mem_toList.mp hfound)).2)
  · exact h.truthful_byRole hrole
  · obtain ⟨short, hfound, rfl⟩ := List.mem_map.mp htext
    exact Shape.truthful_of_nil (attrs_of_text (h.text short (Option.mem_toList.mp hfound)))
  · unfold byClass at hclass
    dsimp only at hclass
    split at hclass
    next hidentifier =>
      rw [List.mem_singleton.mp hclass]
      exact Shape.truthful_of_nil (attrs_of_marked (by decide) hidentifier)
    next => exact absurd hclass List.not_mem_nil
  · exact h.truthful_byTag hfirst htag

/-- A role that is not taken for one, and a tag that is. -/
example : (Shape.ofSelector "role:[data-qa=x]").attrs = [("data-qa", some "x")] ∧
    (Shape.ofSelector "role:x[name=\"v\"]").attrs = [("aria-label", some "v")] := by
  decide +kernel

/-- The tag alone says nothing of attributes. -/
theorem truthful_tag (h : Spellable attrs tag text) : (Shape.ofSelector tag).Truthful attrs :=
  Shape.truthful_of_nil (attrs_of_plain h.tag_bracket h.tag_quotes)

end Spellable

end Mooring.Selector
