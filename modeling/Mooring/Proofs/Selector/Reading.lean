import Mooring.Proofs.Selector.Escape
import Mooring.Proofs.Selector.Shape

/-!
# Reading simple selectors

What the simplest selectors demand, read off their texts: `[name="value"]`, with or without a tag
before it (`ofSelector_part`), `#id` and `.class` (`ofSelector_id`, `ofSelector_class`), `role:…`
with or without a name (`ofSelector_role`), and `text:"…"` (`ofSelector_text`).  The first three are
compounds by themselves.
-/

namespace Mooring.Selector

open Mooring.Text

/-! ## Values in quotes -/

/-- The value can stand between quotes as it is. -/
def Inert (value : List Char) : Prop :=
  ∀ c ∈ value, c ≠ '"' ∧ c ≠ '\'' ∧ c ≠ '\\' ∧ c ≠ '\n'

instance (value : List Char) : Decidable (Inert value) :=
  List.decidableBAll _ value

theorem Inert.quotable {value : List Char} (h : Inert value) : '"' ∉ value :=
  fun hmem => (h _ hmem).1 rfl

theorem Inert.escaped {value : List Char} (h : Inert value) : escaped value = value := by
  refine escaped_eq_iff.mpr fun c hc => ?_
  obtain ⟨hquote, -, hback, -⟩ := h c hc
  simp [isEscaped, hquote, hback]

theorem Inert.escape {value : String} (h : Inert value.toList) : escape value = value := by
  rw [← String.toList_inj, toList_escape, h.escaped]

/-- The text holds no quotes. -/
def Unquoted (cs : List Char) : Prop :=
  ∀ c ∈ cs, c ≠ '"' ∧ c ≠ '\''

instance (cs : List Char) : Decidable (Unquoted cs) :=
  List.decidableBAll _ cs

theorem Inert.unquoted {value : List Char} (h : Inert value) : Unquoted value :=
  fun c hc => ⟨(h c hc).1, (h c hc).2.1⟩

theorem unquoted_of_isNameChar {cs : List Char} (h : ∀ c ∈ cs, isNameChar c = true) : Unquoted cs :=
  fun c hc => ⟨ne_of_isNameChar (h c hc) (by decide), ne_of_isNameChar (h c hc) (by decide)⟩

theorem Unquoted.append {cs more : List Char} (h : Unquoted cs) (hmore : Unquoted more) :
    Unquoted (cs ++ more) :=
  List.forall_mem_append.mpr ⟨h, hmore⟩

/-- An attribute part. -/
def part (name value : List Char) : List Char :=
  '[' :: (name ++ '=' :: '"' :: (value ++ ['"', ']']))

theorem toList_attributeSelector (name value : String) :
    (attributeSelector name value).toList = part name.toList (escaped value.toList) := by
  simp [attributeSelector, part, toList_escape]

/-- What ends with an attribute part does not end with a blank. -/
theorem getLast?_part (tag name value : List Char) :
    (tag ++ part name value).getLast? = some ']' := by
  have hsame : tag ++ part name value =
      (tag ++ '[' :: (name ++ '=' :: '"' :: (value ++ ['"']))) ++ [']'] := by
    simp [part]
  rw [hsame, List.getLast?_concat]

/-! ## Compounds by themselves -/

/-- **An attribute part demands its attribute**, and a tag before it demands that tag. -/
theorem ofSelector_part {selector : String} {tag : Option (List Char)} {name value : List Char}
    (hselector : selector.toList = tag.getD [] ++ part name value)
    (htag : ∀ name, tag = some name → LowName name) (hname : LowName name)
    (hfree : name ≠ ("id").toList ∧ name ≠ ("role").toList) (hquotable : '"' ∉ value) :
    Shape.ofSelector selector =
      { tag := tag.map String.ofList
        attrs := [(String.ofList name, some (String.ofList value))] } := by
  let condition : Condition := ⟨name, .compared 0 .equals 0 value hquotable, hname, hfree⟩
  let compound : Compound :=
    { tag := tag
      id := none
      classes := []
      conditions := [condition]
      tag_low := htag
      id_whole := by simp
      classes_whole := by simp
      names_nodup := List.pairwise_singleton _ _
      filled := by simp }
  have hrender : selector = String.ofList compound.render := by
    rw [← String.ofList_toList (s := selector), hselector]
    simp [compound, Compound.render, Compound.marks, Compound.idMark,
      Compound.classMarks, condition, Condition.render, Test.render, Operator.render, spaces, part]
  rw [hrender, compound.ofSelector_render]
  rfl

/-- **The mark of an identifier demands that identifier.** -/
theorem ofSelector_id {id : String} (h : WholeName isIdentStart id.toList) :
    Shape.ofSelector ("#" ++ id) = { elementId := some id } := by
  let compound : Compound :=
    { tag := none
      id := some id.toList
      classes := []
      conditions := []
      tag_low := by simp
      id_whole := fun name hname => Option.some.inj hname ▸ h
      classes_whole := by simp
      names_nodup := List.Pairwise.nil
      filled := by simp }
  have hrender : "#" ++ id = String.ofList compound.render := by
    rw [← String.toList_inj]
    simp [compound, Compound.render, Compound.marks, Compound.idMark,
      Compound.classMarks]
  rw [hrender, compound.ofSelector_render]
  simp [compound, Compound.shape]

/-- **The mark of a class demands that class.** -/
theorem ofSelector_class {name : String} (h : WholeName isIdentStart name.toList) :
    Shape.ofSelector ("." ++ name) = { classes := [name] } := by
  let compound : Compound :=
    { tag := none
      id := none
      classes := [name.toList]
      conditions := []
      tag_low := by simp
      id_whole := by simp
      classes_whole := List.forall_mem_singleton.mpr h
      names_nodup := List.Pairwise.nil
      filled := by simp }
  have hrender : "." ++ name = String.ofList compound.render := by
    rw [← String.toList_inj]
    simp [compound, Compound.render, Compound.marks, Compound.idMark,
      Compound.classMarks]
  rw [hrender, compound.ofSelector_render]
  simp [compound, Compound.shape]

/-! ## Roles and texts -/

/-- A name is given at a place only if a quote stands behind its equals sign. -/
theorem nameArgument?_skip {c : Char} {rest : List Char}
    (h : ∀ quote, rest[4]? = some quote → quote ≠ '"' ∧ quote ≠ '\'') :
    nameArgument? (c :: rest) = nameArgument? rest := by
  rw [nameArgument?]
  split
  next quote inner hlead =>
    have htext := eq_append_of_afterLead? hlead
    obtain ⟨hdouble, hsingle⟩ := h quote (by rw [(List.cons.inj htext).2]; rfl)
    rw [if_neg (by simp [hdouble, hsingle])]
    rfl
  next => rfl

/-- Where no quotes stand, no name is given. -/
theorem nameArgument?_of_unquoted {cs : List Char} (h : Unquoted cs) :
    nameArgument? cs = none := by
  induction cs with
  | nil => rfl
  | cons c rest ih =>
    obtain ⟨-, hrest⟩ := List.forall_mem_cons.mp h
    rw [nameArgument?_skip fun quote hquote => hrest quote (List.mem_of_getElem? hquote)]
    exact ih hrest

/-- The name that is given in a bracket behind what holds no quotes. -/
theorem nameArgument?_part {before value : List Char} (h : Unquoted before)
    (hvalue : Unquoted value) :
    nameArgument? (before ++ part ("name").toList value) = some value := by
  induction before with
  | nil =>
    have hlead : afterLead? ("name=").toList ('n' :: ("ame=\"").toList ++ (value ++ ['"', ']'])) =
        some ('"' :: (value ++ ['"', ']'])) :=
      afterLead?_append ("name=").toList ('"' :: (value ++ ['"', ']']))
    have hsplit : splitBefore? (fun c => c == '"' || c == '\'') (value ++ ['"', ']']) =
        some (value, ['"', ']']) :=
      splitBefore?_lead (fun c hc => by simp [hvalue c hc]) (by decide) _
    rw [List.nil_append, part, nameArgument?_skip fun quote hquote => by
      rw [← Option.some.inj hquote]
      decide]
    show nameArgument? ('n' :: ("ame=\"").toList ++ (value ++ ['"', ']'])) = some value
    rw [List.cons_append, nameArgument?, ← List.cons_append, hlead]
    simp [hsplit]
  | cons c before ih =>
    have hbefore : Unquoted before := (List.forall_mem_cons.mp h).2
    -- The first quote is that of the bracket, and it is more than five characters off.
    have hlead : before ++ part ("name").toList value =
        (before ++ ("[name=").toList) ++ ('"' :: (value ++ ['"', ']'])) := by simp [part]
    have hplain : Unquoted (before ++ ("[name=").toList) := hbefore.append (by decide)
    rw [List.cons_append, nameArgument?_skip fun quote hquote => ?_]
    · exact ih hbefore
    · have hlength : 4 < (before ++ ("[name=").toList).length := by
        rw [List.length_append]
        exact Nat.lt_add_left _ (by decide)
      rw [hlead, List.getElem?_append_left hlength] at hquote
      exact hplain quote (List.mem_of_getElem? hquote)

/-- **A role demands that role**, and a name given with it demands that label. -/
theorem ofSelector_role {selector : String} {role after : List Char} (hne : role ≠ [])
    (hrole : ∀ c ∈ role, isNameChar c = true)
    (hafter : ∀ c, after.head? = some c → isNameChar c = false)
    (hlast : ∀ c, after.getLast? = some c → isBlank c = false)
    (hselector : selector.toList = "role:".toList ++ (role ++ after)) :
    Shape.ofSelector selector =
      { role := some (String.ofList role)
        attrs := ((nameArgument? selector.toList).map fun name =>
          ("aria-label", some (String.ofList name))).toList } := by
  have htrim : trim selector.toList = selector.toList := by
    rw [hselector]
    refine trim_of_edges (fun c hc => ?_) fun c hc => ?_
    · rw [← Option.some.inj hc]
      decide
    · rw [List.getLast?_append, List.getLast?_append] at hc
      cases hend : after.getLast? with
      | some d =>
        rw [hend] at hc
        obtain rfl := Option.some.inj hc
        exact hlast _ hend
      | none =>
        rw [hend, Option.none_or] at hc
        cases hname : role.getLast? with
        | none => exact absurd (List.getLast?_eq_none_iff.mp hname) hne
        | some d =>
          rw [hname] at hc
          obtain rfl := Option.some.inj hc
          exact isBlank_of_isNameChar (hrole _ (List.mem_of_getLast? hname))
  have htake : (role ++ after).takeWhile isNameChar = role := by
    cases after with
    | nil => rw [List.append_nil, takeWhile_all hrole]
    | cons c rest => exact takeWhile_stop hrole (hafter c rfl) rest
  have hshape : roleShape? selector.toList = some
      { role := some (String.ofList role)
        attrs := ((nameArgument? selector.toList).map fun name =>
          ("aria-label", some (String.ofList name))).toList } := by
    unfold roleShape?
    rw [hselector, afterLead?_append, ← hselector]
    dsimp only [Option.bind]
    rw [htake, if_neg (by simpa using hne)]
    cases nameArgument? selector.toList <;> rfl
  unfold Shape.ofSelector
  dsimp only
  rw [htrim, if_neg (by rw [hselector]; simp), hshape]

/-- **A text in quotes demands that text.** -/
theorem ofSelector_text {text : String} (h : Inert text.toList) :
    Shape.ofSelector ("text:\"" ++ text ++ "\"") = { text := some text } := by
  have htext : ("text:\"" ++ text ++ "\"").toList =
      "text:".toList ++ ('"' :: (text.toList ++ ['"'])) := by
    simp
  have htrim : trim ("text:\"" ++ text ++ "\"").toList = ("text:\"" ++ text ++ "\"").toList := by
    refine trim_of_edges (fun c hc => ?_) fun c hc => ?_
    · rw [htext] at hc
      rw [← Option.some.inj hc]
      decide
    · have hend : ("text:\"" ++ text ++ "\"").toList = ("text:\"" ++ text).toList ++ ['"'] := by
        simp
      rw [hend, List.getLast?_concat] at hc
      rw [← Option.some.inj hc]
      decide
  have hlines : ('"' :: (text.toList ++ ['"'])).contains '\n' = false := by
    have hfree : '\n' ∉ text.toList := fun hmem => (h _ hmem).2.2.2 rfl
    simp [hfree]
  have hquotes : (dropQuote (dropQuote ('"' :: (text.toList ++ ['"']))).reverse).reverse =
      text.toList := by
    simp [dropQuote]
  have hshape : textShape? ("text:".toList ++ ('"' :: (text.toList ++ ['"']))) =
      some { text := some text } := by
    unfold textShape?
    rw [afterLead?_append]
    dsimp only [Option.or, Option.bind]
    rw [List.dropWhile_cons_of_neg (by decide), hlines, hquotes, String.ofList_toList]
    rfl
  unfold Shape.ofSelector
  dsimp only
  rw [htrim, htext, if_neg (by simp), hshape]
  rfl

end Mooring.Selector
