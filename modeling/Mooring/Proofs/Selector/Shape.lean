import Mooring.Proofs.Selector.Chain

/-!
# Reading chains

Reading a chain gives exactly what its last compound says (`ofSelector_chain`): its tag, identifier,
classes and conditions, no role and no text.

The parts of a compound do not get into each other.  The conditions are taken out before anything
else is looked for (`Compound.takeAttrParts_render`), and what is left are the tag and the marks,
where there is neither a bracket nor a colon.
-/

namespace Mooring.Selector

open Mooring.Text

/-! ## Conditions -/

/-- What a condition is read as. -/
def Condition.part (condition : Condition) : AttrPart :=
  ⟨String.ofList condition.name, condition.test.value?⟩

/-- Behind its name, an attribute part goes on with an operator and a value, or it is over. -/
theorem attrPart?_name {name after : List Char} (hname : LowName name)
    (hafter : ∀ c, after.head? = some c → isAttrNameChar c = false) :
    attrPart? (name ++ after) =
      match operator? (after.dropWhile isBlank) with
      | none => (afterBracket? (after.dropWhile isBlank)).map fun rest =>
        (⟨String.ofList name, none⟩, rest)
      | some (exact, rest) =>
        ((quotedAttrValue? (rest.dropWhile isBlank)).or
          (bareAttrValue? (rest.dropWhile isBlank))).map fun (value, rest) =>
            (⟨String.ofList name, if exact then some (String.ofList value) else none⟩, rest) := by
  have hchars : ∀ c ∈ name, isAttrNameChar c = true := fun c hc => by
    rw [isAttrNameChar, isNameChar_of_isLowNameChar (hname.chars c hc), Bool.true_or]
  have hbody : (name ++ after).dropWhile isBlank = name ++ after := by
    obtain ⟨c, more, rfl⟩ := List.exists_cons_of_ne_nil hname.ne_nil
    have hc := isBlank_of_isNameChar
      (isNameChar_of_isLowNameChar (hname.chars c List.mem_cons_self))
    exact List.dropWhile_cons_of_neg (by rw [hc]; exact Bool.false_ne_true)
  have htake : (name ++ after).takeWhile isAttrNameChar = name := by
    cases after with
    | nil => rw [List.append_nil, takeWhile_all hchars]
    | cons c rest => exact takeWhile_stop hchars (hafter c rfl) rest
  have hdrop : (name ++ after).dropWhile isAttrNameChar = after := by
    cases after with
    | nil => rw [List.append_nil, List.dropWhile_eq_nil_iff.mpr hchars]
    | cons c rest => exact dropWhile_stop hchars (hafter c rfl) rest
  have hempty : name.isEmpty = false := by simpa using hname.ne_nil
  unfold attrPart?
  dsimp only
  rw [hbody, htake, hdrop, hempty, hname.lower]
  rfl

theorem dropWhile_spaces (count : Nat) {c : Char} (hc : isBlank c = false) (rest : List Char) :
    (spaces count ++ c :: rest).dropWhile isBlank = c :: rest :=
  dropWhile_stop (fun d hd => by rw [mem_spaces hd]; decide) hc rest

/-- A value in quotes is read as it is. -/
theorem quotedAttrValue?_value {value : List Char} (h : '"' ∉ value) (rest : List Char) :
    quotedAttrValue? ('"' :: (value ++ '"' :: ']' :: rest)) = some (value, rest) := by
  have hquote : ∀ c ∈ value, (c == '"') = false := fun c hc =>
    beq_eq_false_iff_ne.mpr fun heq => h (heq ▸ hc)
  rw [quotedAttrValue?, if_pos (by decide), splitBefore?_lead hquote (by decide)]
  rfl

/-- The first character of an operator is neither a blank nor one of a name. -/
theorem Operator.head_render (operator : Operator) : ∃ c more, operator.render = c :: more ∧
    isBlank c = false ∧ isAttrNameChar c = false := by
  cases operator with
  | equals => exact ⟨'=', [], rfl, by decide, by decide⟩
  | marked mark known =>
    have hmarks : ∀ mark ∈ ['~', '|', '^', '$', '*'],
        isBlank mark = false ∧ isAttrNameChar mark = false := by
      simp only [List.forall_mem_cons, List.not_mem_nil, false_implies, implies_true, and_true]
      decide
    exact ⟨mark, ['='], rfl, hmarks mark known⟩

theorem operator?_marked {mark : Char} (known : mark ∈ ['~', '|', '^', '$', '*'])
    (rest : List Char) : operator? (mark :: '=' :: rest) = some (false, rest) := by
  simp only [List.mem_cons, List.not_mem_nil, or_false] at known
  rcases known with rfl | rfl | rfl | rfl | rfl <;> rfl

/-- A closing bracket is no operator. -/
theorem operator?_bracket (rest : List Char) : operator? (']' :: rest) = none := by
  cases rest with
  | nil => rfl
  | cons c rest =>
    unfold operator?
    split
    next heq => exact absurd (List.cons.inj heq).1 (by decide)
    next heq =>
      obtain ⟨rfl, -⟩ := List.cons.inj heq
      rfl
    next => rfl

/-- **A condition is read as it was written**, whatever the value in it. -/
theorem Condition.attrPart?_render (condition : Condition) (rest : List Char) :
    attrPart? (condition.name ++ (condition.test.render ++ ']' :: rest)) =
      some (condition.part, rest) := by
  obtain ⟨name, test, hname, -⟩ := condition
  dsimp only [Condition.part]
  cases test with
  | present =>
    rw [Test.render, List.nil_append, attrPart?_name hname (by simp; decide)]
    rw [List.dropWhile_cons_of_neg (by decide), operator?_bracket]
    rfl
  | compared before operator after value quotable =>
    obtain ⟨c, more, hoperator, hblank, hstop⟩ := operator.head_render
    -- What stands behind the name, and behind the operator.
    have hafter : (Test.compared before operator after value quotable).render ++ ']' :: rest =
        spaces before ++ (operator.render ++
          (spaces after ++ '"' :: (value ++ '"' :: ']' :: rest))) := by
      simp [Test.render]
    have hhead : ∀ d, (spaces before ++ (operator.render ++
        (spaces after ++ '"' :: (value ++ '"' :: ']' :: rest)))).head? = some d →
        isAttrNameChar d = false := by
      intro d hd
      rw [List.head?_append, Option.or_eq_some_iff, hoperator] at hd
      rcases hd with hspace | ⟨-, hd⟩
      · rw [mem_spaces (List.mem_of_head? hspace)]
        decide
      · rw [← Option.some.inj hd]
        exact hstop
    have hblanks : (spaces before ++ (operator.render ++
        (spaces after ++ '"' :: (value ++ '"' :: ']' :: rest)))).dropWhile isBlank =
        operator.render ++ (spaces after ++ '"' :: (value ++ '"' :: ']' :: rest)) := by
      rw [hoperator]
      exact dropWhile_spaces before hblank _
    rw [hafter, attrPart?_name hname hhead, hblanks]
    cases operator with
    | equals =>
      show ((quotedAttrValue? ((spaces after ++ _).dropWhile isBlank)).or _).map _ = _
      rw [dropWhile_spaces after (by decide), quotedAttrValue?_value quotable]
      rfl
    | marked mark known =>
      rw [Operator.render, List.cons_append, List.singleton_append, operator?_marked known]
      dsimp only
      rw [dropWhile_spaces after (by decide), quotedAttrValue?_value quotable]
      rfl

/-- **The conditions are taken out of a compound**, all of them and in order. -/
theorem takeAttrParts_conditions (conditions : List Condition) : ∀ fuel,
    (conditions.flatMap Condition.render).length ≤ fuel →
      takeAttrParts fuel (conditions.flatMap Condition.render) =
        (conditions.map Condition.part, []) := by
  induction conditions with
  | nil => intro fuel _; cases fuel <;> rfl
  | cons condition conditions ih =>
    intro fuel hfuel
    have htext : (condition :: conditions).flatMap Condition.render =
        '[' :: (condition.name ++ (condition.test.render ++
          ']' :: conditions.flatMap Condition.render)) := by
      simp [Condition.render]
    rw [htext] at hfuel ⊢
    cases fuel with
    | zero => exact absurd hfuel (by simp)
    | succ fuel =>
      have hless : (conditions.flatMap Condition.render).length ≤ fuel := by
        simp only [List.length_cons, List.length_append] at hfuel
        omega
      rw [takeAttrParts, if_pos (by decide), condition.attrPart?_render]
      dsimp only
      rw [ih fuel hless]
      rfl

/-- Outside brackets, nothing is an attribute part. -/
theorem takeAttrParts_append {cs : List Char} (h : '[' ∉ cs) (fuel : Nat) (rest : List Char) :
    takeAttrParts (cs.length + fuel) (cs ++ rest) =
      ((takeAttrParts fuel rest).1, cs ++ (takeAttrParts fuel rest).2) := by
  induction cs with
  | nil => rw [List.length_nil, Nat.zero_add]; rfl
  | cons c cs ih =>
    have hne : c ≠ '[' := fun heq => h (heq ▸ List.mem_cons_self)
    rw [List.length_cons, Nat.add_right_comm, List.cons_append, takeAttrParts,
      if_neg (by simpa using hne)]
    dsimp only
    rw [ih fun hmem => h (List.mem_cons_of_mem _ hmem)]
    rfl

theorem Compound.takeAttrParts_render (compound : Compound) :
    takeAttrParts compound.render.length compound.render =
      (compound.conditions.map Condition.part, compound.marks) := by
  rw [render, List.length_append, takeAttrParts_append (compound.not_mem_marks (by decide)),
    takeAttrParts_conditions _ _ (Nat.le_refl _), List.append_nil]

/-! ## Names and marks -/

theorem hasTextArgument?_of_marks {cs : List Char} (h : ∀ c ∈ cs, isMarkChar c = true) :
    hasTextArgument? cs = none := by
  induction cs with
  | nil => rfl
  | cons c rest ih =>
    have hnone : afterLead? (":has-text(").toList (c :: rest) = none := by
      refine afterLead?_eq_none_of_not_mem (c := ':') (by decide) fun hmem => ?_
      exact ne_of_isMarkChar (h ':' hmem) (by decide) rfl
    rw [hasTextArgument?, hnone]
    exact ih (List.forall_mem_cons.mp h).2

theorem dropPseudos_of_marks {cs : List Char} (h : ∀ c ∈ cs, isMarkChar c = true) (fuel : Nat) :
    dropPseudos fuel cs = cs := by
  induction cs generalizing fuel with
  | nil => cases fuel <;> rfl
  | cons c rest ih =>
    obtain ⟨hc, hrest⟩ := List.forall_mem_cons.mp h
    cases fuel with
    | zero => rfl
    | succ fuel =>
      have hnone : afterPseudo? (c :: rest) = none := by
        have hne := ne_of_isMarkChar hc (d := ':') (by decide)
        unfold afterPseudo?
        split
        next heq => exact absurd (List.cons.inj heq).1 hne
        next heq => exact absurd (List.cons.inj heq).1 hne
        next => rfl
      rw [dropPseudos, hnone]
      exact congrArg (List.cons c) (ih hrest fuel)

/-- No name starts with another mark. -/
theorem nameAt?_of_head {isFirst : Char → Bool} {cs : List Char}
    (h : ∀ c, cs.head? = some c → isFirst c = false) : nameAt? isFirst cs = none := by
  cases cs with
  | nil => rfl
  | cons c rest => rw [nameAt?, if_neg (by rw [h c rfl]; exact Bool.false_ne_true)]

/-- The first marked name is looked for behind what holds no mark. -/
theorem firstMarked?_append {mark : Char} {cs : List Char} (h : mark ∉ cs) (rest : List Char) :
    firstMarked? mark (cs ++ rest) = firstMarked? mark rest := by
  induction cs with
  | nil => rfl
  | cons c cs ih =>
    have hne : c ≠ mark := fun heq => h (heq ▸ List.mem_cons_self)
    rw [List.cons_append, firstMarked?, if_neg (by simpa using hne)]
    exact ih fun hmem => h (List.mem_cons_of_mem _ hmem)

theorem firstMarked?_of_not_mem {mark : Char} {cs : List Char} (h : mark ∉ cs) :
    firstMarked? mark cs = none := by
  rw [← List.append_nil cs, firstMarked?_append h, firstMarked?]

/-- Marked names are looked for behind what holds no mark. -/
theorem allMarked_append {mark : Char} {cs : List Char} (h : mark ∉ cs) (fuel : Nat)
    (rest : List Char) :
    allMarked mark (cs.length + fuel) (cs ++ rest) = allMarked mark fuel rest := by
  induction cs with
  | nil => rw [List.length_nil, Nat.zero_add]; rfl
  | cons c cs ih =>
    have hne : c ≠ mark := fun heq => h (heq ▸ List.mem_cons_self)
    rw [List.length_cons, Nat.add_right_comm, List.cons_append, allMarked,
      if_neg (by simpa using hne)]
    exact ih fun hmem => h (List.mem_cons_of_mem _ hmem)

namespace Compound

theorem head?_classMarks {classes : List (List Char)} {c : Char}
    (h : (classMarks classes).head? = some c) : c = '.' := by
  rw [classMarks, List.head?_flatMap] at h
  obtain ⟨name, -, hc⟩ := List.exists_of_findSome?_eq_some h
  exact (Option.some.inj hc).symm

/-- The classes are all found, and in order. -/
theorem allMarked_classMarks {classes : List (List Char)}
    (hwhole : ∀ name ∈ classes, WholeName isIdentStart name) : ∀ fuel,
    (classMarks classes).length ≤ fuel → allMarked '.' fuel (classMarks classes) = classes := by
  induction classes with
  | nil => intro fuel _; cases fuel <;> rfl
  | cons name classes ih =>
    intro fuel hfuel
    obtain ⟨hname, hclasses⟩ := List.forall_mem_cons.mp hwhole
    have htext : classMarks (name :: classes) = '.' :: (name ++ classMarks classes) := by
      simp [classMarks]
    rw [htext] at hfuel ⊢
    cases fuel with
    | zero => exact absurd hfuel (by simp)
    | succ fuel =>
      have hless : (classMarks classes).length ≤ fuel := by
        simp only [List.length_cons, List.length_append] at hfuel
        omega
      rw [allMarked, if_pos (by decide),
        hname.nameAt? fun c hc => by rw [head?_classMarks hc]; decide]
      dsimp only
      rw [ih hclasses fuel hless]

variable (compound : Compound)

theorem head?_names {c : Char} (h : (compound.idMark ++ classMarks compound.classes).head? =
    some c) : c = '#' ∨ c = '.' := by
  rw [List.head?_append, Option.or_eq_some_iff] at h
  rcases h with hid | ⟨-, hclass⟩
  · refine .inl ?_
    unfold idMark at hid
    split at hid
    next => exact (Option.some.inj hid).symm
    next => exact absurd hid (by simp)
  · exact .inr (head?_classMarks hclass)

/-- The tag is what the marks start with. -/
theorem nameAt?_marks : (nameAt? isAsciiLetter compound.marks).map
    (fun (name, _) => String.ofList (lower name)) = compound.tag.map String.ofList := by
  cases htag : compound.tag with
  | none =>
    rw [marks, htag, Option.getD_none, List.nil_append, nameAt?_of_head fun c hc => ?_]
    · rfl
    · rcases compound.head?_names hc with rfl | rfl <;> decide
  | some name =>
    have hlow := compound.tag_low name htag
    rw [marks, htag, Option.getD_some, (WholeName.ofLowName hlow).nameAt? fun c hc => ?_]
    · show some (String.ofList (lower name)) = some (String.ofList name)
      rw [hlow.lower]
    · rcases compound.head?_names hc with rfl | rfl <;> decide

theorem tag_free {mark : Char} (hmark : isNameChar mark = false) :
    mark ∉ compound.tag.getD [] :=
  fun hmem => ne_of_isNameChar (compound.isNameChar_tag hmem) hmark rfl

/-- The identifier is the first name behind its mark. -/
theorem firstMarked?_marks : firstMarked? '#' compound.marks = compound.id := by
  rw [marks, firstMarked?_append (compound.tag_free (by decide)), idMark]
  split
  next name hid =>
    rw [List.cons_append, firstMarked?, if_pos (by decide),
      (compound.id_whole name hid).nameAt? fun c hc => by rw [head?_classMarks hc]; decide, hid]
    rfl
  next hid =>
    rw [List.nil_append, hid]
    refine firstMarked?_of_not_mem fun hmem => ?_
    rcases mem_classMarks compound.classes_whole hmem with hname | hmark
    · exact absurd hname (by decide)
    · exact absurd hmark (by decide)

/-- The classes are the names behind their marks. -/
theorem allMarked_marks : allMarked '.' compound.marks.length compound.marks =
    compound.classes := by
  have hid : '.' ∉ compound.idMark := by
    intro hmem
    rcases compound.mem_idMark hmem with hname | hmark
    · exact absurd hname (by decide)
    · exact absurd hmark (by decide)
  rw [marks, List.length_append, allMarked_append (compound.tag_free (by decide)),
    List.length_append, allMarked_append hid,
    allMarked_classMarks compound.classes_whole _ (Nat.le_refl _)]

/-! ## What a chain demands -/

/-- The conditions are one pair for each attribute. -/
theorem ofPairs_part : Table.ofPairs ((compound.conditions.map Condition.part).map fun part =>
    (part.name, part.value)) = compound.shape.attrs := by
  rw [List.map_map]
  refine Table.ofPairs_of_nodup ?_
  have hnames := List.Pairwise.map (S := (· ≠ ·)) String.ofList
    (fun _ _ hne heq => hne (String.ofList_inj.mp heq)) compound.names_nodup
  rw [List.map_map] at hnames
  rwa [Table.names, List.map_map]

theorem get?_shape (name : String) (h : name = "id" ∨ name = "role") :
    Table.get? name compound.shape.attrs = none := by
  refine Table.get?_eq_none fun pair hpair heq => ?_
  obtain ⟨condition, -, rfl⟩ := List.mem_map.mp hpair
  have hname : condition.name = name.toList := by rw [← heq, String.toList_ofList]
  rcases h with rfl | rfl
  · exact condition.name_free.1 hname
  · exact condition.name_free.2 hname

/-- **A compound demands what it says.** -/
theorem compoundShape_render : compoundShape compound.render = compound.shape := by
  have hmarks : ∀ c ∈ compound.marks, isMarkChar c = true := fun _ hc =>
    compound.isMarkChar_marks hc
  unfold compoundShape
  rw [compound.takeAttrParts_render]
  dsimp only
  rw [compound.ofPairs_part, hasTextArgument?_of_marks hmarks, dropPseudos_of_marks hmarks,
    nameAt?_marks, firstMarked?_marks, allMarked_marks, compound.get?_shape "id" (.inl rfl)]
  simp only [Option.join_none, Option.isSome_none, Bool.false_eq_true, if_false, Option.none_or,
    ite_self, compound.get?_shape "role" (.inr rfl), Option.map_none]
  rfl

end Compound

/-- A CSS selector is read as its last compound. -/
theorem ofSelector_compound {selector : String} (htrim : trim selector.toList = selector.toList)
    (hne : selector.toList ≠ []) (hrole : afterLead? ("role:").toList selector.toList = none)
    (htext : afterLead? ("text:").toList selector.toList = none)
    (htext' : afterLead? ("text=").toList selector.toList = none) :
    Shape.ofSelector selector = compoundShape (lastCompound selector.toList) := by
  unfold Shape.ofSelector
  dsimp only
  rw [htrim, if_neg (by simpa using hne), roleShape?, hrole]
  dsimp only [Option.bind]
  rw [textShape?, htext, htext']
  rfl

/-- A chain is read as its last compound. -/
theorem Chain.ofSelector_render (chain : Chain) :
    Shape.ofSelector (String.ofList chain.render) = compoundShape chain.target.render := by
  have htext := String.toList_ofList (l := chain.render)
  rw [ofSelector_compound, htext, chain.lastCompound_render]
  · rw [htext, chain.trim_render]
  · rw [htext]
    exact chain.render_ne_nil
  · rw [htext]
    exact chain.afterLead?_render (c := ':') (by decide) (by decide) (by simp [stops])
  · rw [htext]
    exact chain.afterLead?_render (c := ':') (by decide) (by decide) (by simp [stops])
  · rw [htext]
    exact chain.afterLead?_render (c := '=') (by decide) (by decide) (by simp [stops])

/-- A compound by itself is read as what it says. -/
theorem Compound.ofSelector_render (compound : Compound) :
    Shape.ofSelector (String.ofList compound.render) = compound.shape :=
  ((Chain.last compound).ofSelector_render).trans compound.compoundShape_render

/-- **Reading a chain of compounds gives what its last compound says**: its tag, identifier, classes
and conditions, no role and no text. -/
theorem ofSelector_chain (chain : Chain) :
    Shape.ofSelector (String.ofList chain.render) = chain.target.shape := by
  rw [chain.ofSelector_render, Compound.compoundShape_render]

example : Shape.ofSelector "ul#x > li.b[title=\"[a] > .c\"][hidden]" =
    { tag := "li"
      classes := ["b"]
      attrs := [("title", some "[a] > .c"), ("hidden", none)] } := by
  decide +kernel

end Mooring.Selector
