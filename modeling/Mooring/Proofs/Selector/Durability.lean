import Mooring.Proofs.Selector.Forms
import Mooring.Proofs.Selector.Truthful
import Mooring.Selector.Specificity

/-!
# A selector's durability and the way it was written

Each form of selector has its worth (`Form.worth`).  The durability is told from the finished
selector, in which the values of the element stand beside the notation, so a value can pass for
notation.

What the values must not say is exact (`specificity_generate`).  A test attribute counts wherever it
is mentioned: in a label, in the name of a class.  Parts in brackets are left out before the mark of
an identifier is looked for, but a part ends with the first closing bracket, also with one in
quotes; what follows it in the value is read as if it were the selector's (`BreaksOut`).
-/

namespace Mooring.Selector

open Mooring.Text

/-! ## Test attributes in a text -/

/-- The text mentions an attribute that exists for tests. -/
def MentionsTest (cs : List Char) : Prop :=
  ∃ marker ∈ testIdMarkers, marker.toList <:+: cs

theorem any_marker_iff {cs : List Char} :
    (testIdMarkers.any fun marker => occursIn marker.toList cs) = true ↔ MentionsTest cs := by
  simp only [List.any_eq_true, occursIn_iff, MentionsTest]

instance (cs : List Char) : Decidable (MentionsTest cs) :=
  decidable_of_iff _ any_marker_iff

/-- The character is in no notation of a test attribute. -/
def partsMarkers (c : Char) : Bool :=
  testIdMarkers.all fun marker => !marker.toList.contains c

theorem mentionsTest_append_cons {c : Char} (hc : partsMarkers c = true) (front back : List Char) :
    MentionsTest (front ++ c :: back) ↔ MentionsTest front ∨ MentionsTest back := by
  have hfree : ∀ marker ∈ testIdMarkers, c ∉ marker.toList := by
    simpa [partsMarkers] using hc
  constructor
  · rintro ⟨marker, hmarker, hinfix⟩
    rcases (infix_append_cons_iff (hfree marker hmarker)).mp hinfix with hfront | hback
    · exact Or.inl ⟨marker, hmarker, hfront⟩
    · exact Or.inr ⟨marker, hmarker, hback⟩
  · rintro (⟨marker, hmarker, hinfix⟩ | ⟨marker, hmarker, hinfix⟩)
    · exact ⟨marker, hmarker, (infix_append_cons_iff (hfree marker hmarker)).mpr (Or.inl hinfix)⟩
    · exact ⟨marker, hmarker, (infix_append_cons_iff (hfree marker hmarker)).mpr (Or.inr hinfix)⟩

theorem mentionsTest_cons {c : Char} (hc : partsMarkers c = true) (cs : List Char) :
    MentionsTest (c :: cs) ↔ MentionsTest cs := by
  rw [← List.nil_append (c :: cs), mentionsTest_append_cons hc]
  exact or_iff_right (by decide)

theorem mentionsTest_escaped (cs : List Char) : MentionsTest (escaped cs) ↔ MentionsTest cs := by
  have hmarkers : ∀ marker ∈ testIdMarkers,
      marker.toList ≠ [] ∧ marker.toList.all (fun c => !isEscaped c) = true := by decide
  refine exists_congr fun marker => and_congr_right fun hmarker => ?_
  obtain ⟨hne, hplain⟩ := hmarkers marker hmarker
  exact infix_escaped_iff hne fun c hc => by simpa using List.all_eq_true.mp hplain c hc

/-- An attribute part mentions what its value mentions. -/
theorem mentionsTest_part {tag name value : List Char} (hname : ¬MentionsTest (name ++ ['='])) :
    MentionsTest (tag ++ part name (escaped value)) ↔ MentionsTest tag ∨ MentionsTest value := by
  have hsplit : tag ++ part name (escaped value) =
      tag ++ '[' :: ((name ++ ['=']) ++ '"' :: (escaped value ++ '"' :: [']'])) := by
    simp [part]
  have hnone : ¬MentionsTest [']'] := by decide
  rw [hsplit, mentionsTest_append_cons (by decide), mentionsTest_append_cons (c := '"') (by decide),
    mentionsTest_append_cons (c := '"') (by decide), mentionsTest_escaped, or_iff_right hname,
    or_iff_left hnone]

/-! ## Identifiers outside brackets -/

theorem withoutBrackets_append {cs : List Char} (h : '[' ∉ cs) (rest : List Char) :
    withoutBrackets (cs ++ rest) = cs ++ withoutBrackets rest := by
  induction cs with
  | nil => rfl
  | cons c cs ih =>
    have hne : c ≠ '[' := fun heq => h (heq ▸ List.mem_cons_self)
    rw [List.cons_append, withoutBrackets, if_neg (by simpa using hne),
      ih fun hmem => h (List.mem_cons_of_mem _ hmem), List.cons_append]

theorem afterFirst?_bracket {front : List Char} (h : ']' ∉ front) (back : List Char) :
    afterFirst? (· == ']') (front ++ ']' :: back) = some back :=
  afterFirst?_lead (fun c hc => beq_eq_false_iff_ne.mpr fun heq : c = ']' => h (heq ▸ hc))
    (by decide) back

theorem withoutBrackets_bracket {inner rest : List Char} (h : ']' ∉ inner) :
    withoutBrackets ('[' :: (inner ++ ']' :: rest)) = withoutBrackets rest := by
  rw [withoutBrackets, if_pos (by decide)]
  split
  next after heq =>
    rw [afterFirst?_bracket h] at heq
    rw [Option.some.inj heq]
  next heq =>
    rw [afterFirst?_bracket h] at heq
    exact absurd heq (by simp)

/-- The text shows an identifier outside its parts in brackets. -/
def ShowsIdentifier (cs : List Char) : Prop :=
  (firstMarked? '#' (withoutBrackets cs)).isSome = true

instance (cs : List Char) : Decidable (ShowsIdentifier cs) :=
  inferInstanceAs (Decidable (_ = true))

/-- Behind its first closing bracket, the value shows an identifier. -/
def BreaksOut (value : List Char) : Prop :=
  ∃ front back, value = front ++ ']' :: back ∧ ']' ∉ front ∧
    ShowsIdentifier (escaped back ++ ['"', ']'])

/-- **An attribute part shows an identifier just if its value breaks out of it.** -/
theorem showsIdentifier_part {tag name value : List Char} (htag : '[' ∉ tag ∧ '#' ∉ tag)
    (hname : ']' ∉ name) :
    ShowsIdentifier (tag ++ part name (escaped value)) ↔ BreaksOut value := by
  have hplain {front : List Char} (hfront : ']' ∉ front) :
      ']' ∉ name ++ '=' :: '"' :: escaped front := by
    intro hmem
    rcases List.mem_append.mp hmem with hmem | hmem
    · exact hname hmem
    · rw [List.mem_cons, List.mem_cons] at hmem
      rcases hmem with hmem | hmem | hmem
      · exact absurd hmem (by decide)
      · exact absurd hmem (by decide)
      · rcases mem_escaped hmem with hmem | hmem
        · exact hfront hmem
        · exact absurd hmem (by decide)
  rw [ShowsIdentifier, withoutBrackets_append htag.1, firstMarked?_append htag.2]
  by_cases hbracket : ']' ∈ value
  · obtain ⟨front, back, rfl, hfront⟩ := List.eq_append_cons_of_mem hbracket
    have hpart : part name (escaped (front ++ ']' :: back)) =
        '[' :: ((name ++ '=' :: '"' :: escaped front) ++ ']' :: (escaped back ++ ['"', ']'])) := by
      rw [escaped_append, escaped_cons, escapeChar_of_plain (by decide)]
      simp [part]
    rw [hpart, withoutBrackets_bracket (hplain hfront)]
    constructor
    · exact fun h => ⟨front, back, rfl, hfront, h⟩
    · rintro ⟨front', back', heq, hfront', h⟩
      exact (eq_of_append_cons hfront hfront' heq).2 ▸ h
  · have hpart : part name (escaped value) =
        '[' :: ((name ++ '=' :: '"' :: escaped value ++ ['"']) ++ ']' :: []) := by simp [part]
    have hinner : ']' ∉ name ++ '=' :: '"' :: escaped value ++ ['"'] := by
      intro hmem
      rcases List.mem_append.mp hmem with hmem | hmem
      · exact hplain hbracket hmem
      · exact absurd hmem (by decide)
    rw [hpart, withoutBrackets_bracket hinner, withoutBrackets]
    refine iff_of_false Bool.false_ne_true ?_
    rintro ⟨front, back, rfl, -, -⟩
    exact hbracket (List.mem_append_right front List.mem_cons_self)

/-! ## What a selector is taken for -/

section Taken

variable {selector : String}

theorem specificity_of_mentionsTest (h : MentionsTest selector.toList) :
    specificity selector = 100 :=
  if_pos (any_marker_iff.mpr h)

theorem specificity_of_not_mentionsTest (h : ¬MentionsTest selector.toList) :
    specificity selector =
      if startsWith ("role:").toList selector.toList then
        if occursIn ("[name=").toList selector.toList then 90 else 70
      else if startsWith ['#'] selector.toList ||
          (firstMarked? '#' (withoutBrackets selector.toList)).isSome then 60
      else if startsWith ("text:").toList selector.toList then textSpecificity selector.toList
      else if selector.toList.contains '[' then 50
      else if startsWith ['.'] selector.toList then 30
      else 20 :=
  if_neg (mt any_marker_iff.mp h)

/-- A selector of any other worth must not mention a test attribute. -/
theorem specificity_eq_iff {worth : Nat} {clear : Prop} (hworth : worth ≠ 100)
    (h : ¬MentionsTest selector.toList → (specificity selector = worth ↔ clear)) :
    specificity selector = worth ↔ ¬MentionsTest selector.toList ∧ clear := by
  by_cases hmentions : MentionsTest selector.toList
  · rw [specificity_of_mentionsTest hmentions]
    exact iff_of_false hworth.symm fun hclear => hclear.1 hmentions
  · rw [h hmentions]
    exact (and_iff_right hmentions).symm

theorem specificity_hash {rest : List Char} (hselector : selector.toList = '#' :: rest)
    (h : ¬MentionsTest selector.toList) : specificity selector = 60 := by
  have hhash : startsWith ['#'] ('#' :: rest) = true :=
    startsWith_iff.mpr (List.prefix_append ['#'] rest)
  rw [specificity_of_not_mentionsTest h, hselector, hhash, Bool.true_or, if_pos rfl]
  exact if_neg (by simp [startsWith, afterLead?])

theorem specificity_role {rest : List Char} (hselector : selector.toList = "role:".toList ++ rest)
    (h : ¬MentionsTest selector.toList) :
    specificity selector = if occursIn ("[name=").toList rest then 90 else 70 := by
  have hrole : startsWith "role:".toList selector.toList = true :=
    startsWith_iff.mpr (hselector ▸ List.prefix_append _ rest)
  have hname : occursIn ("[name=").toList selector.toList = occursIn ("[name=").toList rest := by
    have hsplit : selector.toList = "role".toList ++ ':' :: rest := by simp [hselector]
    rw [Bool.eq_iff_iff, occursIn_iff, occursIn_iff, hsplit, infix_append_cons_iff (by decide)]
    exact or_iff_right (by decide)
  rw [specificity_of_not_mentionsTest h, if_pos hrole, hname]

theorem textSpecificity_le (cs : List Char) : textSpecificity cs ≤ 60 := by
  unfold textSpecificity
  dsimp only
  split
  · omega
  · split
    · omega
    · split <;> omega

/-- A text in quotes is never worth what a part in brackets is. -/
theorem textSpecificity_quoted_ne {cs : List Char} (h : '"' ∈ cs) : textSpecificity cs ≠ 50 := by
  have hquoted : cs.any (fun c => c == '"' || c == '\'') = true :=
    List.any_eq_true.mpr ⟨'"', h, by decide⟩
  unfold textSpecificity
  dsimp only
  rw [hquoted]
  split
  · omega
  · rw [Bool.true_and, if_pos rfl]
    split <;> omega

/-- Tags with a part in brackets are worth 50 unless they are taken for another notation. -/
theorem specificity_part_iff {tag name value : List Char}
    (hselector : selector.toList = tag ++ part name (escaped value))
    (h : ¬MentionsTest selector.toList) :
    specificity selector = 50 ↔ ¬"role:".toList <+: tag ∧ ¬['#'] <+: tag ∧ ¬"text:".toList <+: tag ∧
      ¬ShowsIdentifier selector.toList := by
  have hstarts {lead : List Char} (hlead : '[' ∉ lead) :
      startsWith lead selector.toList = true ↔ lead <+: tag := by
    rw [startsWith_iff, hselector]
    exact prefix_append_cons_iff hlead
  have hbracket : selector.toList.contains '[' = true := by simp [hselector, part]
  have hquote : '"' ∈ selector.toList := by simp [hselector, part]
  rw [specificity_of_not_mentionsTest h, if_pos hbracket]
  by_cases hrole : "role:".toList <+: tag
  · rw [if_pos ((hstarts (by decide)).mpr hrole)]
    refine iff_of_false ?_ fun hclear => hclear.1 hrole
    split <;> omega
  rw [if_neg (mt (hstarts (by decide)).mp hrole)]
  by_cases hhash : ['#'] <+: tag
  · rw [(hstarts (by decide)).mpr hhash, Bool.true_or, if_pos rfl]
    exact iff_of_false (by omega) fun hclear => hclear.2.1 hhash
  rw [Bool.eq_false_iff.mpr (mt (hstarts (by decide)).mp hhash), Bool.false_or]
  by_cases hidentifier : (firstMarked? '#' (withoutBrackets selector.toList)).isSome = true
  · rw [if_pos hidentifier]
    exact iff_of_false (by omega) fun hclear => hclear.2.2.2 hidentifier
  rw [if_neg hidentifier]
  by_cases htext : "text:".toList <+: tag
  · rw [if_pos ((hstarts (by decide)).mpr htext)]
    exact iff_of_false (textSpecificity_quoted_ne hquote) fun hclear => hclear.2.2.1 htext
  rw [if_neg (mt (hstarts (by decide)).mp htext)]
  exact iff_of_true rfl ⟨hrole, hhash, htext, hidentifier⟩

theorem specificity_class {name : List Char} (hselector : selector.toList = '.' :: name)
    (hname : '[' ∉ name ∧ '#' ∉ name) (h : ¬MentionsTest selector.toList) :
    specificity selector = 30 := by
  have hbare : withoutBrackets ('.' :: name) = '.' :: name := by
    have hnone : '[' ∉ '.' :: name := by simp [hname.1]
    have happend := withoutBrackets_append hnone []
    rwa [withoutBrackets, List.append_nil] at happend
  have hmark : firstMarked? '#' ('.' :: name) = none :=
    firstMarked?_of_not_mem (by simp [hname.2])
  have hbracket : ('.' :: name).contains '[' = false := by simp [hname.1]
  have hother : startsWith "role:".toList ('.' :: name) = false ∧
      startsWith ['#'] ('.' :: name) = false ∧ startsWith "text:".toList ('.' :: name) = false := by
    simp [startsWith, afterLead?]
  have hclass : startsWith ['.'] ('.' :: name) = true :=
    startsWith_iff.mpr (List.prefix_append ['.'] name)
  rw [specificity_of_not_mentionsTest h, hselector, hbare, hmark, hbracket, hclass]
  rw [hother.1, hother.2.1, hother.2.2]
  rfl

end Taken

/-! ## One lemma for each form -/

namespace Form

/-- What the form is worth, whatever goes into it.  Texts are worth what their length makes of
them. -/
def worth : Form → Nat
  | .testId _ _ _ => 100
  | .identifier _ _ => 60
  | .namedRole _ _ => 90
  | .role _ => 70
  | .label _ => 50
  | .text shown => textSpecificity (Form.text shown).selector.toList
  | .className _ _ => 30
  | .tagged _ _ _ _ => 50

/-- Nothing that goes into the form passes for notation. -/
def Clear : Form → Prop
  | .testId _ _ _ => True
  | .identifier id _ => ¬MentionsTest id.toList
  | .namedRole kind shown => ¬MentionsTest kind.toList ∧ ¬MentionsTest shown.toList
  | .role kind => ¬MentionsTest kind.toList ∧ ¬"[name=".toList <:+: kind.toList
  | .label shown => ¬MentionsTest shown.toList ∧ ¬BreaksOut shown.toList
  | .text shown =>
    ¬MentionsTest shown.toList ∧
      (ShowsIdentifier (Form.text shown).selector.toList → (Form.text shown).worth = 60)
  | .className name _ => ¬MentionsTest name.toList
  | .tagged element name value known =>
    (¬MentionsTest element.toList ∧ ¬MentionsTest value.toList) ∧ ¬"role:".toList <+: element.toList ∧
      ¬['#'] <+: element.toList ∧ ¬"text:".toList <+: element.toList ∧
      ¬ShowsIdentifier (Form.tagged element name value known).selector.toList

theorem specificity_testId {name value : String} (known : name ∈ testIdAttributes) :
    specificity (attributeSelector name value) = 100 := by
  have hnames : ∀ name ∈ testIdAttributes, MentionsTest (name.toList ++ ['=']) := by decide
  obtain ⟨marker, hmarker, hinfix⟩ := hnames name known
  refine specificity_of_mentionsTest ⟨marker, hmarker, hinfix.trans ?_⟩
  refine ⟨['['], '"' :: (escaped value.toList ++ ['"', ']']), ?_⟩
  rw [toList_attributeSelector]
  simp [part]

theorem specificity_identifier_iff (id : String) :
    specificity ("#" ++ id) = 60 ↔ ¬MentionsTest id.toList := by
  have hselector : ("#" ++ id).toList = '#' :: id.toList := by simp
  rw [specificity_eq_iff (by omega) fun h => iff_true_intro (specificity_hash hselector h),
    and_true, hselector, mentionsTest_cons (by decide)]

/-- What follows the notation of a role mentions all that is mentioned. -/
theorem mentionsTest_role (rest : List Char) :
    MentionsTest ("role:".toList ++ rest) ↔ MentionsTest rest := by
  have hsplit : "role:".toList ++ rest = "role".toList ++ ':' :: rest := by simp
  rw [hsplit, mentionsTest_append_cons (by decide)]
  exact or_iff_right (by decide)

theorem specificity_role_iff (kind : String) :
    specificity ("role:" ++ kind) = 70 ↔
      ¬MentionsTest kind.toList ∧ ¬"[name=".toList <:+: kind.toList := by
  have hselector : ("role:" ++ kind).toList = "role:".toList ++ kind.toList := String.toList_append
  rw [specificity_eq_iff (show 70 ≠ 100 by omega) fun h => ?_, hselector, mentionsTest_role]
  rw [specificity_role hselector h, ← occursIn_iff]
  split <;> simp_all

theorem specificity_namedRole_iff (kind shown : String) :
    specificity ("role:" ++ kind ++ "[name=\"" ++ escape shown ++ "\"]") = 90 ↔
      ¬MentionsTest kind.toList ∧ ¬MentionsTest shown.toList := by
  have hselector : ("role:" ++ kind ++ "[name=\"" ++ escape shown ++ "\"]").toList =
      "role:".toList ++ (kind.toList ++ part "name".toList (escaped shown.toList)) := by
    simp [part, toList_escape]
  have hname : occursIn ("[name=").toList
      (kind.toList ++ part "name".toList (escaped shown.toList)) = true := by
    refine occursIn_iff.mpr ⟨kind.toList, '"' :: (escaped shown.toList ++ ['"', ']']), ?_⟩
    simp [part]
  rw [specificity_eq_iff (by omega) fun h => iff_true_intro ?_, and_true, hselector,
    mentionsTest_role, mentionsTest_part (by decide), not_or]
  rw [specificity_role hselector h, hname, if_pos rfl]

theorem specificity_label_iff (shown : String) :
    specificity (attributeSelector "aria-label" shown) = 50 ↔
      ¬MentionsTest shown.toList ∧ ¬BreaksOut shown.toList := by
  have hselector : (attributeSelector "aria-label" shown).toList =
      [] ++ part "aria-label".toList (escaped shown.toList) := toList_attributeSelector _ _
  have hbreaks : ShowsIdentifier (attributeSelector "aria-label" shown).toList ↔
      BreaksOut shown.toList := by
    rw [hselector]
    exact showsIdentifier_part (by decide) (by decide)
  rw [specificity_eq_iff (by omega) (specificity_part_iff hselector), hselector,
    mentionsTest_part (by decide), ← hselector, hbreaks,
    or_iff_right (show ¬MentionsTest [] by decide)]
  exact and_congr_right fun _ =>
    ⟨fun h => h.2.2.2, fun h => ⟨by decide, by decide, by decide, h⟩⟩

theorem specificity_text_iff (shown : String) :
    specificity (Form.text shown).selector = (Form.text shown).worth ↔ (Form.text shown).Clear := by
  have hselector : (Form.text shown).selector.toList =
      "text".toList ++ ':' :: ([] ++ '"' :: (escaped shown.toList ++ '"' :: [])) := by
    simp [selector, toList_escape]
  have hnone : ¬MentionsTest "text".toList ∧ ¬MentionsTest [] := by decide
  have hmentions : MentionsTest (Form.text shown).selector.toList ↔ MentionsTest shown.toList := by
    rw [hselector, mentionsTest_append_cons (by decide), mentionsTest_append_cons (by decide),
      mentionsTest_append_cons (by decide), mentionsTest_escaped, or_iff_right hnone.1,
      or_iff_right hnone.2, or_iff_left hnone.2]
  have hsame : (Form.text shown).worth = textSpecificity (Form.text shown).selector.toList := by
    rw [worth]
  have hworth : (Form.text shown).worth ≠ 100 := by
    have hle := textSpecificity_le (Form.text shown).selector.toList
    omega
  rw [specificity_eq_iff hworth fun h => ?_, hmentions]
  · rfl
  have hother : startsWith "role:".toList (Form.text shown).selector.toList = false ∧
      startsWith ['#'] (Form.text shown).selector.toList = false ∧
      startsWith "text:".toList (Form.text shown).selector.toList = true := by
    simp [selector, startsWith, afterLead?]
  rw [specificity_of_not_mentionsTest h, hother.1, if_neg Bool.false_ne_true, hother.2.1,
    hother.2.2, if_pos rfl, Bool.false_or]
  by_cases hidentifier :
      (firstMarked? '#' (withoutBrackets (Form.text shown).selector.toList)).isSome = true
  · rw [if_pos hidentifier]
    exact ⟨fun h _ => h.symm, fun h => (h hidentifier).symm⟩
  · rw [if_neg hidentifier, hsame]
    exact iff_of_true rfl fun h => absurd h hidentifier

theorem specificity_className_iff {name : String} (valid : isIdentifier name = true) :
    specificity ("." ++ name) = 30 ↔ ¬MentionsTest name.toList := by
  have hselector : ("." ++ name).toList = '.' :: name.toList := by simp
  have hother {c : Char} (hc : isNameChar c = false) (hfeed : c ≠ '\n') : c ∉ name.toList := by
    intro hmem
    rcases chars_of_isIdentifier valid c hmem with hname | rfl
    · rw [hname] at hc
      exact absurd hc (by decide)
    · exact hfeed rfl
  rw [specificity_eq_iff (by omega) fun h => iff_true_intro (specificity_class hselector
    ⟨hother (by decide) (by decide), hother (by decide) (by decide)⟩ h), and_true, hselector,
    mentionsTest_cons (by decide)]

theorem specificity_tagged_iff {element name value : String} (known : name = "name" ∨ name = "type") :
    specificity (Form.tagged element name value known).selector = 50 ↔
      (Form.tagged element name value known).Clear := by
  have hselector : (Form.tagged element name value known).selector.toList =
      element.toList ++ part name.toList (escaped value.toList) := by
    rw [selector, String.toList_append, toList_attributeSelector]
  have hname : ¬MentionsTest (name.toList ++ ['=']) := by
    rcases known with rfl | rfl <;> decide
  rw [specificity_eq_iff (by omega) (specificity_part_iff hselector), Clear]
  refine and_congr_left fun _ => ?_
  rw [hselector, mentionsTest_part hname, not_or]

/-- In a tag's selector, the tag is out of the question if it is made of the characters of names. -/
theorem clear_tagged_iff {element name value : String} (known : name = "name" ∨ name = "type")
    (h : ∀ c ∈ element.toList, isNameChar c = true) :
    (Form.tagged element name value known).Clear ↔
      (¬MentionsTest element.toList ∧ ¬MentionsTest value.toList) ∧ ¬BreaksOut value.toList := by
  have hfree {c : Char} (hc : isNameChar c = false) : c ∉ element.toList := fun hmem =>
    ne_of_isNameChar (h c hmem) hc rfl
  have hlead {lead : List Char} {c : Char} (hmem : c ∈ lead) (hc : isNameChar c = false) :
      ¬lead <+: element.toList := fun hprefix => hfree hc (List.IsPrefix.subset hprefix hmem)
  have hname : ']' ∉ name.toList := by
    rcases known with rfl | rfl <;> decide
  have hshows : ShowsIdentifier (Form.tagged element name value known).selector.toList ↔
      BreaksOut value.toList := by
    rw [selector, String.toList_append, toList_attributeSelector]
    exact showsIdentifier_part ⟨hfree (by decide), hfree (by decide)⟩ hname
  rw [Clear, hshows]
  exact and_congr_right fun _ => ⟨fun h => h.2.2.2, fun h =>
    ⟨hlead (c := ':') (by decide) (by decide), hlead (c := '#') (by decide) (by decide),
      hlead (c := ':') (by decide) (by decide), h⟩⟩

theorem specificity_iff (form : Form) : specificity form.selector = form.worth ↔ form.Clear := by
  cases form with
  | testId name value known => exact iff_of_true (specificity_testId known) trivial
  | identifier id valid => exact specificity_identifier_iff id
  | namedRole kind shown => exact specificity_namedRole_iff kind shown
  | role kind => exact specificity_role_iff kind
  | label shown => exact specificity_label_iff shown
  | text shown => exact specificity_text_iff shown
  | className name valid => exact specificity_className_iff valid
  | tagged element name value known => exact specificity_tagged_iff known

end Form

/-- **Every selector is worth what its strategy is worth, unless a value passes for notation.**  The
selectors of an element are those of the forms that suit it.  A selector has the worth of its form
just if nothing that goes into it passes for notation; a test attribute's selector always has it. -/
theorem specificity_generate (attrs : Table String) (tag : String) (text : Option String)
    (prefer : List String) :
    (∀ selector, selector ∈ generate attrs tag text prefer ↔
      ∃ form : Form, form.Suits attrs tag text ∧ form.selector = selector) ∧
    ∀ form : Form, specificity form.selector = form.worth ↔ form.Clear :=
  ⟨fun _ => mem_generate_iff_form, Form.specificity_iff⟩

/-- A label with a closing bracket in it passes for an identifier, and a class for a test
attribute. -/
theorem specificity_generate_misled :
    "[aria-label=\"a] #b\"]" ∈ generate [("aria-label", "a] #b")] "p" none ∧
      specificity "[aria-label=\"a] #b\"]" = 60 ∧ (Form.label "a] #b").worth = 50 ∧
      ".data-qa" ∈ generate [("class", "data-qa")] "p" none ∧
      specificity ".data-qa" = 100 ∧ (Form.className "data-qa" rfl).worth = 30 := by
  refine ⟨mem_generate_iff_form.mpr ⟨.label "a] #b", ⟨rfl, rfl⟩, rfl⟩, by decide +kernel, rfl,
    mem_generate_iff_form.mpr ⟨.className "data-qa" rfl, rfl, rfl⟩,
    specificity_of_mentionsTest (by decide), rfl⟩

end Mooring.Selector
