import Mathlib.Data.Bool.AllAny
import Mooring.Proofs.Selector.Preference
import Mooring.Proofs.Selector.Quoting

/-!
# A tag with a text

`p:has-text("…")` is meant to demand a tag and a text.  The scan for the last compound knows quotes,
so the text may look like a chain of selectors.  The readers of the compound do not: attribute parts
are taken out before the text is read, and a pseudo-class ends with the parenthesis that balances its
own, where one level of others is allowed for.

So it is exact when the text is read as it was written (`ofSelector_hasText`): no bracket in it may
open an attribute part, and what dropping the pseudo-class leaves must be silent.  A text with
neither brackets nor deep or lone parentheses passes, whatever else is in it (`Shallow`).
-/

namespace Mooring.Selector

open Mooring.Text

/-- The selector for a tag with a text. -/
def hasTextSelector (tag text : String) : String :=
  tag ++ ":has-text(\"" ++ text ++ "\")"

/-- What follows the tag. -/
def pseudo (text : List Char) : List Char :=
  ':' :: ("has-text".toList ++ '(' :: '"' :: (text ++ ['"', ')']))

theorem toList_hasTextSelector (tag text : String) :
    (hasTextSelector tag text).toList = tag.toList ++ pseudo text.toList := by
  simp [hasTextSelector, pseudo]

/-! ## Attribute parts -/

/-- Nothing is an attribute part just if no bracket opens one. -/
theorem takeAttrParts_eq_nil_iff : ∀ {fuel : Nat} {cs : List Char}, cs.length ≤ fuel →
    ((takeAttrParts fuel cs).1 = [] ↔
      ∀ front back, cs = front ++ '[' :: back → attrPart? back = none)
  | 0, [], _ => iff_of_true rfl fun front back h => absurd h (by simp)
  | _ + 1, [], _ => iff_of_true rfl fun front back h => absurd h (by simp)
  | fuel + 1, c :: rest, hfuel => by
    have hrest : rest.length ≤ fuel := by simpa using hfuel
    have ih := takeAttrParts_eq_nil_iff hrest
    have hlater : (∀ front back, c :: rest = front ++ '[' :: back → attrPart? back = none) ↔
        (c = '[' → attrPart? rest = none) ∧
          ∀ front back, rest = front ++ '[' :: back → attrPart? back = none := by
      constructor
      · intro h
        refine ⟨fun hc => h [] rest (by rw [hc]; rfl), fun front back heq => ?_⟩
        exact h (c :: front) back (by rw [heq]; rfl)
      · rintro ⟨hhere, hrest⟩ front back heq
        cases front with
        | nil =>
          obtain ⟨hc, rfl⟩ := List.cons.inj heq
          exact hhere hc
        | cons d front => exact hrest front back (List.cons.inj heq).2
    rw [hlater, ← ih, takeAttrParts]
    split
    next part after hpart =>
      refine iff_of_false (List.cons_ne_nil _ _) fun h => ?_
      by_cases hc : c = '['
      · rw [if_pos (beq_iff_eq.mpr hc), h.1 hc] at hpart
        exact absurd hpart (by simp)
      · rw [if_neg (by simpa using hc)] at hpart
        exact absurd hpart (by simp)
    next hpart =>
      refine (and_iff_right fun hc => ?_).symm
      rwa [if_pos (beq_iff_eq.mpr hc)] at hpart

/-- Where nothing is an attribute part, nothing is taken. -/
theorem takeAttrParts_of_nil : ∀ {fuel : Nat} {cs : List Char},
    (takeAttrParts fuel cs).1 = [] → (takeAttrParts fuel cs).2 = cs
  | 0, _, _ => rfl
  | _ + 1, [], _ => rfl
  | fuel + 1, c :: rest, h => by
    rw [takeAttrParts] at h ⊢
    split at h
    next => exact absurd h (List.cons_ne_nil _ _)
    next => exact congrArg (List.cons c) (takeAttrParts_of_nil h)

/-- No bracket of the text opens an attribute part of the selector. -/
def OpensNoPart (text : List Char) : Prop :=
  ∀ front back, text = front ++ '[' :: back → attrPart? (back ++ ['"', ')']) = none

theorem opensNoPart_of_not_mem {text : List Char} (h : '[' ∉ text) : OpensNoPart text := by
  rintro front back rfl
  exact absurd (List.mem_append_right front List.mem_cons_self) h

theorem opensNoPart_iff {tag : List Char} (text : List Char) (htag : '[' ∉ tag) :
    (∀ front back, tag ++ pseudo text = front ++ '[' :: back → attrPart? back = none) ↔
      OpensNoPart text := by
  have hsplit : tag ++ pseudo text =
      (tag ++ ':' :: ("has-text".toList ++ ['(', '"'])) ++ (text ++ ['"', ')']) := by
    simp [pseudo]
  have hlead : '[' ∉ tag ++ ':' :: ("has-text".toList ++ ['(', '"']) := by
    intro hmem
    rcases List.mem_append.mp hmem with hmem | hmem
    · exact htag hmem
    · exact absurd hmem (by decide)
  rw [hsplit]
  constructor
  · rintro h front back rfl
    exact h (tag ++ ':' :: ("has-text".toList ++ ['(', '"']) ++ front) (back ++ ['"', ')']) (by simp)
  · intro h front back heq
    obtain ⟨middle, -, htext⟩ := exists_of_lead_append hlead heq
    obtain ⟨more, rfl, rfl⟩ := exists_of_append_tail (by decide) htext
    exact h middle more rfl

/-! ## The text -/

/-- Up to the quote that the parenthesis follows, a text without quotes is read as it is. -/
theorem untilQuoteAndParen?_text {text : List Char} (hquotes : Unquoted text) (hfeed : '\n' ∉ text) :
    untilQuoteAndParen? (text ++ ['"', ')']) = some text := by
  induction text with
  | nil => rfl
  | cons c text ih =>
    obtain ⟨⟨hdouble, hsingle⟩, htext⟩ := List.forall_mem_cons.mp hquotes
    have hc : c ≠ '\n' := fun heq => hfeed (heq ▸ List.mem_cons_self)
    rw [List.cons_append, untilQuoteAndParen?, if_neg (by simp [hdouble, hsingle]),
      if_neg (by simpa using hc), ih htext fun hmem => hfeed (List.mem_cons_of_mem _ hmem)]
    rfl

/-- The text behind a tag is found as it was written. -/
theorem hasTextArgument?_pseudo {tag text : List Char} (htag : ':' ∉ tag) (hquotes : Unquoted text)
    (hfeed : '\n' ∉ text) : hasTextArgument? (tag ++ pseudo text) = some text := by
  induction tag with
  | nil =>
    have hlead : afterLead? ":has-text(".toList (pseudo text) =
        some ('"' :: (text ++ ['"', ')'])) := by
      have hsplit : pseudo text = ":has-text(".toList ++ '"' :: (text ++ ['"', ')']) := by
        simp [pseudo]
      rw [hsplit, afterLead?_append]
    rw [List.nil_append]
    unfold pseudo at hlead ⊢
    rw [hasTextArgument?, hlead]
    dsimp only
    rw [if_pos (by decide), untilQuoteAndParen?_text hquotes hfeed]
    rfl
  | cons c tag ih =>
    have hc : (':' == c) = false :=
      beq_eq_false_iff_ne.mpr fun heq => htag (heq ▸ List.mem_cons_self)
    have hnone : afterLead? ":has-text(".toList (c :: (tag ++ pseudo text)) = none := by
      simp [afterLead?, hc]
    rw [List.cons_append, hasTextArgument?, hnone]
    exact ih fun hmem => htag (List.mem_cons_of_mem _ hmem)

/-! ## What dropping the pseudo-class leaves -/

/-- What is left of the pseudo-class when pseudo-classes are dropped. -/
def leftover (text : List Char) : List Char :=
  dropPseudos (pseudo text).length (pseudo text)

theorem dropPseudos_append {cs : List Char} (h : ':' ∉ cs) (fuel : Nat) (rest : List Char) :
    dropPseudos (cs.length + fuel) (cs ++ rest) = cs ++ dropPseudos fuel rest := by
  induction cs with
  | nil => rw [List.length_nil, Nat.zero_add]; rfl
  | cons c cs ih =>
    have hnone : afterPseudo? (c :: (cs ++ rest)) = none := by
      unfold afterPseudo?
      split
      next heq => exact absurd ((List.cons.inj heq).1 ▸ List.mem_cons_self) h
      next heq => exact absurd ((List.cons.inj heq).1 ▸ List.mem_cons_self) h
      next => rfl
    rw [List.length_cons, Nat.add_right_comm, List.cons_append, dropPseudos, hnone]
    exact congrArg (List.cons c) (ih fun hmem => h (List.mem_cons_of_mem _ hmem))

/-- Each parenthesis of the text belongs to a pair, and no pair is in another one. -/
inductive Shallow : List Char → Prop
  | nil : Shallow []
  | other {c : Char} {cs : List Char} (hc : c ≠ '(' ∧ c ≠ ')') (h : Shallow cs) : Shallow (c :: cs)
  | pair {inner cs : List Char} (hinner : ∀ c ∈ inner, c ≠ '(' ∧ c ≠ ')') (h : Shallow cs) :
    Shallow ('(' :: (inner ++ ')' :: cs))

/-- Whatever is no parenthesis may stand before a shallow text. -/
theorem Shallow.append {front cs : List Char} (hfront : ∀ c ∈ front, c ≠ '(' ∧ c ≠ ')')
    (h : Shallow cs) : Shallow (front ++ cs) := by
  induction front with
  | nil => exact h
  | cons c front ih =>
    obtain ⟨hc, hmore⟩ := List.forall_mem_cons.mp hfront
    exact .other hc (ih hmore)

theorem afterArguments?_other {inner : List Char} (h : ∀ c ∈ inner, c ≠ '(' ∧ c ≠ ')')
    (nested : Bool) (rest : List Char) :
    afterArguments? nested (inner ++ rest) = afterArguments? nested rest := by
  induction inner with
  | nil => rfl
  | cons c inner ih =>
    obtain ⟨⟨hopen, hclose⟩, hinner⟩ := List.forall_mem_cons.mp h
    rw [List.cons_append, afterArguments?, if_neg (by simpa using hopen),
      if_neg (by simpa using hclose), ih hinner]

/-- **A shallow text keeps the arguments open.** -/
theorem Shallow.afterArguments? {cs : List Char} (h : Shallow cs) (rest : List Char) :
    afterArguments? false (cs ++ rest) = Selector.afterArguments? false rest := by
  induction h with
  | nil => rfl
  | @other c cs hc _ ih =>
    have hsingle : ∀ d ∈ [c], d ≠ '(' ∧ d ≠ ')' := List.forall_mem_singleton.mpr hc
    exact (afterArguments?_other hsingle false (cs ++ rest)).trans ih
  | @pair inner cs hinner _ ih =>
    have hsplit : '(' :: (inner ++ ')' :: cs) ++ rest = '(' :: (inner ++ ')' :: (cs ++ rest)) := by
      simp
    rw [hsplit, Selector.afterArguments?, if_pos (by decide), if_neg Bool.false_ne_true,
      afterArguments?_other hinner, Selector.afterArguments?, if_neg (by decide),
      if_pos (by decide), if_pos rfl, ih]

/-- Of a shallow text, nothing is left. -/
theorem Shallow.leftover {text : List Char} (h : Shallow text) : leftover text = [] := by
  have hname : ∀ c ∈ "has-text".toList, isNameChar c = true :=
    List.all_eq_true.mp (by decide)
  have harguments : Selector.afterArguments? false ('"' :: (text ++ ['"', ')'])) = some [] := by
    have hquote : ∀ c ∈ ['"'], c ≠ '(' ∧ c ≠ ')' := List.forall_mem_singleton.mpr (by decide)
    rw [← List.singleton_append, afterArguments?_other hquote, h.afterArguments?]
    rfl
  have hpseudo : afterPseudo? (pseudo text) = some [] := by
    have htake : ("has-text".toList ++ '(' :: '"' :: (text ++ ['"', ')'])).takeWhile isNameChar =
        "has-text".toList := takeWhile_stop hname (by decide) _
    have hdrop : ("has-text".toList ++ '(' :: '"' :: (text ++ ['"', ')'])).dropWhile isNameChar =
        '(' :: '"' :: (text ++ ['"', ')']) := dropWhile_stop hname (by decide) _
    unfold afterPseudo? pseudo
    split
    next heq => exact absurd heq (by simp)
    next rest _ heq =>
      rw [← (List.cons.inj heq).2]
      dsimp only [Option.bind]
      rw [htake, hdrop, if_neg (by decide)]
      show some ((Selector.afterArguments? false ('"' :: (text ++ ['"', ')']))).getD _) = some []
      rw [harguments]
      rfl
    next heq => exact absurd rfl (heq _)
  show dropPseudos (_ + 1) (pseudo text) = []
  unfold pseudo at hpseudo ⊢
  rw [dropPseudos, hpseudo]
  generalize List.length _ = fuel
  cases fuel <;> rfl

/-- Behind a tag, the text neither goes on with its name nor shows an identifier or a class. -/
structure Silent (left : List Char) : Prop where
  head : ∀ c, left.head? = some c → isNameChar c = false
  marks : ∀ mark ∈ ['#', '.'], firstMarked? mark left = none

theorem silent_nil : Silent [] :=
  ⟨fun _ h => absurd h (by simp), fun _ _ => rfl⟩

/-- No names are marked just if none is the first. -/
theorem allMarked_eq_nil_iff {mark : Char} : ∀ {fuel : Nat} {cs : List Char}, cs.length ≤ fuel →
    (allMarked mark fuel cs = [] ↔ firstMarked? mark cs = none)
  | 0, [], _ => iff_of_true rfl rfl
  | _ + 1, [], _ => iff_of_true rfl rfl
  | fuel + 1, c :: rest, hfuel => by
    rw [allMarked, firstMarked?]
    by_cases hc : c = mark
    · rw [if_pos (beq_iff_eq.mpr hc), if_pos (beq_iff_eq.mpr hc)]
      cases hname : nameAt? isIdentStart rest with
      | none => exact allMarked_eq_nil_iff (by simpa using hfuel)
      | some found => exact iff_of_false (List.cons_ne_nil _ _) (by simp)
    · rw [if_neg (by simpa using hc), if_neg (by simpa using hc)]
      exact allMarked_eq_nil_iff (by simpa using hfuel)

/-- A name goes on as long as what follows does. -/
theorem WholeName.nameAt?_append {isFirst : Char → Bool} {name : List Char}
    (h : WholeName isFirst name) (rest : List Char) :
    Selector.nameAt? isFirst (name ++ rest) =
      some (name ++ rest.takeWhile isNameChar, rest.dropWhile isNameChar) := by
  obtain ⟨c, more, rfl, hc⟩ := h.first
  obtain ⟨-, hmore⟩ := List.forall_mem_cons.mp h.chars
  rw [List.cons_append, Selector.nameAt?, if_pos hc, List.takeWhile_append_of_pos hmore,
    List.dropWhile_append_of_pos hmore, List.cons_append]

/-- A tag is read as it is, just if what follows does not go on with its name. -/
theorem tag_eq_iff {tag left : List Char} (htag : WholeName isAsciiLetter tag)
    (hlow : lower tag = tag) :
    ((nameAt? isAsciiLetter (tag ++ left)).map fun (name, _) => String.ofList (lower name)) =
        some (String.ofList tag) ↔ ∀ c, left.head? = some c → isNameChar c = false := by
  rw [htag.nameAt?_append]
  show some (String.ofList (lower (tag ++ left.takeWhile isNameChar))) = _ ↔ _
  rw [Option.some_inj, String.ofList_inj]
  constructor
  · intro h c hc
    have hlength := length_le_lowerFrom false (tag ++ left.takeWhile isNameChar)
    have hsame : lowerFrom false (tag ++ left.takeWhile isNameChar) = tag := h
    rw [hsame, List.length_append] at hlength
    cases left with
    | nil => exact absurd hc (by simp)
    | cons d left =>
      obtain rfl := Option.some.inj hc
      by_contra hname
      rw [List.takeWhile_cons_of_pos (by simpa using hname), List.length_cons] at hlength
      omega
  · intro h
    have hrun : left.takeWhile isNameChar = [] := by
      cases left with
      | nil => rfl
      | cons c left => exact List.takeWhile_cons_of_neg (by simp [h c rfl])
    rw [hrun, List.append_nil, hlow]

/-! ## The shape -/

/-- Without attribute parts, a compound demands no attribute and no role. -/
theorem compoundShape_of_noParts {cs : List Char} (h : (takeAttrParts cs.length cs).1 = []) :
    compoundShape cs =
      { tag := (nameAt? isAsciiLetter (dropPseudos cs.length cs)).map fun (name, _) =>
          String.ofList (lower name)
        elementId := (firstMarked? '#' (dropPseudos cs.length cs)).map String.ofList
        classes := (allMarked '.' (dropPseudos cs.length cs).length
          (dropPseudos cs.length cs)).map String.ofList
        text := (hasTextArgument? cs).map String.ofList } := by
  have hparts : takeAttrParts cs.length cs = ([], cs) :=
    Prod.ext h (takeAttrParts_of_nil h)
  unfold compoundShape
  rw [hparts]
  dsimp only [List.map_nil]
  generalize (firstMarked? '#' (dropPseudos cs.length cs)).map String.ofList = marked
  by_cases hmarked : hasText marked = true
  · rw [if_pos hmarked]
    rfl
  · rw [if_neg hmarked]
    rfl

/-- With attribute parts, a compound demands an attribute, an identifier or a role. -/
theorem noParts_of_compoundShape {cs : List Char} {tag text : Option String}
    {classes : List String} (h : compoundShape cs = { tag, classes, text }) :
    (takeAttrParts cs.length cs).1 = [] := by
  have hid := congrArg Shape.elementId h
  have hattrs := congrArg Shape.attrs h
  have hrole := congrArg Shape.role h
  unfold compoundShape at hid hattrs hrole
  dsimp only at hid hattrs hrole
  generalize htable : Table.ofPairs _ = attrs at hid hattrs hrole
  have hnamed : (attrs.get? "id").join = none := by
    cases hfound : (attrs.get? "id").join with
    | none => rfl
    | some value =>
      rw [hfound] at hid
      split at hid
      next hmarked =>
        rw [hid] at hmarked
        exact absurd hmarked (by decide)
      next => exact absurd hid (by simp)
  rw [hnamed, Option.isSome_none, if_neg Bool.false_ne_true] at hrole hattrs
  rw [hrole, Option.isSome_none, if_neg Bool.false_ne_true] at hattrs
  cases hparts : (takeAttrParts cs.length cs).1 with
  | nil => rfl
  | cons part parts =>
    -- The name of the first part would be in the table.
    have hname : part.name ∈ Table.names attrs := by
      rw [← htable, Table.mem_names_ofPairs, hparts]
      exact List.mem_cons_self
    rw [hattrs] at hname
    exact absurd hname List.not_mem_nil

section Read

variable {tag text : String}

theorem not_mem_tag {c : Char} (htag : WholeName isAsciiLetter tag.toList)
    (hc : isNameChar c = false) : c ∉ tag.toList :=
  fun hmem => ne_of_isNameChar (htag.chars c hmem) hc rfl

/-- Nothing in the text divides the selector. -/
theorem lastCompound_hasText (htag : WholeName isAsciiLetter tag.toList)
    (hquotes : Unquoted text.toList) :
    trim (hasTextSelector tag text).toList = (hasTextSelector tag text).toList ∧
      lastCompound (hasTextSelector tag text).toList = (hasTextSelector tag text).toList := by
  rw [toList_hasTextSelector]
  have htrim : trim (tag.toList ++ pseudo text.toList) = tag.toList ++ pseudo text.toList := by
    obtain ⟨first, more, hcons, -⟩ := htag.first
    refine trim_of_edges (fun c hc => ?_) fun c hc => ?_
    · rw [hcons] at hc
      obtain rfl : first = c := Option.some.inj hc
      exact isBlank_of_isNameChar (htag.chars first (hcons ▸ List.mem_cons_self))
    · have hend : tag.toList ++ pseudo text.toList =
          (tag.toList ++ ':' :: ("has-text".toList ++ '(' :: '"' :: (text.toList ++ ['"']))) ++
            [')'] := by
        simp [pseudo]
      rw [hend, List.getLast?_concat] at hc
      rw [← Option.some.inj hc]
      decide
  have hname : ∀ c ∈ "has-text".toList, isMarkChar c = true := List.all_eq_true.mp (by decide)
  have hquote : '"' ∉ text.toList := fun hmem => (hquotes _ hmem).1 rfl
  have hvalue : Passes { depth := 1 } ('"' :: (text.toList ++ ['"', ')'])) {} :=
    Passes.cons rfl ((passes_quoted hquote 1).append (Passes.cons rfl (Passes.cons rfl (Passes.nil _))))
  have hpasses : Passes {} (tag.toList ++ pseudo text.toList) {} :=
    (passes_of_marks (fun c hc => isMarkChar_of_isNameChar (htag.chars c hc)) 0).append
      (Passes.cons rfl ((passes_of_marks hname 0).append (Passes.cons rfl hvalue)))
  have hscan := hpasses [] []
  rw [List.append_nil, List.append_nil, lastFrom, List.reverse_reverse] at hscan
  exact ⟨htrim, by rw [lastCompound, hscan, htrim]⟩

/-- A text selector demands no tag. -/
theorem tag_ofSelector_text {selector : String} {body : List Char}
    (htrim : trim selector.toList = selector.toList)
    (hselector : selector.toList = "text:".toList ++ body) (hfeed : '\n' ∉ body) :
    (Shape.ofSelector selector).tag = none := by
  have hrole : roleShape? ("text:".toList ++ body) = none := by
    have hlead : afterLead? "role:".toList ("text:".toList ++ body) = none := by
      simp [afterLead?]
    rw [roleShape?, hlead]
    rfl
  have hlines : (body.dropWhile isBlank).contains '\n' = false := by
    by_contra hmem
    exact hfeed ((List.dropWhile_suffix _).subset (by simpa using hmem))
  unfold Shape.ofSelector
  dsimp only
  rw [htrim, hselector, if_neg (by simp), hrole, textShape?, afterLead?_append]
  dsimp only [Option.or, Option.bind]
  rw [hlines]
  rfl

/-- Two names of tags stand for other notations. -/
theorem tag_ofSelector_notation (hname : tag = "role" ∨ tag = "text")
    (hquotes : Unquoted text.toList) (hfeed : '\n' ∉ text.toList) :
    (Shape.ofSelector (hasTextSelector tag text)).tag = none := by
  have hkind : ∀ c ∈ "has-text".toList, isNameChar c = true := List.all_eq_true.mp (by decide)
  have hend : '(' :: '"' :: (text.toList ++ ['"', ')']) =
      ('(' :: '"' :: (text.toList ++ ['"'])) ++ [')'] := by
    simp
  rcases hname with rfl | rfl
  · have hsplit : (hasTextSelector "role" text).toList =
        "role:".toList ++ ("has-text".toList ++ '(' :: '"' :: (text.toList ++ ['"', ')'])) := by
      simp [hasTextSelector]
    rw [ofSelector_role (by decide) hkind (fun c hc => ?_) (fun c hc => ?_) hsplit]
    · rw [← Option.some.inj hc]
      decide
    · rw [hend, List.getLast?_concat] at hc
      rw [← Option.some.inj hc]
      decide
  · have hwhole : WholeName isAsciiLetter "text".toList :=
      ⟨⟨'t', "ext".toList, by decide, by decide⟩, List.all_eq_true.mp (by decide)⟩
    have hsplit : (hasTextSelector "text" text).toList =
        "text:".toList ++ ("has-text".toList ++ '(' :: '"' :: (text.toList ++ ['"', ')'])) := by
      simp [hasTextSelector]
    refine tag_ofSelector_text (lastCompound_hasText hwhole hquotes).1 hsplit fun hmem => ?_
    rcases List.mem_append.mp hmem with hmem | hmem
    · exact absurd hmem (by decide)
    · simp [hfeed] at hmem

theorem ofSelector_hasText_compound (htag : WholeName isAsciiLetter tag.toList)
    (hquotes : Unquoted text.toList) (hname : tag ≠ "role" ∧ tag ≠ "text") :
    Shape.ofSelector (hasTextSelector tag text) = compoundShape (tag.toList ++ pseudo text.toList) := by
  have hcolon : ':' ∉ tag.toList := not_mem_tag htag (by decide)
  have hlead (word : String) (hword : ':' ∉ word.toList) (hne : tag ≠ word) :
      afterLead? (word.toList ++ [':']) (tag.toList ++ pseudo text.toList) = none := by
    cases hfound : afterLead? (word.toList ++ [':']) (tag.toList ++ pseudo text.toList) with
    | none => rfl
    | some rest =>
      have heq := eq_append_of_afterLead? hfound
      rw [List.append_assoc, List.singleton_append, pseudo] at heq
      exact absurd (String.toList_inj.mp (eq_of_append_cons hcolon hword heq).1) hne
  obtain ⟨htrim, hlast⟩ := lastCompound_hasText htag hquotes
  rw [ofSelector_compound htrim, hlast, toList_hasTextSelector]
  · rw [toList_hasTextSelector]
    simp [pseudo]
  · rw [toList_hasTextSelector]
    exact hlead "role" (by decide) hname.1
  · rw [toList_hasTextSelector]
    exact hlead "text" (by decide) hname.2
  · rw [toList_hasTextSelector]
    exact afterLead?_eq_none (c := '=') (by decide) (not_mem_tag htag (by decide)) (by decide) _

/-- **A tag with a text demands that tag and that text**, just if no bracket of the text opens an
attribute part and what is left of it is silent. -/
theorem compoundShape_hasText_iff (htag : WholeName isAsciiLetter tag.toList)
    (hlow : lower tag.toList = tag.toList) (hquotes : Unquoted text.toList)
    (hfeed : '\n' ∉ text.toList) :
    compoundShape (tag.toList ++ pseudo text.toList) = { tag := some tag, text := some text } ↔
      OpensNoPart text.toList ∧ Silent (leftover text.toList) := by
  have hnoParts := (takeAttrParts_eq_nil_iff (Nat.le_refl _)).trans
    (opensNoPart_iff text.toList (not_mem_tag htag (by decide)))
  have htext := hasTextArgument?_pseudo (not_mem_tag htag (c := ':') (by decide)) hquotes hfeed
  have hleft : dropPseudos (tag.toList ++ pseudo text.toList).length
      (tag.toList ++ pseudo text.toList) = tag.toList ++ leftover text.toList := by
    rw [List.length_append, dropPseudos_append (not_mem_tag htag (by decide))]
    rfl
  have hmarked {mark : Char} (hmark : isNameChar mark = false) :
      firstMarked? mark (tag.toList ++ leftover text.toList) =
        firstMarked? mark (leftover text.toList) :=
    firstMarked?_append (not_mem_tag htag hmark) _
  constructor
  · intro h
    have hparts := noParts_of_compoundShape h
    rw [compoundShape_of_noParts hparts, hleft] at h
    refine ⟨hnoParts.mp hparts, (tag_eq_iff htag hlow).mp ?_, ?_⟩
    · rw [String.ofList_toList]
      exact congrArg Shape.tag h
    · have hid := Option.map_eq_none_iff.mp (congrArg Shape.elementId h)
      have hclasses := List.map_eq_nil_iff.mp (congrArg Shape.classes h)
      rw [allMarked_eq_nil_iff (Nat.le_refl _), hmarked (by decide)] at hclasses
      rw [hmarked (by decide)] at hid
      exact List.forall_mem_cons.mpr ⟨hid, List.forall_mem_singleton.mpr hclasses⟩
  · rintro ⟨hopens, hhead, hmarks⟩
    have hid : firstMarked? '#' (tag.toList ++ leftover text.toList) = none :=
      (hmarked (by decide)).trans (hmarks '#' (by decide))
    have hclasses : allMarked '.' (tag.toList ++ leftover text.toList).length
        (tag.toList ++ leftover text.toList) = [] :=
      (allMarked_eq_nil_iff (Nat.le_refl _)).mpr
        ((hmarked (by decide)).trans (hmarks '.' (by decide)))
    rw [compoundShape_of_noParts (hnoParts.mpr hopens), hleft, (tag_eq_iff htag hlow).mpr hhead,
      hid, hclasses, htext]
    simp

/-- **A tag with a text demands just that, where the text is not taken for more of the selector.**
The tag must not stand for another notation.  The text must not open an attribute part with a bracket
of its own, and what is left of it when pseudo-classes are dropped must be silent.  This is so of any
text without opening brackets whose parentheses are shallow, whatever else it holds. -/
theorem ofSelector_hasText (htag : WholeName isAsciiLetter tag.toList)
    (hlow : lower tag.toList = tag.toList) (hquotes : Unquoted text.toList)
    (hfeed : '\n' ∉ text.toList) :
    (Shape.ofSelector (hasTextSelector tag text) = { tag := some tag, text := some text } ↔
      (tag ≠ "role" ∧ tag ≠ "text") ∧ OpensNoPart text.toList ∧ Silent (leftover text.toList)) ∧
    ('[' ∉ text.toList → Shallow text.toList →
      OpensNoPart text.toList ∧ Silent (leftover text.toList)) := by
  refine ⟨?_, fun hbracket hshallow => ⟨opensNoPart_of_not_mem hbracket, ?_⟩⟩
  · by_cases hname : tag = "role" ∨ tag = "text"
    · have hnone := tag_ofSelector_notation hname hquotes hfeed
      refine iff_of_false (fun h => ?_) fun h => hname.elim h.1.1 h.1.2
      rw [h] at hnone
      exact absurd hnone (by simp)
    · have hcompound := ofSelector_hasText_compound htag hquotes (not_or.mp hname)
      rw [hcompound, compoundShape_hasText_iff htag hlow hquotes hfeed]
      exact (and_iff_right (not_or.mp hname)).symm
  · rw [hshallow.leftover]
    exact silent_nil

end Read

/-- A text may look like a chain of selectors with pseudo-classes. -/
theorem ofSelector_hasText_chain : Shape.ofSelector "p:has-text(\"ul > li.a #b:not(.c) ]\")" =
    { tag := some "p", text := some "ul > li.a #b:not(.c) ]" } := by
  have htag : WholeName isAsciiLetter "p".toList :=
    ⟨⟨'p', [], by decide, by decide⟩, List.forall_mem_singleton.mpr (by decide)⟩
  have hlow : lower "p".toList = "p".toList := by decide +kernel
  have hquotes : Unquoted "ul > li.a #b:not(.c) ]".toList := by decide
  have hshallow : Shallow "ul > li.a #b:not(.c) ]".toList := by
    have hsplit : "ul > li.a #b:not(.c) ]".toList =
        "ul > li.a #b:not".toList ++ '(' :: (".c".toList ++ ')' :: (" ]".toList ++ [])) := by
      simp
    have hlead : ∀ c ∈ "ul > li.a #b:not".toList, c ≠ '(' ∧ c ≠ ')' :=
      List.all_iff_forall_prop.mp (by decide)
    have hinner : ∀ c ∈ ".c".toList, c ≠ '(' ∧ c ≠ ')' := List.all_iff_forall_prop.mp (by decide)
    have hback : ∀ c ∈ " ]".toList, c ≠ '(' ∧ c ≠ ')' := List.all_iff_forall_prop.mp (by decide)
    rw [hsplit]
    exact .append hlead (.pair hinner (.append hback .nil))
  obtain ⟨hexact, hplain⟩ := ofSelector_hasText htag hlow hquotes (by decide)
  exact hexact.mpr ⟨by decide, hplain (by decide) hshallow⟩

/-- A text with a condition in it demands the attribute and loses the text, and one with a lone
parenthesis goes on with the tag and shows a class. -/
theorem ofSelector_hasText_bracket :
    Shape.ofSelector (hasTextSelector "p" "[a]") =
      { tag := some "p", attrs := [("a", none)], text := some "" } ∧
    Shape.ofSelector (hasTextSelector "p" "a)b.c") =
      { tag := some "pb", classes := ["c"], text := some "a)b.c" } := by
  decide +kernel

end Mooring.Selector
