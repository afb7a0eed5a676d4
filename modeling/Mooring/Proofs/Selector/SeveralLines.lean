import Mathlib.Data.List.Forall2
import Mooring.Proofs.Selector.Spacing

/-!
# Selectors over several lines

The shape of a selector is the same for all white space outside as spaces, if what it is read from
has only spaces there: the last compound of a CSS selector, the accessible name of a role selector
(where its quote closes another one, it stands outside), the text of a text selector
(`ofSelector_spaced`).  Otherwise `div⏎.save` demands the tag of the one line and the class of the
other.
-/

namespace Mooring.Selector

open Mooring.Text

variable {n : Nesting} {c l : Char} {cs lead : List Char} {selector : String} {shape : Shape}

/-- A selector with all white space outside as spaces. -/
def spaced (selector : String) : String :=
  String.ofList (respaced {} selector.toList)

/-! ## Reading with other white space -/

theorem eq_respaced_iff (hl : isSpacing l = false) : n.respaced c = l ↔ c = l := by
  unfold Nesting.respaced
  split
  next h =>
    refine iff_of_false (fun heq => ?_) fun heq => ?_
    · rw [← heq] at hl
      exact absurd hl (by decide)
    · rw [heq, hl, Bool.and_false] at h
      exact absurd h (by decide)
  next => exact Iff.rfl

/-- A lead without white space is found where it was. -/
theorem afterLead?_respaced (hlead : (lead.all fun l => !isSpacing l) = true) : ∀ n cs,
    afterLead? lead (respaced n cs) = (afterLead? lead cs).map (respaced (n.run lead)) := by
  induction lead with
  | nil => exact fun _ _ => rfl
  | cons l lead ih =>
    rw [List.all_cons, Bool.and_eq_true, Bool.not_eq_true'] at hlead
    obtain ⟨hl, hlead⟩ := hlead
    intro n cs
    cases cs with
    | nil => rfl
    | cons c rest =>
      rw [respaced, afterLead?, afterLead?]
      by_cases heq : l = c
      · rw [if_pos (beq_iff_eq.mpr ((eq_respaced_iff hl).mpr heq.symm).symm),
          if_pos (beq_iff_eq.mpr heq), ih hlead, heq]
        rfl
      · rw [if_neg fun h => heq ((eq_respaced_iff hl).mp (eq_of_beq h).symm).symm,
          if_neg fun h => heq (eq_of_beq h)]
        rfl

theorem isSpacing_of_isNameChar (h : isNameChar c = true) : isSpacing c = false := by
  cases hspacing : isSpacing c with
  | false => rfl
  | true =>
    have hblank := Nesting.isBlank_of_isSpacing hspacing
    rw [isBlank_of_isNameChar h] at hblank
    exact absurd hblank (by decide)

theorem takeWhile_isNameChar_respaced (cs : List Char) : ∀ n,
    (respaced n cs).takeWhile isNameChar = cs.takeWhile isNameChar := by
  induction cs with
  | nil => exact fun _ => rfl
  | cons c rest ih =>
    intro n
    have hsame : isNameChar (n.respaced c) = isNameChar c := n.respaced_congr (by decide)
    rw [respaced, List.takeWhile_cons, List.takeWhile_cons, hsame, ih]
    split
    next hc => rw [Nesting.respaced_of_other (isSpacing_of_isNameChar hc)]
    next => rfl

/-- Blanks in front are dropped alike. -/
theorem dropWhile_isBlank_respaced (cs : List Char) :
    (respaced {} cs).dropWhile isBlank = respaced {} (cs.dropWhile isBlank) := by
  induction cs with
  | nil => rfl
  | cons c rest ih =>
    rw [respaced, List.dropWhile_cons, List.dropWhile_cons, Nesting.isBlank_respaced]
    split
    next hc => rw [Nesting.after_of_isBlank rfl hc, ih]
    next => rfl

/-! ## Role selectors -/

/-- A quote of either kind. -/
def isQuote (c : Char) : Bool :=
  c == '"' || c == '\''

/-- The accessible name at the start of a text. -/
def nameHere? (cs : List Char) : Option (List Char) :=
  match afterLead? "name=".toList cs with
  | some (quote :: inner) =>
    if isQuote quote then (splitBefore? isQuote inner).map Prod.fst else none
  | _ => none

/-- The nesting behind the opening quote of a name. -/
def Nesting.inName (n : Nesting) (cs : List Char) : Nesting :=
  n.run (cs.take ("name=".length + 1))

/-- The accessible name in a text, and the nesting it stands at. -/
def nameWithin? (n : Nesting) : List Char → Option (Nesting × List Char)
  | [] => none
  | c :: rest =>
    ((nameHere? (c :: rest)).map (n.inName (c :: rest), ·)).or (nameWithin? (n.after c) rest)

theorem isQuote_respaced (n : Nesting) (c : Char) : isQuote (n.respaced c) = isQuote c :=
  n.respaced_congr (by decide)

theorem splitBefore?_respaced (cs : List Char) : ∀ n,
    splitBefore? isQuote (respaced n cs) = (splitBefore? isQuote cs).map fun found =>
      (respaced n found.1, respaced (n.run found.1) found.2) := by
  induction cs with
  | nil => exact fun _ => rfl
  | cons c rest ih =>
    intro n
    rw [respaced, splitBefore?, splitBefore?, isQuote_respaced]
    split
    next => rfl
    next =>
      rw [ih, Option.map_map, Option.map_map]
      rfl

theorem nameHere?_respaced (n : Nesting) (cs : List Char) :
    nameHere? (respaced n cs) = (nameHere? cs).map (respaced (n.inName cs)) := by
  unfold nameHere?
  rw [afterLead?_respaced (by decide)]
  cases hafter : afterLead? "name=".toList cs with
  | none => rfl
  | some after =>
    cases after with
    | nil => rfl
    | cons quote inner =>
      have hin : n.inName cs = (n.run "name=".toList).after quote := by
        rw [eq_append_of_afterLead? hafter]
        rfl
      rw [Option.map_some, respaced, hin]
      dsimp only
      rw [isQuote_respaced]
      split
      next =>
        rw [splitBefore?_respaced, Option.map_map, Option.map_map]
        rfl
      next => rfl

theorem nameArgument?_cons (c : Char) (rest : List Char) :
    nameArgument? (c :: rest) = (nameHere? (c :: rest)).or (nameArgument? rest) :=
  rfl

theorem nameArgument?_eq (cs : List Char) : ∀ n,
    nameArgument? cs = (nameWithin? n cs).map Prod.snd := by
  induction cs with
  | nil => exact fun _ => rfl
  | cons c rest ih =>
    intro n
    rw [nameArgument?_cons, nameWithin?, Option.map_or, ← ih, Option.map_map]
    cases nameHere? (c :: rest) <;> rfl

theorem nameArgument?_respaced (cs : List Char) : ∀ n,
    nameArgument? (respaced n cs) =
      (nameWithin? n cs).map fun found => respaced found.1 found.2 := by
  induction cs with
  | nil => exact fun _ => rfl
  | cons c rest ih =>
    intro n
    have hhere := nameHere?_respaced n (c :: rest)
    rw [respaced] at hhere ⊢
    rw [nameArgument?_cons, nameWithin?, Option.map_or, ← ih, Option.map_map, hhere]
    rfl

/-- What a role selector demands for the accessible name in it. -/
def labelled : Option (List Char) → Table (Option String)
  | some name => [("aria-label", some (String.ofList name))]
  | none => []

theorem labelled_inj {a b : Option (List Char)} : labelled a = labelled b ↔ a = b := by
  cases a <;> cases b <;> simp [labelled, String.ofList_inj]

/-- The role of a role selector. -/
def roleName? (cs : List Char) : Option (List Char) :=
  (afterLead? "role:".toList cs).bind fun rest =>
    if (rest.takeWhile isNameChar).isEmpty then none else some (rest.takeWhile isNameChar)

theorem roleShape?_eq (cs : List Char) : roleShape? cs = (roleName? cs).map fun role =>
    { role := some (String.ofList role), attrs := labelled (nameArgument? cs) } := by
  unfold roleShape? roleName?
  cases afterLead? "role:".toList cs with
  | none => rfl
  | some rest =>
    dsimp only [Option.bind_some]
    split <;> rfl

theorem roleName?_respaced (cs : List Char) : roleName? (respaced {} cs) = roleName? cs := by
  unfold roleName?
  rw [afterLead?_respaced (by decide), Option.bind_map]
  refine congrArg (Option.bind _) (funext fun rest => ?_)
  rw [Function.comp_apply, takeWhile_isNameChar_respaced]

theorem roleShape?_respaced_eq_none :
    roleShape? (respaced {} cs) = none ↔ roleShape? cs = none := by
  rw [roleShape?_eq, roleShape?_eq, Option.map_eq_none_iff, Option.map_eq_none_iff,
    roleName?_respaced]

/-- **A role selector keeps its shape just if its accessible name has only spaces outside.** -/
theorem roleShape?_respaced (h : roleShape? cs = some shape) :
    ∃ shape', roleShape? (respaced {} cs) = some shape' ∧
      (shape' = shape ↔ ∀ m name, nameWithin? {} cs = some (m, name) → OnlySpaces m name) := by
  have hname : nameArgument? (respaced {} cs) = nameArgument? cs ↔
      ∀ m name, nameWithin? {} cs = some (m, name) → OnlySpaces m name := by
    rw [nameArgument?_respaced, nameArgument?_eq cs {}]
    cases nameWithin? {} cs with
    | none => simp
    | some found => simp [Prod.ext_iff, ← respaced_eq_self_iff]
  rw [roleShape?_eq] at h
  obtain ⟨role, hrole, rfl⟩ := Option.map_eq_some_iff.mp h
  refine ⟨_, by rw [roleShape?_eq, roleName?_respaced, hrole, Option.map_some], ?_⟩
  rw [← hname, ← labelled_inj]
  simp

/-! ## Text selectors -/

/-- The text of a text selector, quotes around it included. -/
def textBody? (cs : List Char) : Option (List Char) :=
  ((afterLead? "text:".toList cs).or (afterLead? "text=".toList cs)).map (·.dropWhile isBlank)

/-- A text without a quote at each end. -/
def unquoted (body : List Char) : List Char :=
  (dropQuote (dropQuote body).reverse).reverse

theorem textShape?_eq (cs : List Char) : textShape? cs = (textBody? cs).bind fun body =>
    if body.contains '\n' then none else some { text := some (String.ofList (unquoted body)) } := by
  unfold textShape? textBody?
  cases (afterLead? "text:".toList cs).or (afterLead? "text=".toList cs) <;> rfl

theorem textBody?_respaced (cs : List Char) :
    textBody? (respaced {} cs) = (textBody? cs).map (respaced {}) := by
  unfold textBody?
  have hcolon : ({} : Nesting).run "text:".toList = {} := by decide
  have hequals : ({} : Nesting).run "text=".toList = {} := by decide
  rw [afterLead?_respaced (by decide), afterLead?_respaced (by decide), hcolon, hequals,
    ← Option.map_or, Option.map_map, Option.map_map]
  exact congrArg (Option.map · _) (funext dropWhile_isBlank_respaced)

/-- There is no new white space but spaces. -/
theorem mem_of_mem_respaced (hc : c ≠ ' ') (cs : List Char) : ∀ n, c ∈ respaced n cs → c ∈ cs := by
  induction cs with
  | nil => exact fun _ h => h
  | cons d rest ih =>
    intro n h
    rcases List.mem_cons.mp h with heq | hrest
    · unfold Nesting.respaced at heq
      split at heq
      next => exact absurd heq hc
      next => exact heq ▸ List.mem_cons_self
    · exact List.mem_cons_of_mem d (ih _ hrest)

/-- Two texts of the same length, with quotes at the same places. -/
def SameQuotes (cs ds : List Char) : Prop :=
  List.Forall₂ (fun c d => isQuote c = isQuote d ∧ (isQuote c = true → c = d)) cs ds

theorem sameQuotes_respaced (cs : List Char) : ∀ n, SameQuotes (respaced n cs) cs := by
  induction cs with
  | nil => exact fun _ => .nil
  | cons c rest ih =>
    refine fun n => .cons ⟨isQuote_respaced n c, fun hquote => ?_⟩ (ih _)
    rw [isQuote_respaced] at hquote
    refine Nesting.respaced_of_other ?_
    simp only [isQuote, Bool.or_eq_true, beq_iff_eq] at hquote
    rcases hquote with rfl | rfl <;> decide

theorem SameQuotes.dropQuote {cs ds : List Char} (h : SameQuotes cs ds) :
    SameQuotes (dropQuote cs) (dropQuote ds) ∧ (dropQuote cs = dropQuote ds ↔ cs = ds) := by
  cases h with
  | nil => exact ⟨.nil, Iff.rfl⟩
  | @cons c d cs ds hc hrest =>
    obtain ⟨hkind, hquote⟩ := hc
    have hcons (c : Char) (cs : List Char) :
        Selector.dropQuote (c :: cs) = if isQuote c then cs else c :: cs := rfl
    rw [hcons, hcons, ← hkind]
    split
    next hc => exact ⟨hrest, by rw [List.cons.injEq, and_iff_right (hquote hc)]⟩
    next => exact ⟨.cons ⟨hkind, hquote⟩ hrest, Iff.rfl⟩

theorem SameQuotes.unquoted {cs ds : List Char} (h : SameQuotes cs ds) :
    unquoted cs = unquoted ds ↔ cs = ds := by
  obtain ⟨hfirst, hfirst_iff⟩ := h.dropQuote
  obtain ⟨-, hlast_iff⟩ := SameQuotes.dropQuote (List.forall₂_reverse_iff.mpr hfirst)
  rw [Selector.unquoted, Selector.unquoted, List.reverse_inj, hlast_iff, List.reverse_inj,
    hfirst_iff]

/-- **A text selector keeps its shape just if its text has only spaces outside.** -/
theorem textShape?_respaced {body : List Char} (hbody : textBody? cs = some body)
    (h : textShape? cs = some shape) :
    ∃ shape', textShape? (respaced {} cs) = some shape' ∧
      (shape' = shape ↔ OnlySpaces {} body) := by
  rw [textShape?_eq, hbody, Option.bind_some] at h
  split at h
  · exact absurd h (by simp)
  next hfeed =>
    obtain rfl := Option.some.inj h
    have hfeed' : ¬(respaced {} body).contains '\n' = true := by
      simp only [List.contains_iff_mem] at hfeed ⊢
      exact fun hmem => hfeed (mem_of_mem_respaced (by decide) body {} hmem)
    refine ⟨_, by rw [textShape?_eq, textBody?_respaced, hbody, Option.map_some, Option.bind_some,
      if_neg hfeed'], ?_⟩
    rw [← respaced_eq_self_iff, ← (sameQuotes_respaced body {}).unquoted]
    simp [String.ofList_inj]

/-! ## Shapes -/

/-- A shape is read from the three notations in turn. -/
theorem ofSelector_eq (h : trim selector.toList = selector.toList) :
    Shape.ofSelector selector = (roleShape? selector.toList).getD
      ((textShape? selector.toList).getD (compoundShape (lastCompound selector.toList))) := by
  unfold Shape.ofSelector
  dsimp only
  rw [h]
  cases selector.toList with
  | nil => rfl
  | cons c rest =>
    rw [if_neg (by simp)]
    cases roleShape? (c :: rest) <;> rfl

/-- **White space between compounds.**  All white space outside being spaces, the last compound of a
selector without blanks at its ends is the last one of its last compound; it is the same just if it
has no other white space outside.  The shape of a role selector stays the same just if that is so of
its accessible name, and the shape of a text selector just if it is so of the text.  A CSS selector
that does not become a text selector demands what its new last compound demands. -/
theorem ofSelector_spaced (h : trim selector.toList = selector.toList) :
    (lastCompound (respaced {} selector.toList) =
        lastCompound (respaced {} (lastCompound selector.toList)) ∧
      (lastCompound (respaced {} selector.toList) = lastCompound selector.toList ↔
        OnlySpaces {} (lastCompound selector.toList))) ∧
    (∀ shape, roleShape? selector.toList = some shape →
      (Shape.ofSelector (spaced selector) = Shape.ofSelector selector ↔
        ∀ m name, nameWithin? {} selector.toList = some (m, name) → OnlySpaces m name)) ∧
    (∀ shape body, roleShape? selector.toList = none → textShape? selector.toList = some shape →
      textBody? selector.toList = some body →
        (Shape.ofSelector (spaced selector) = Shape.ofSelector selector ↔ OnlySpaces {} body)) ∧
    (roleShape? selector.toList = none → textShape? selector.toList = none →
      textShape? (spaced selector).toList = none →
        Shape.ofSelector (spaced selector) =
          compoundShape (lastCompound (respaced {} (lastCompound selector.toList))) ∧
        (OnlySpaces {} (lastCompound selector.toList) →
          Shape.ofSelector (spaced selector) = Shape.ofSelector selector)) := by
  have hspaced : (spaced selector).toList = respaced {} selector.toList := String.toList_ofList
  have hshape := ofSelector_eq h
  have hshape' : Shape.ofSelector (spaced selector) =
      (roleShape? (respaced {} selector.toList)).getD
        ((textShape? (respaced {} selector.toList)).getD
          (compoundShape (lastCompound (respaced {} selector.toList)))) := by
    rw [← hspaced]
    exact ofSelector_eq (by rw [hspaced, trim_respaced h])
  refine ⟨⟨lastCompound_respaced h, lastCompound_respaced_iff h⟩, ?role, ?text, ?css⟩
  case role =>
    intro shape hrole
    obtain ⟨shape', hrole', hiff⟩ := roleShape?_respaced hrole
    rw [hshape', hshape, hrole', hrole, ← hiff]
    rfl
  case text =>
    intro shape body hrole htext hbody
    obtain ⟨shape', htext', hiff⟩ := textShape?_respaced hbody htext
    rw [hshape', hshape, roleShape?_respaced_eq_none.mpr hrole, hrole, htext', htext, ← hiff]
    rfl
  case css =>
    intro hrole htext htext'
    rw [hspaced] at htext'
    rw [hshape', hshape, roleShape?_respaced_eq_none.mpr hrole, hrole, htext, htext',
      ← lastCompound_respaced h]
    exact ⟨rfl, fun hspaces => by rw [(lastCompound_respaced_iff h).mpr hspaces]⟩

/-- A line feed behind a combinator, and a tab in quotes, change nothing. -/
theorem ofSelector_spaced_behind :
    let selector := "ul >\n\tli.a[title=\"x\ty\"]"
    trim selector.toList = selector.toList ∧
      spaced selector = "ul >  li.a[title=\"x\ty\"]" ∧
      lastCompound (respaced {} selector.toList) = lastCompound selector.toList ∧
      Shape.ofSelector (spaced selector) = Shape.ofSelector selector := by
  intro selector
  have htrim : trim selector.toList = selector.toList := by decide
  have hspaces : OnlySpaces {} (lastCompound selector.toList) :=
    (respaced_eq_self_iff _ _).mp (by decide)
  obtain ⟨⟨-, hlast⟩, -, -, hcss⟩ := ofSelector_spaced htrim
  exact ⟨htrim, by decide, hlast.mpr hspaces,
    (hcss (by decide) (by decide) (by decide)).2 hspaces⟩

/-- **A line feed between two compounds joins them.**  The selector demands the tag of the first and
the class of the second, and with a space the class only. -/
theorem ofSelector_spaced_joined :
    let selector := "div\n.save"
    trim selector.toList = selector.toList ∧ spaced selector = "div .save" ∧
      lastCompound selector.toList = "div\n.save".toList ∧
      lastCompound (spaced selector).toList = ".save".toList ∧
      Shape.ofSelector selector = { tag := some "div", classes := ["save"] } ∧
      Shape.ofSelector (spaced selector) = { classes := ["save"] } := by
  decide

end Mooring.Selector
