import Mooring.Anchor.Matching
import Mooring.Proofs.Selector.Chain
import Mooring.Proofs.Text.Occurrence

/-!
# What a hint's points are given for

A selector gets the points of a hint if it holds one of the notations for the hint's name, blanks
squeezed and quotes single.  The names have no blanks, so squeezing does not matter (`occursIn_plain`).

Two of the notations end with a quote, and behind it no name goes on: `[data-testid="…"]` names the
hinted test identifier just if it is the same.  The other three end with the name itself, and there
any name that the hinted one is the beginning of will do as well: `role:tabpanel` gets the points of
the role `tab` (`hints_reach`).  A role's accessible name may hold a notation, too.
-/

namespace Mooring.Anchor

open Mooring.Selector (isNameChar isBlank_of_isNameChar ne_of_isNameChar)
open Mooring.Text

variable {anchor : Anchor} {hint : Hint} {role other testid s : String} {mark : Char}
variable {needle cs lead : List Char} {c : Char}

/-- A text with all its quotes single. -/
def singleQuotes (cs : List Char) : List Char :=
  cs.map fun c => if c == '"' then '\'' else c

/-- A name of letters, digits, hyphens and underscores. -/
structure IsName (s : String) : Prop where
  ne_empty : s ≠ ""
  isNameChar : ∀ c ∈ s.toList, isNameChar c = true

/-- The notations for a role. -/
def roleForms (role : List Char) : List (List Char) :=
  ["role:".toList ++ role, "role=".toList ++ role, "role='".toList ++ role ++ "'".toList]

/-- The text holds one of the notations for the role. -/
def MentionsRole (cs role : List Char) : Prop :=
  ∃ form ∈ roleForms role, form <:+: cs

/-- `role:tab` or `role=tab`, and perhaps an accessible name behind it. -/
def roleSelector (mark : Char) (role : String) (name : Option String) : String :=
  "role" ++ mark.toString ++ role ++
    match name with
    | none => ""
    | some name => "[name=\"" ++ name ++ "\"]"

/-! ## Names in plain selectors -/

theorem singleQuotes_append (cs more : List Char) :
    singleQuotes (cs ++ more) = singleQuotes cs ++ singleQuotes more :=
  List.map_append

theorem singleQuotes_eq_self (h : '"' ∉ cs) : singleQuotes cs = cs := by
  have hid : ∀ c ∈ cs, (if c == '"' then '\'' else c) = c := by
    intro c hc
    rw [if_neg]
    intro heq
    rw [eq_of_beq heq] at hc
    exact h hc
  exact (List.map_congr_left hid).trans (List.map_id' cs)

/-- **A text without blanks occurs in a plain selector just if it does in the selector**, quotes
being single. -/
theorem occursIn_plain (hne : needle ≠ []) (hsolid : ∀ c ∈ needle, isBlank c = false)
    (selector : String) :
    occursIn needle (plainSelector selector) = true ↔ needle <:+: singleQuotes selector.toList := by
  have hblank (c : Char) : isBlank (if c == '"' then '\'' else c) = isBlank c := by
    split
    next heq =>
      rw [eq_of_beq heq]
      decide
    next => rfl
  rw [occursIn_iff, plainSelector, singleQuotes, List.infix_map_iff, List.infix_map_iff]
  refine exists_congr fun found => and_congr_left fun hfound => ?_
  refine infix_squeeze_iff ?_ fun c hc => ?_
  · rintro rfl
    exact hne hfound
  · rw [← hblank, hsolid]
    rw [hfound]
    exact List.mem_map_of_mem hc

theorem IsName.solid (h : IsName role) : ∀ c ∈ role.toList, isBlank c = false :=
  fun c hc => isBlank_of_isNameChar (h.isNameChar c hc)

/-- A name holds no character of another kind. -/
theorem not_mem_of_isNameChar (h : ∀ c ∈ cs, isNameChar c = true) (hc : isNameChar c = false) :
    c ∉ cs :=
  fun hmem => ne_of_isNameChar (h c hmem) hc rfl

/-- Nor does it behind a lead without that character. -/
theorem not_mem_behind (hlead : c ∉ lead) (h : ∀ c ∈ cs, isNameChar c = true)
    (hc : isNameChar c = false) : c ∉ lead ++ cs :=
  List.mem_append.not.mpr (not_or.mpr ⟨hlead, not_mem_of_isNameChar h hc⟩)

/-- Nor does it behind a mark. -/
theorem not_mem_marked (hlead : c ∉ lead ++ [mark]) (h : ∀ c ∈ cs, isNameChar c = true)
    (hc : isNameChar c = false) : c ∉ lead ++ mark :: cs := by
  rw [← List.singleton_append, ← List.append_assoc]
  exact not_mem_behind hlead h hc

theorem mentionsRole_iff {role : List Char} : MentionsRole cs role ↔
    ("role:".toList ++ role) <:+: cs ∨ ("role=".toList ++ role) <:+: cs ∨
      ("role='".toList ++ role ++ "'".toList) <:+: cs := by
  simp only [MentionsRole, roleForms, List.mem_cons, List.not_mem_nil, or_false,
    exists_eq_or_imp, exists_eq_left]

theorem solid_of_all {lead : List Char} (h : (lead.all fun c => !isBlank c) = true) :
    ∀ c ∈ lead, isBlank c = false := by
  simpa using h

theorem solid_behind (hlead : (lead.all fun c => !isBlank c) = true) (hname : IsName s) :
    ∀ c ∈ lead ++ s.toList, isBlank c = false :=
  List.forall_mem_append.mpr ⟨solid_of_all hlead, hname.solid⟩

/-- **A selector names a role just if it holds one of the notations**, quotes being single. -/
theorem namesRole_iff (hrole : IsName role) (selector : String) :
    namesRole selector role = true ↔
      MentionsRole (singleQuotes selector.toList) role.toList := by
  have hquoted : ∀ c ∈ "role='".toList ++ role.toList ++ "'".toList, isBlank c = false :=
    List.forall_mem_append.mpr ⟨solid_behind (by decide) hrole, solid_of_all (by decide)⟩
  unfold namesRole
  dsimp only
  rw [Bool.or_eq_true, Bool.or_eq_true, String.toList_append, String.toList_append,
    String.toList_append, String.toList_append,
    occursIn_plain (by simp) (solid_behind (by decide) hrole),
    occursIn_plain (by simp) (solid_behind (by decide) hrole), occursIn_plain (by simp) hquoted,
    or_assoc,
    mentionsRole_iff]

theorem namesTestid_iff (htestid : IsName testid) (selector : String) :
    namesTestid selector testid = true ↔
      ("testid:".toList ++ testid.toList) <:+: singleQuotes selector.toList ∨
        ("data-testid='".toList ++ testid.toList ++ "'".toList) <:+: singleQuotes selector.toList := by
  have hquoted : ∀ c ∈ "data-testid='".toList ++ testid.toList ++ "'".toList, isBlank c = false :=
    List.forall_mem_append.mpr ⟨solid_behind (by decide) htestid, solid_of_all (by decide)⟩
  unfold namesTestid
  dsimp only
  rw [Bool.or_eq_true, String.toList_append, String.toList_append, String.toList_append,
    occursIn_plain (by simp) (solid_behind (by decide) htestid), occursIn_plain (by simp) hquoted]

/-! ## Notations in selectors -/

/-- Behind a mark that comes once, a name occurs just if it is the beginning of what stands there. -/
theorem infix_mark_iff {name other : List Char} (hlead : mark ∉ lead) (hother : mark ∉ other) :
    (lead ++ mark :: name) <:+: lead ++ mark :: other ↔ name <+: other := by
  constructor
  · rintro ⟨front, back, h⟩
    rw [← List.append_assoc, List.append_assoc, List.cons_append] at h
    exact ⟨back, (append_cons_inj hlead hother h).2⟩
  · rintro ⟨back, rfl⟩
    exact ⟨[], back, by simp⟩

/-- A role's notation occurs in a role's name just if the role is the beginning of that name. -/
theorem mentions_role (hmark : mark = ':' ∨ mark = '=') {role other : List Char}
    (hother : ∀ c ∈ other, isNameChar c = true) :
    MentionsRole ("role".toList ++ mark :: other) role ↔ role <+: other := by
  have hsame (hlead : mark ∉ "role".toList) (hc : isNameChar mark = false) :
      ("role".toList ++ mark :: role) <:+: "role".toList ++ mark :: other ↔ role <+: other :=
    infix_mark_iff hlead (not_mem_of_isNameChar hother hc)
  rw [mentionsRole_iff]
  rcases hmark with rfl | rfl
  · have hequals : '=' ∉ "role".toList ++ ':' :: other :=
      not_mem_marked (by decide) hother (by decide)
    rw [or_iff_left]
    · exact hsame (by decide) (by decide)
    · rintro (h | h) <;> exact not_infix_of_mem (by simp) hequals h
  · have hcolon : ':' ∉ "role".toList ++ '=' :: other :=
      not_mem_marked (by decide) hother (by decide)
    have hquote : '\'' ∉ "role".toList ++ '=' :: other :=
      not_mem_marked (by decide) hother (by decide)
    rw [or_iff_right (not_infix_of_mem (by simp) hcolon),
      or_iff_left (not_infix_of_mem (by simp) hquote)]
    exact hsame (by decide) (by decide)

/-- No notation for a role holds a bracket, and each starts with the same letter. -/
theorem form_shape {role : List Char} (hrole : ∀ c ∈ role, isNameChar c = true) {form : List Char}
    (hform : form ∈ roleForms role) : ∃ rest, form = 'r' :: rest ∧ '[' ∉ form ∧ ']' ∉ form := by
  have hfree {c : Char} {lead : List Char} (hlead : c ∉ lead) (hc : isNameChar c = false) :
      c ∉ lead ++ role :=
    not_mem_behind hlead hrole hc
  have hquoted {c : Char} (hlead : c ∉ "role='".toList) (hc : isNameChar c = false)
      (hquote : c ∉ "'".toList) : c ∉ "role='".toList ++ role ++ "'".toList :=
    List.mem_append.not.mpr (not_or.mpr ⟨hfree hlead hc, hquote⟩)
  simp only [roleForms, List.mem_cons, List.not_mem_nil, or_false] at hform
  rcases hform with rfl | rfl | rfl
  · exact ⟨_, rfl, hfree (by decide) (by decide), hfree (by decide) (by decide)⟩
  · exact ⟨_, rfl, hfree (by decide) (by decide), hfree (by decide) (by decide)⟩
  · exact ⟨_, rfl, hquoted (by decide) (by decide) (by decide),
      hquoted (by decide) (by decide) (by decide)⟩

/-- **A notation behind a name in brackets** lies on one side of the opening bracket. -/
theorem mentions_brackets {front inner role : List Char} (hrole : ∀ c ∈ role, isNameChar c = true) :
    MentionsRole (front ++ '[' :: ("name='".toList ++ inner ++ "']".toList)) role ↔
      MentionsRole front role ∨ MentionsRole (inner ++ "'".toList) role := by
  have hend : "name='".toList ++ inner ++ "']".toList =
      "name='".toList ++ (inner ++ "'".toList) ++ ']' :: [] := by simp
  have hsides : ∀ form ∈ roleForms role,
      (form <:+: front ++ '[' :: ("name='".toList ++ inner ++ "']".toList) ↔
        form <:+: front ∨ form <:+: inner ++ "'".toList) := by
    intro form hform
    obtain ⟨rest, rfl, hopen, hclose⟩ := form_shape hrole hform
    rw [infix_append_cons_iff hopen, hend, infix_append_cons_iff hclose,
      infix_behind_iff (by decide), List.infix_nil, or_iff_left (List.cons_ne_nil _ _)]
  unfold MentionsRole
  rw [← exists_or]
  refine exists_congr fun form => ?_
  rw [← and_or_left]
  exact and_congr_right (hsides form)

/-- **A role selector names a role** if the role is the beginning of its own, or the accessible name
in its quotes holds a notation. -/
theorem namesRole_roleSelector (hmark : mark = ':' ∨ mark = '=') (hrole : IsName role)
    (hother : IsName other) (name : Option String) :
    namesRole (roleSelector mark other name) role = true ↔
      role.toList <+: other.toList ∨ ∃ text, name = some text ∧
        MentionsRole (singleQuotes text.toList ++ "'".toList) role.toList := by
  have hplain : singleQuotes ("role".toList ++ mark :: other.toList) =
      "role".toList ++ mark :: other.toList := by
    refine singleQuotes_eq_self (not_mem_marked ?_ hother.isNameChar (by decide))
    rcases hmark with rfl | rfl <;> decide
  rw [namesRole_iff hrole]
  cases name with
  | none =>
    have htext : (roleSelector mark other none).toList = "role".toList ++ mark :: other.toList := by
      simp [roleSelector]
    rw [htext, hplain, mentions_role hmark hother.isNameChar, or_iff_left]
    rintro ⟨text, htext, -⟩
    exact absurd htext (by simp)
  | some text =>
    have htext : (roleSelector mark other (some text)).toList =
        ("role".toList ++ mark :: other.toList) ++
          '[' :: ("name=\"".toList ++ text.toList ++ "\"]".toList) := by
      simp [roleSelector]
    have hbrackets : singleQuotes ('[' :: ("name=\"".toList ++ text.toList ++ "\"]".toList)) =
        '[' :: ("name='".toList ++ singleQuotes text.toList ++ "']".toList) := by
      simp [singleQuotes]
    rw [htext, singleQuotes_append, hplain, hbrackets, mentions_brackets hrole.isNameChar,
      mentions_role hmark hother.isNameChar]
    simp

/-- **A marked test identifier names another one** if that one is the beginning of it. -/
theorem namesTestid_marked (htestid : IsName testid) (hother : IsName other) :
    namesTestid ("testid:" ++ other) testid = true ↔ testid.toList <+: other.toList := by
  have htext : ("testid:" ++ other).toList = "testid".toList ++ ':' :: other.toList := by
    simp
  have hequals : '=' ∉ "testid".toList ++ ':' :: other.toList :=
    not_mem_marked (by decide) hother.isNameChar (by decide)
  have hquotes : '"' ∉ "testid".toList ++ ':' :: other.toList :=
    not_mem_marked (by decide) hother.isNameChar (by decide)
  rw [namesTestid_iff htestid, htext, singleQuotes_eq_self hquotes,
    or_iff_left (not_infix_of_mem (by simp) hequals)]
  have hlead : ':' ∉ "testid".toList := by decide
  exact infix_mark_iff hlead (not_mem_of_isNameChar hother.isNameChar (by decide))

/-- **A quoted test identifier names itself only.** -/
theorem namesTestid_quoted (htestid : IsName testid) (hother : IsName other) :
    namesTestid ("[data-testid=\"" ++ other ++ "\"]") testid = true ↔ other = testid := by
  have hquotes : '"' ∉ other.toList := not_mem_of_isNameChar hother.isNameChar (by decide)
  have htext : singleQuotes ("[data-testid=\"" ++ other ++ "\"]").toList =
      "[data-testid".toList ++ '=' :: ('\'' :: (other.toList ++ '\'' :: "]".toList)) := by
    rw [String.toList_append, String.toList_append, singleQuotes_append, singleQuotes_append,
      singleQuotes_eq_self hquotes]
    simp [singleQuotes]
  have hrest {c : Char} (hend : c ∉ "']".toList) (hc : isNameChar c = false) :
      c ∉ '\'' :: (other.toList ++ '\'' :: "]".toList) := by
    have hname := not_mem_of_isNameChar hother.isNameChar hc
    simp_all
  have hcolon : ':' ∉ singleQuotes ("[data-testid=\"" ++ other ++ "\"]").toList := by
    rw [htext, List.mem_append, List.mem_cons, not_or, not_or]
    exact ⟨by decide, by decide, hrest (by decide) (by decide)⟩
  rw [namesTestid_iff htestid, or_iff_right (not_infix_of_mem (by simp) hcolon), htext]
  have hquote {name : String} (hname : IsName name) : '\'' ∉ name.toList :=
    not_mem_of_isNameChar hname.isNameChar (by decide)
  constructor
  · rintro ⟨front, back, hfound⟩
    have hsplit : (front ++ "data-testid".toList) ++
        '=' :: ('\'' :: (testid.toList ++ '\'' :: back)) =
        "[data-testid".toList ++ '=' :: ('\'' :: (other.toList ++ '\'' :: "]".toList)) := by
      simpa using hfound
    have hlead : '=' ∉ "[data-testid".toList := by decide
    obtain ⟨-, hbehind⟩ := append_cons_inj hlead (hrest (by decide) (by decide)) hsplit
    have hnames := eq_of_append_cons (hquote htestid) (hquote hother) (List.cons.inj hbehind).2
    exact (String.toList_inj.mp hnames.1).symm
  · rintro rfl
    exact ⟨"[".toList, "]".toList, by simp⟩

/-! ## Points for hints -/

/-- Each merit has its own reason. -/
theorem reason_injective : Function.Injective Merit.reason := by
  intro a b
  cases a <;> cases b <;> decide

theorem mem_when {earned : Bool} {merit other : Merit} :
    merit ∈ when earned other ↔ earned = true ∧ merit = other := by
  cases earned <;> simp [when]

theorem mem_reasons_iff {merit : Merit} {selector : String} {now : Moment} :
    merit.reason ∈ (scored selector now anchor).reasons ↔ merit ∈ merits anchor selector now :=
  List.mem_map_of_injective reason_injective

/-- A selector's own merit is never one for a hint. -/
theorem selectorMerit?_eq {merit : Merit} {selector : String}
    (h : selectorMerit? anchor selector = some merit) :
    merit = .exactSelector ∨ merit = .partialSelector := by
  unfold selectorMerit? at h
  dsimp only at h
  split at h
  · exact absurd h (by simp)
  · split at h
    · exact .inl (Option.some.inj h).symm
    · split at h
      · exact .inr (Option.some.inj h).symm
      · exact absurd h (by simp)

/-- **The points for a hint** are given just if the hint is there and the selector names it. -/
theorem hint_mem_iff {selector : String} {now : Moment} :
    (Merit.roleHint ∈ merits anchor selector now ↔
      anyText (namesRole selector) (anchor.hint.bind (·.role)) = true) ∧
    (Merit.testidHint ∈ merits anchor selector now ↔
      anyText (namesTestid selector) (anchor.hint.bind (·.testid)) = true) := by
  have hselector : Merit.roleHint ∉ (selectorMerit? anchor selector).toList ∧
      Merit.testidHint ∉ (selectorMerit? anchor selector).toList := by
    constructor <;> intro h <;> simpa using selectorMerit?_eq (Option.mem_toList.mp h)
  simp [merits, mem_when, hselector]

/-- **What the points for a hint are given for.**  A role's go to every selector whose role the
hinted one is the beginning of, or whose accessible name holds one of its notations; a test
identifier's go to every marked one that the hinted one is the beginning of, but among those in
quotes to the same one only. -/
theorem hints_reach (hhint : anchor.hint = some hint) (now : Moment) :
    (∀ role other mark, hint.role = some role → IsName role → IsName other →
      (mark = ':' ∨ mark = '=') → ∀ name,
        ("Matches role hint" ∈ (scored (roleSelector mark other name) now anchor).reasons ↔
          role.toList <+: other.toList ∨ ∃ text, name = some text ∧
            MentionsRole (singleQuotes text.toList ++ "'".toList) role.toList)) ∧
    (∀ testid other, hint.testid = some testid → IsName testid → IsName other →
      ("Matches testid hint" ∈ (scored ("testid:" ++ other) now anchor).reasons ↔
        testid.toList <+: other.toList) ∧
      ("Matches testid hint" ∈ (scored ("[data-testid=\"" ++ other ++ "\"]") now anchor).reasons ↔
        other = testid)) := by
  have hany {p : String → Bool} {hinted : Option String} {s : String} (hs : hinted = some s)
      (hname : IsName s) : anyText p hinted = true ↔ p s = true := by
    rw [hs, anyText, Option.any_some, Bool.and_eq_true, bne_iff_ne]
    exact and_iff_right hname.ne_empty
  constructor
  · intro role other mark hrole hname hother hmark name
    refine mem_reasons_iff.trans (hint_mem_iff.1.trans ?_)
    rw [hhint, Option.bind_some, hany hrole hname, namesRole_roleSelector hmark hname hother]
  · intro testid other htestid hname hother
    have hmem (selector : String) :
        "Matches testid hint" ∈ (scored selector now anchor).reasons ↔
          namesTestid selector testid = true := by
      refine mem_reasons_iff.trans (hint_mem_iff.2.trans ?_)
      rw [hhint, Option.bind_some, hany htestid hname]
    exact ⟨(hmem _).trans (namesTestid_marked hname hother),
      (hmem _).trans (namesTestid_quoted hname hother)⟩

theorem IsName.of_all (hne : s ≠ "") (hall : s.toList.all Selector.isNameChar = true) : IsName s :=
  ⟨hne, List.all_eq_true.mp hall⟩

/-- An anchor for a tab that saves. -/
def tabAnchor : Anchor :=
  { id := "a", selector := "#old", updatedAt := "2025-01-01T00:00:00Z",
    hint := some { role := some "tab", testid := some "save" } }

/-- The selector `role=button[name="role=tab"]` gets the points of the role `tab` for the name it
gives, and `role:button` gets none; `testid:save-all` gets the points of `save`, and
`[data-testid="save-all"]` none. -/
theorem hints_reach_button :
    let now : Moment := { date := ⟨2026, 6, 1⟩, offset := some 0 }
    tabAnchor.hint = some { role := some "tab", testid := some "save" } ∧
    (IsName "tab" ∧ IsName "button" ∧ IsName "save" ∧ IsName "save-all") ∧
    "Matches role hint" ∈
      (scored (roleSelector '=' "button" (some "role=tab")) now tabAnchor).reasons ∧
    "Matches role hint" ∉ (scored (roleSelector ':' "button" none) now tabAnchor).reasons ∧
    "Matches testid hint" ∈ (scored ("testid:" ++ "save-all") now tabAnchor).reasons ∧
    "Matches testid hint" ∉
      (scored ("[data-testid=\"" ++ "save-all" ++ "\"]") now tabAnchor).reasons := by
  intro now
  have hhint : tabAnchor.hint = some { role := some "tab", testid := some "save" } := rfl
  have htab : IsName "tab" := .of_all (by decide) (by decide)
  have hbutton : IsName "button" := .of_all (by decide) (by decide)
  have hsave : IsName "save" := .of_all (by decide) (by decide)
  have hall : IsName "save-all" := .of_all (by decide) (by decide)
  obtain ⟨hrole, htestid⟩ := hints_reach hhint now
  have hequals := hrole "tab" "button" '=' rfl htab hbutton (.inr rfl) (some "role=tab")
  have hcolon := hrole "tab" "button" ':' rfl htab hbutton (.inl rfl) none
  have hmark := htestid "save" "save-all" rfl hsave hall
  refine ⟨hhint, ⟨htab, hbutton, hsave, hall⟩, ?named, ?other, ?marked, ?quoted⟩
  case named =>
    have hname : MentionsRole (singleQuotes "role=tab".toList ++ "'".toList) "tab".toList :=
      mentionsRole_iff.mpr (.inr (.inl ⟨[], "'".toList, by decide⟩))
    exact hequals.mpr (.inr ⟨"role=tab", rfl, hname⟩)
  case other =>
    rw [hcolon]
    rintro (hlead | ⟨text, hnone, -⟩)
    · exact absurd hlead (by decide)
    · exact absurd hnone (by simp)
  case marked => exact hmark.1.mpr (by decide)
  case quoted => exact fun h => absurd (hmark.2.mp h) (by decide)

/-- **Points for another name.**  The selector `role:tabpanel` gets the points of the role `tab`, and
`testid:save-all` those of the test identifier `save`. -/
theorem hints_reach_longer :
    let now : Moment := { date := ⟨2026, 6, 1⟩, offset := some 0 }
    (IsName "tab" ∧ IsName "tabpanel" ∧ IsName "save" ∧ IsName "save-all") ∧
    "Matches role hint" ∈ (scored "role:tabpanel" now tabAnchor).reasons ∧
    "Matches testid hint" ∈ (scored "testid:save-all" now tabAnchor).reasons := by
  intro now
  refine ⟨⟨.of_all ?_ ?_, .of_all ?_ ?_, .of_all ?_ ?_, .of_all ?_ ?_⟩,
    mem_reasons_iff.mpr (hint_mem_iff.1.mpr ?_), mem_reasons_iff.mpr (hint_mem_iff.2.mpr ?_)⟩ <;>
  decide

end Mooring.Anchor
