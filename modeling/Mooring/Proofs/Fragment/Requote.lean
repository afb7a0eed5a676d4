import Mooring.Proofs.Fragment.Layout

/-!
# Quotes: which values get double quotes

`requote` jumps from one single-quoted value to the next.  `requoteFrom` is the same pass as a walk
(`requoteFrom_text`): every character is kept or, if it is a single quote around such a value,
doubled, and where the walk stands is one of three modes.  Whether an equals sign opens a value
depends on what follows it only through `opensSingle`: blanks, a single quote, and a single quote as
the next quote of either kind.

Blanks never matter to that, so blanks may be put anywhere before or after requoting
(`requoteFrom_insert`).  After requoting no equals sign opens a single-quoted value
(`Requoted`, `requoted_requoteFrom`), and neither settling blanks nor rewording brings one back.
-/

namespace Mooring.Fragment

open Mooring.Text

/-! ## What opens a value -/

/-- The first quote in a text, of either kind. -/
def nextQuote? : List Char → Option Char
  | [] => none
  | c :: rest => if isQuote c then some c else nextQuote? rest

/-- After blanks the text goes on with a value in single quotes without quotes inside. -/
def opensSingle : List Char → Bool
  | [] => false
  | c :: rest => if isBlank c then opensSingle rest else c == '\'' && nextQuote? rest == some '\''

theorem isQuote_iff {c : Char} : isQuote c = true ↔ c = '\'' ∨ c = '"' := by
  simp only [isQuote, Bool.or_eq_true, beq_iff_eq]

theorem isQuote_of_isBlank {c : Char} (h : isBlank c = true) : isQuote c = false := by
  cases hq : isQuote c with
  | false => rfl
  | true =>
    rcases isQuote_iff.mp hq with rfl | rfl
    · exact absurd h (by decide)
    · exact absurd h (by decide)

theorem nextQuote?_cons_other {c : Char} (hc : isQuote c = false) (rest : List Char) :
    nextQuote? (c :: rest) = nextQuote? rest := by
  simp only [nextQuote?, hc, Bool.false_eq_true, if_false]

/-- What has no quotes does not hide the next one. -/
theorem nextQuote?_append {cs : List Char} (h : ∀ c ∈ cs, isQuote c = false) (rest : List Char) :
    nextQuote? (cs ++ rest) = nextQuote? rest := by
  induction cs with
  | nil => rfl
  | cons c cs ih =>
    rw [List.cons_append, nextQuote?_cons_other (h c (List.mem_cons_self ..))]
    exact ih fun d hd => h d (List.mem_cons_of_mem _ hd)

theorem opensSingle_cons_blank {c : Char} (hc : isBlank c = true) (rest : List Char) :
    opensSingle (c :: rest) = opensSingle rest := by
  simp only [opensSingle, hc, if_true]

theorem opensSingle_cons_solid {c : Char} (hc : isBlank c = false) (rest : List Char) :
    opensSingle (c :: rest) = (c == '\'' && nextQuote? rest == some '\'') := by
  simp only [opensSingle, hc, Bool.false_eq_true, if_false]

/-- The next quote after a text that opens a value in single quotes is a single one. -/
theorem nextQuote?_of_opensSingle {cs : List Char} (h : opensSingle cs = true) :
    nextQuote? cs = some '\'' := by
  induction cs with
  | nil => exact absurd h Bool.false_ne_true
  | cons c rest ih =>
    cases hc : isBlank c with
    | true =>
      rw [opensSingle_cons_blank hc] at h
      rw [nextQuote?_cons_other (isQuote_of_isBlank hc)]
      exact ih h
    | false =>
      rw [opensSingle_cons_solid hc, Bool.and_eq_true, beq_iff_eq] at h
      rw [h.1]
      rfl

/-- A text up to its next quote, that quote, and what follows. -/
theorem nextQuote?_split {cs : List Char} {q : Char} (h : nextQuote? cs = some q) :
    ∃ value after, cs = value ++ q :: after ∧ ∀ c ∈ value, isQuote c = false := by
  induction cs with
  | nil => simp [nextQuote?] at h
  | cons c rest ih =>
    cases hc : isQuote c with
    | true =>
      simp only [nextQuote?, hc, if_true, Option.some.injEq] at h
      exact ⟨[], rest, by rw [h]; rfl, by simp⟩
    | false =>
      rw [nextQuote?_cons_other hc] at h
      obtain ⟨value, after, rfl, hvalue⟩ := ih h
      refine ⟨c :: value, after, rfl, fun d hd => ?_⟩
      rcases List.mem_cons.mp hd with rfl | hd
      · exact hc
      · exact hvalue d hd

/-- A text that opens a value in single quotes: the blanks, the value, and what follows. -/
theorem opensSingle_split {cs : List Char} (h : opensSingle cs = true) :
    ∃ blanks value after, cs = blanks ++ '\'' :: (value ++ '\'' :: after) ∧
      (∀ c ∈ blanks, isBlank c = true) ∧ ∀ c ∈ value, isQuote c = false := by
  induction cs with
  | nil => exact absurd h Bool.false_ne_true
  | cons c rest ih =>
    cases hc : isBlank c with
    | true =>
      rw [opensSingle_cons_blank hc] at h
      obtain ⟨blanks, value, after, rfl, hblanks, hvalue⟩ := ih h
      refine ⟨c :: blanks, value, after, rfl, fun d hd => ?_, hvalue⟩
      rcases List.mem_cons.mp hd with rfl | hd
      · exact hc
      · exact hblanks d hd
    | false =>
      rw [opensSingle_cons_solid hc, Bool.and_eq_true, beq_iff_eq, beq_iff_eq] at h
      obtain ⟨rfl, hnext⟩ := h
      obtain ⟨value, after, rfl, hvalue⟩ := nextQuote?_split hnext
      exact ⟨[], value, after, rfl, by simp, hvalue⟩

/-- `singleQuoted?` finds a value where one stands. -/
theorem singleQuoted?_value {blanks value : List Char} (hblanks : ∀ c ∈ blanks, isBlank c = true)
    (hvalue : ∀ c ∈ value, isQuote c = false) (after : List Char) :
    singleQuoted? (blanks ++ '\'' :: (value ++ '\'' :: after)) = some (blanks, value, after) := by
  have hvalue' : ∀ c ∈ value, (!isQuote c) = true := by simpa using hvalue
  have hquote : (!isQuote '\'') = false := by decide
  rw [singleQuoted?, List.dropWhile_append_of_pos hblanks, List.takeWhile_append_of_pos hblanks,
    List.dropWhile_cons_of_neg (by decide), List.takeWhile_cons_of_neg (by decide)]
  simp only [List.dropWhile_append_of_pos hvalue', List.takeWhile_append_of_pos hvalue']
  rw [List.dropWhile_cons_of_neg (by simp [hquote]), List.takeWhile_cons_of_neg (by simp [hquote]),
    List.append_nil, List.append_nil]
  rfl

/-- Where `singleQuoted?` finds no value, none opens. -/
theorem singleQuoted?_eq_none {cs : List Char} (h : singleQuoted? cs = none) :
    opensSingle cs = false := by
  cases hopen : opensSingle cs with
  | false => rfl
  | true =>
    obtain ⟨blanks, value, after, rfl, hblanks, hvalue⟩ := opensSingle_split hopen
    rw [singleQuoted?_value hblanks hvalue] at h
    simp at h

/-- The parts that `singleQuoted?` finds make up the text. -/
theorem singleQuoted?_eq_some {cs blanks value after : List Char}
    (h : singleQuoted? cs = some (blanks, value, after)) :
    cs = blanks ++ '\'' :: (value ++ '\'' :: after) ∧ (∀ c ∈ blanks, isBlank c = true) ∧
      ∀ c ∈ value, isQuote c = false := by
  unfold singleQuoted? at h
  split at h
  next inner hinner =>
    split at h
    next rest hrest =>
      simp only [Option.some.injEq, Prod.mk.injEq] at h
      obtain ⟨rfl, rfl, rfl⟩ := h
      refine ⟨?_, fun c hc => List.mem_takeWhile_imp hc, fun c hc => ?_⟩
      · rw [← hrest, List.takeWhile_append_dropWhile, ← hinner, List.takeWhile_append_dropWhile]
      · simpa using List.mem_takeWhile_imp hc
    next => simp at h
  next => simp at h

/-! ## Requoting as a walk -/

/-- Where the walk stands. -/
inductive QuoteMode
  /-- Outside every value in single quotes. -/
  | text
  /-- After an equals sign, before the quote that opens a value. -/
  | opening
  /-- Inside a value. -/
  | value
  deriving DecidableEq

/-- What becomes of a character. -/
def QuoteMode.write (mode : QuoteMode) (c : Char) : Char :=
  if mode ≠ .text ∧ c = '\'' then '"' else c

/-- Where the walk stands after a character that `rest` follows. -/
def QuoteMode.next (mode : QuoteMode) (c : Char) (rest : List Char) : QuoteMode :=
  match mode with
  | .text => if c == '=' && opensSingle rest then .opening else .text
  | .opening => if c = '\'' then .value else .opening
  | .value => if c = '\'' then .text else .value

/-- The pass as a walk. -/
def requoteFrom (mode : QuoteMode) : List Char → List Char
  | [] => []
  | c :: rest => mode.write c :: requoteFrom (mode.next c rest) rest

/-- The walk passes over characters that change neither themselves nor the mode. -/
theorem requoteFrom_append (mode : QuoteMode) {cs rest : List Char}
    (h : ∀ before c after, cs = before ++ c :: after →
      mode.write c = c ∧ mode.next c (after ++ rest) = mode) :
    requoteFrom mode (cs ++ rest) = cs ++ requoteFrom mode rest := by
  induction cs with
  | nil => rfl
  | cons c cs ih =>
    obtain ⟨hwrite, hnext⟩ := h [] c cs rfl
    rw [List.cons_append, requoteFrom, hwrite, hnext, List.cons_append, ih]
    intro before d after hsplit
    exact h (c :: before) d after (by rw [hsplit]; rfl)

/-- Outside the text mode only single quotes matter. -/
theorem QuoteMode.pass {mode : QuoteMode} (hmode : mode ≠ .text) {c : Char} (hc : c ≠ '\'')
    (rest : List Char) : mode.write c = c ∧ mode.next c rest = mode := by
  refine ⟨by simp [QuoteMode.write, hc], ?_⟩
  cases mode with
  | text => exact absurd rfl hmode
  | opening => simp [QuoteMode.next, hc]
  | value => simp [QuoteMode.next, hc]

theorem ne_single_of_isQuote {c : Char} (h : isQuote c = false) : c ≠ '\'' := by
  rintro rfl
  exact absurd h (by decide)

/-- A whole value on the walk. -/
theorem requoteFrom_value {blanks value : List Char} (hblanks : ∀ c ∈ blanks, isBlank c = true)
    (hvalue : ∀ c ∈ value, isQuote c = false) (after : List Char) :
    requoteFrom .opening (blanks ++ '\'' :: (value ++ '\'' :: after)) =
      blanks ++ '"' :: (value ++ '"' :: requoteFrom .text after) := by
  rw [requoteFrom_append .opening]
  · rw [requoteFrom]
    show blanks ++ '"' :: requoteFrom .value (value ++ '\'' :: after) = _
    rw [requoteFrom_append .value]
    · rfl
    · intro before c rest hsplit
      have hc := hvalue c (by rw [hsplit]; simp)
      exact QuoteMode.pass (by simp) (ne_single_of_isQuote hc) _
  · intro before c rest hsplit
    have hc := hblanks c (by rw [hsplit]; simp)
    exact QuoteMode.pass (by simp) (ne_single_of_isQuote (isQuote_of_isBlank hc)) _

theorem opensSingle_value {blanks value : List Char} (hblanks : ∀ c ∈ blanks, isBlank c = true)
    (hvalue : ∀ c ∈ value, isQuote c = false) (after : List Char) :
    opensSingle (blanks ++ '\'' :: (value ++ '\'' :: after)) = true := by
  induction blanks with
  | nil =>
    rw [List.nil_append, opensSingle_cons_solid (by decide), nextQuote?_append hvalue]
    rfl
  | cons c blanks ih =>
    rw [List.cons_append, opensSingle_cons_blank (hblanks c (List.mem_cons_self ..))]
    exact ih fun d hd => hblanks d (List.mem_cons_of_mem _ hd)

theorem QuoteMode.next_text_other {c : Char} (hc : c ≠ '=') (rest : List Char) :
    QuoteMode.text.next c rest = .text := by
  simp [QuoteMode.next, hc]

theorem QuoteMode.write_text (c : Char) : QuoteMode.text.write c = c := by
  simp [QuoteMode.write]

/-- **The walk is the pass.** -/
theorem requoteFrom_text (cs : List Char) : requoteFrom .text cs = requote cs := by
  fun_induction requote cs with
  | case1 => rfl
  | case2 c rest hc blanks value after hfound ih =>
    obtain ⟨rfl, hblanks, hvalue⟩ := singleQuoted?_eq_some hfound
    rw [requoteFrom, QuoteMode.write_text, beq_iff_eq.mp hc, QuoteMode.next,
      opensSingle_value hblanks hvalue]
    show '=' :: requoteFrom .opening _ = _
    -- The pass jumps over the value; the walk goes through it in its other two modes.
    rw [requoteFrom_value hblanks hvalue, ih]
    simp
  | case3 c rest hc hnone ih =>
    rw [requoteFrom, QuoteMode.write_text, beq_iff_eq.mp hc, QuoteMode.next,
      singleQuoted?_eq_none hnone]
    show '=' :: requoteFrom .text rest = _
    rw [ih]
  | case4 c rest hc ih =>
    rw [requoteFrom, QuoteMode.write_text,
      QuoteMode.next_text_other (fun he => hc (beq_iff_eq.mpr he)), ih]

/-! ## Blanks do not matter to it -/

theorem nextQuote?_blanks {w : List Char} (hw : ∀ c ∈ w, isBlank c = true) (u v : List Char) :
    nextQuote? (u ++ (w ++ v)) = nextQuote? (u ++ v) := by
  induction u with
  | nil => exact nextQuote?_append (fun c hc => isQuote_of_isBlank (hw c hc)) v
  | cons c u ih =>
    rw [List.cons_append, List.cons_append, nextQuote?, nextQuote?, ih]

theorem opensSingle_blanks {w : List Char} (hw : ∀ c ∈ w, isBlank c = true) (u v : List Char) :
    opensSingle (u ++ (w ++ v)) = opensSingle (u ++ v) := by
  induction u with
  | nil =>
    induction w with
    | nil => rfl
    | cons c w ih =>
      show opensSingle (c :: (w ++ v)) = opensSingle v
      rw [opensSingle_cons_blank (hw c (List.mem_cons_self ..))]
      exact ih fun d hd => hw d (List.mem_cons_of_mem _ hd)
  | cons c u ih =>
    rw [List.cons_append, List.cons_append, opensSingle, opensSingle, ih, nextQuote?_blanks hw]

theorem QuoteMode.next_blanks {w : List Char} (hw : ∀ c ∈ w, isBlank c = true) (mode : QuoteMode)
    (c : Char) (u v : List Char) : mode.next c (u ++ (w ++ v)) = mode.next c (u ++ v) := by
  cases mode with
  | text => rw [QuoteMode.next, QuoteMode.next, opensSingle_blanks hw]
  | opening => rfl
  | value => rfl

/-- A blank changes neither itself nor the mode. -/
theorem QuoteMode.pass_blank (mode : QuoteMode) {c : Char} (hc : isBlank c = true)
    (rest : List Char) : mode.write c = c ∧ mode.next c rest = mode := by
  cases mode with
  | text =>
    refine ⟨QuoteMode.write_text c, QuoteMode.next_text_other ?_ rest⟩
    rintro rfl
    exact absurd hc (by decide)
  | opening => exact QuoteMode.pass (by simp) (ne_single_of_isQuote (isQuote_of_isBlank hc)) rest
  | value => exact QuoteMode.pass (by simp) (ne_single_of_isQuote (isQuote_of_isBlank hc)) rest

theorem requoteFrom_blanks {w : List Char} (hw : ∀ c ∈ w, isBlank c = true) (mode : QuoteMode)
    (v : List Char) : requoteFrom mode (w ++ v) = w ++ requoteFrom mode v := by
  refine requoteFrom_append _ fun before c after hsplit => ?_
  exact QuoteMode.pass_blank mode (hw c (by rw [hsplit]; simp)) _

/-- What is written for a blank or for punctuation is that character. -/
theorem QuoteMode.write_loose (mode : QuoteMode) {c : Char}
    (hc : isLoose c = true) : mode.write c = c := by
  have hne : c ≠ '\'' := by
    rintro rfl
    exact absurd hc (by decide)
  simp [QuoteMode.write, hne]

/-- Requoting keeps a blank or punctuation at the start. -/
theorem startsLoose_requoteFrom (mode : QuoteMode) {v : List Char} (h : startsLoose v = true) :
    startsLoose (requoteFrom mode v) = true := by
  cases v with
  | nil => rfl
  | cons c v =>
    rw [requoteFrom, mode.write_loose h]
    exact h

/-- **Blanks put into a text stay where they are put.**  What comes before them is requoted without
regard to them, and it still ends in a blank or in punctuation if it did. -/
theorem requoteFrom_insert {w : List Char} (hw : ∀ c ∈ w, isBlank c = true) (v : List Char) :
    ∀ (u : List Char) (mode : QuoteMode), ∃ u' mode',
      requoteFrom mode (u ++ v) = u' ++ requoteFrom mode' v ∧
      requoteFrom mode (u ++ (w ++ v)) = u' ++ (w ++ requoteFrom mode' v) ∧
      ∀ loose, looseAfter loose u = true → looseAfter loose u' = true := by
  intro u
  induction u with
  | nil =>
    intro mode
    exact ⟨[], mode, rfl, requoteFrom_blanks hw mode v, fun _ h => h⟩
  | cons c u ih =>
    intro mode
    obtain ⟨u', mode', hwithout, hwith, hloose⟩ := ih (mode.next c (u ++ v))
    refine ⟨mode.write c :: u', mode', ?_, ?_, fun loose h => ?_⟩
    · rw [List.cons_append, requoteFrom, hwithout, List.cons_append]
    · rw [List.cons_append, requoteFrom, QuoteMode.next_blanks hw, hwith, List.cons_append]
    · simp only [looseAfter] at h ⊢
      cases hc : isLoose c with
      | true =>
        rw [mode.write_loose hc, hc]
        rw [hc] at h
        exact hloose true h
      | false =>
        rw [hc] at h
        exact looseAfter_of_false (hloose false h) _

/-! ## Nothing is left to requote -/

/-- No equals sign opens a value in single quotes. -/
def Requoted : List Char → Prop
  | [] => True
  | c :: rest => (c = '=' → opensSingle rest = false) ∧ Requoted rest

theorem requoteFrom_of_requoted {cs : List Char} (h : Requoted cs) : requoteFrom .text cs = cs := by
  induction cs with
  | nil => rfl
  | cons c rest ih =>
    have hnext : QuoteMode.text.next c rest = .text := by
      by_cases hc : c = '='
      · simp [QuoteMode.next, h.1 hc]
      · exact QuoteMode.next_text_other hc rest
    rw [requoteFrom, QuoteMode.write_text, hnext, ih h.2]

/-- What the walk may rely on: a value that it stands before, or in, is there. -/
def QuoteMode.Holds : QuoteMode → List Char → Prop
  | .text, _ => True
  | .opening, cs => opensSingle cs = true
  | .value, cs => nextQuote? cs = some '\''

theorem QuoteMode.holds_next {mode : QuoteMode} {c : Char} {rest : List Char}
    (h : mode.Holds (c :: rest)) : (mode.next c rest).Holds rest := by
  cases mode with
  | text =>
    rw [QuoteMode.next]
    split
    next hopen => exact (Bool.and_eq_true _ _ ▸ hopen).2
    next => trivial
  | opening =>
    replace h : opensSingle (c :: rest) = true := h
    rw [QuoteMode.next]
    cases hc : isBlank c with
    | true =>
      rw [if_neg (ne_single_of_isQuote (isQuote_of_isBlank hc)), QuoteMode.Holds]
      rwa [opensSingle_cons_blank hc] at h
    | false =>
      rw [opensSingle_cons_solid hc, Bool.and_eq_true, beq_iff_eq, beq_iff_eq] at h
      rw [if_pos h.1]
      exact h.2
  | value =>
    replace h : nextQuote? (c :: rest) = some '\'' := h
    rw [QuoteMode.next]
    split
    next => trivial
    next hc =>
      have hquote : isQuote c = false := by
        cases hq : isQuote c with
        | false => rfl
        | true =>
          simp only [nextQuote?, hq, if_true, Option.some.injEq] at h
          exact absurd h hc
      rwa [nextQuote?_cons_other hquote] at h

/-- Before and in a value the next quote is written double. -/
theorem nextQuote?_value {mode : QuoteMode} (hmode : mode ≠ .text) :
    ∀ cs, nextQuote? cs = some '\'' → nextQuote? (requoteFrom mode cs) = some '"' := by
  intro cs
  induction cs with
  | nil => intro h; simp [nextQuote?] at h
  | cons c rest ih =>
    intro h
    rw [requoteFrom]
    cases hc : isQuote c with
    | true =>
      simp only [nextQuote?, hc, if_true, Option.some.injEq] at h
      have hwrite : mode.write c = '"' := by simp [QuoteMode.write, hmode, h]
      rw [hwrite]
      rfl
    | false =>
      obtain ⟨hwrite, hnext⟩ := QuoteMode.pass hmode (ne_single_of_isQuote hc) rest
      rw [nextQuote?_cons_other hc] at h
      rw [hwrite, hnext, nextQuote?_cons_other hc]
      exact ih h

/-- A next quote that is single after the walk was single before it. -/
theorem nextQuote?_requoteFrom :
    ∀ (cs : List Char) (mode : QuoteMode), nextQuote? (requoteFrom mode cs) = some '\'' →
      nextQuote? cs = some '\'' := by
  intro cs
  induction cs with
  | nil => intro _ h; simp [requoteFrom, nextQuote?] at h
  | cons c rest ih =>
    intro mode h
    rw [requoteFrom] at h
    cases hc : isQuote c with
    | true =>
      rcases isQuote_iff.mp hc with rfl | rfl
      · rfl
      · have hwrite : mode.write '"' = '"' := by simp [QuoteMode.write]
        rw [hwrite] at h
        simp only [nextQuote?, isQuote, beq_self_eq_true, Bool.or_true, if_true,
          Option.some.injEq] at h
        exact absurd h (by decide)
    | false =>
      have hwrite : mode.write c = c := by
        simp [QuoteMode.write, ne_single_of_isQuote hc]
      rw [hwrite, nextQuote?_cons_other hc] at h
      rw [nextQuote?_cons_other hc]
      exact ih _ h

/-- A value that opens after the walk, outside of values, opened before it. -/
theorem opensSingle_requoteFrom :
    ∀ cs, opensSingle (requoteFrom .text cs) = true → opensSingle cs = true := by
  intro cs
  induction cs with
  | nil => intro h; exact h
  | cons c rest ih =>
    intro h
    rw [requoteFrom, QuoteMode.write_text] at h
    cases hc : isBlank c with
    | true =>
      rw [(QuoteMode.pass_blank .text hc rest).2, opensSingle_cons_blank hc] at h
      rw [opensSingle_cons_blank hc]
      exact ih h
    | false =>
      rw [opensSingle_cons_solid hc, Bool.and_eq_true, beq_iff_eq, beq_iff_eq] at h
      rw [opensSingle_cons_solid hc, h.1, nextQuote?_requoteFrom rest _ h.2]
      rfl

/-- **After requoting no equals sign opens a value in single quotes.** -/
theorem requoted_requoteFrom :
    ∀ (cs : List Char) (mode : QuoteMode), mode.Holds cs → Requoted (requoteFrom mode cs) := by
  intro cs
  induction cs with
  | nil => intro _ _; trivial
  | cons c rest ih =>
    intro mode h
    have hrest := mode.holds_next h
    refine ⟨fun he => ?_, ih _ hrest⟩
    -- A doubled quote is no equals sign, so this one was kept.
    have hc : c = '=' := by
      by_contra hne
      rw [QuoteMode.write] at he
      split at he
      · exact absurd he (by decide)
      · exact hne he
    subst hc
    -- Before and in a value the next quote comes out double, so nothing opens here.
    have hclosed : ∀ {m : QuoteMode}, m ≠ .text → nextQuote? rest = some '\'' →
        opensSingle (requoteFrom m rest) = false := by
      intro m hm hquote
      cases hopen : opensSingle (requoteFrom m rest) with
      | false => rfl
      | true =>
        have hdouble := nextQuote?_value hm rest hquote
        rw [nextQuote?_of_opensSingle hopen] at hdouble
        exact absurd hdouble (by decide)
    cases mode with
    | text =>
      rw [QuoteMode.next]
      cases hopen : opensSingle rest with
      | true => exact hclosed (by simp) (nextQuote?_of_opensSingle hopen)
      | false =>
        -- No value opened here before the walk, so none does afterwards.
        cases hout : opensSingle (requoteFrom .text rest) with
        | false => exact hout
        | true => exact absurd (opensSingle_requoteFrom rest hout) (by simp [hopen])
    | opening => exact hclosed (by simp [QuoteMode.next]) (nextQuote?_of_opensSingle hrest)
    | value => exact hclosed (by simp [QuoteMode.next]) hrest

/-! ## Settling and rewording bring no value back -/

theorem nextQuote?_settle (cs : List Char) :
    ∀ loose, nextQuote? (settle loose cs) = nextQuote? cs := by
  induction cs with
  | nil => intro _; rfl
  | cons c rest ih =>
    intro loose
    cases hc : isBlank c with
    | true =>
      rw [settle_cons_blank hc, nextQuote?_cons_other (isQuote_of_isBlank hc)]
      split
      · exact ih true
      · rw [nextQuote?_cons_other (by decide), ih]
    | false => rw [settle_cons_solid hc, nextQuote?, nextQuote?, ih]

theorem opensSingle_settle (cs : List Char) :
    ∀ loose, opensSingle (settle loose cs) = opensSingle cs := by
  induction cs with
  | nil => intro _; rfl
  | cons c rest ih =>
    intro loose
    cases hc : isBlank c with
    | true =>
      rw [settle_cons_blank hc, opensSingle_cons_blank hc]
      split
      · exact ih true
      · rw [opensSingle_cons_blank (by decide), ih]
    | false =>
      rw [settle_cons_solid hc, opensSingle_cons_solid hc, opensSingle_cons_solid hc,
        nextQuote?_settle]

theorem Requoted.settle {cs : List Char} (h : Requoted cs) :
    ∀ loose, Requoted (settle loose cs) := by
  induction cs with
  | nil => intro _; trivial
  | cons c rest ih =>
    intro loose
    cases hc : isBlank c with
    | true =>
      rw [settle_cons_blank hc]
      split
      · exact ih h.2 true
      · exact ⟨fun he => absurd he (by decide), ih h.2 true⟩
    | false =>
      rw [settle_cons_solid hc]
      exact ⟨fun he => by rw [opensSingle_settle, h.1 he], ih h.2 _⟩

theorem Reworded.nextQuote?_eq {cs ds : List Char} (h : Reworded cs ds) :
    nextQuote? ds = nextQuote? cs := by
  induction h with
  | nil => rfl
  | keep c h ih => rw [nextQuote?, nextQuote?, ih]
  | word hne hne' hplain hplain' h ih =>
    rw [nextQuote?_append (fun c hc => (isPlain_cases (hplain c hc)).2.2),
      nextQuote?_append (fun c hc => (isPlain_cases (hplain' c hc)).2.2), ih]

/-- No value opens at a plain run. -/
theorem opensSingle_plain {name : List Char} (hne : name ≠ [])
    (hplain : ∀ c ∈ name, isPlain c = true) (cs : List Char) :
    opensSingle (name ++ cs) = false := by
  cases name with
  | nil => exact absurd rfl hne
  | cons c name =>
    obtain ⟨hblank, -, hquote⟩ := isPlain_cases (hplain c (List.mem_cons_self ..))
    rw [List.cons_append, opensSingle_cons_solid hblank]
    simp [ne_single_of_isQuote hquote]

theorem Reworded.opensSingle_eq {cs ds : List Char} (h : Reworded cs ds) :
    opensSingle ds = opensSingle cs := by
  induction h with
  | nil => rfl
  | keep c h ih => rw [opensSingle, opensSingle, ih, h.nextQuote?_eq]
  | word hne hne' hplain hplain' h ih =>
    rw [opensSingle_plain hne hplain, opensSingle_plain hne' hplain']

theorem requoted_plain {name : List Char} (hplain : ∀ c ∈ name, isPlain c = true)
    (cs : List Char) : Requoted (name ++ cs) ↔ Requoted cs := by
  induction name with
  | nil => exact Iff.rfl
  | cons c name ih =>
    have hc : c ≠ '=' := by
      rintro rfl
      exact absurd (hplain '=' (List.mem_cons_self ..)) (by decide)
    rw [← ih fun d hd => hplain d (List.mem_cons_of_mem _ hd)]
    exact ⟨fun h => h.2, fun h => ⟨fun he => absurd he hc, h⟩⟩

/-- Rewording keeps a text requoted. -/
theorem Reworded.requoted {cs ds : List Char} (h : Reworded cs ds) (hcs : Requoted cs) :
    Requoted ds := by
  induction h with
  | nil => trivial
  | keep c h ih => exact ⟨fun he => by rw [h.opensSingle_eq, hcs.1 he], ih hcs.2⟩
  | word hne hne' hplain hplain' h ih =>
    exact (requoted_plain hplain' _).mpr (ih ((requoted_plain hplain _).mp hcs))

/-! ## A value by itself -/

/-- No equals sign of the text is followed, over blanks, by a single quote. -/
def SingleFree (u : List Char) : Prop :=
  ∀ before after, u = before ++ '=' :: after → (after.dropWhile isBlank).head? ≠ some '\''

/-- No value opens in front of an equals sign that `SingleFree` says nothing against. -/
theorem opensSingle_of_singleFree {cs : List Char}
    (h : (cs.dropWhile isBlank).head? ≠ some '\'') (rest : List Char) :
    opensSingle (cs ++ '=' :: rest) = false := by
  induction cs with
  | nil => rw [List.nil_append, opensSingle_cons_solid (by decide)]; rfl
  | cons c cs ih =>
    cases hc : isBlank c with
    | true =>
      rw [List.dropWhile_cons_of_pos hc] at h
      rw [List.cons_append, opensSingle_cons_blank hc, ih h]
    | false =>
      rw [List.dropWhile_cons_of_neg (by simp [hc]), List.head?_cons] at h
      rw [List.cons_append, opensSingle_cons_solid hc]
      have hne : c ≠ '\'' := fun he => h (by rw [he])
      simp [hne]

/-- The walk passes over a text without single-quoted values that stands before an equals sign. -/
theorem requoteFrom_singleFree {u : List Char} (h : SingleFree u) (rest : List Char) :
    requoteFrom .text (u ++ '=' :: rest) = u ++ requoteFrom .text ('=' :: rest) := by
  refine requoteFrom_append _ fun before c after hsplit => ⟨QuoteMode.write_text c, ?_⟩
  by_cases hc : c = '='
  · subst hc
    rw [QuoteMode.next, opensSingle_of_singleFree (h before after hsplit)]
    rfl
  · exact QuoteMode.next_text_other hc _

/-- The walk passes over a value whose end is a double quote. -/
theorem requoteFrom_double {x : List Char} (hx : ∀ c ∈ x, isQuote c = false) (rest : List Char) :
    requoteFrom .text (x ++ '"' :: rest) = x ++ '"' :: requoteFrom .text rest := by
  rw [requoteFrom_append .text]
  · rfl
  · intro before c after hsplit
    refine ⟨QuoteMode.write_text c, ?_⟩
    have hafter : ∀ d ∈ after, isQuote d = false := fun d hd => hx d (by rw [hsplit]; simp [hd])
    -- The next quote is the double one at the end, so no equals sign opens a value.
    have hclosed : opensSingle (after ++ '"' :: rest) = false := by
      cases hopen : opensSingle (after ++ '"' :: rest) with
      | false => rfl
      | true =>
        have hquote := nextQuote?_of_opensSingle hopen
        rw [nextQuote?_append hafter] at hquote
        exact absurd hquote (by simp [nextQuote?, isQuote])
    simp [QuoteMode.next, hclosed]

/-- **A value in single quotes requotes to what the same value in double quotes does.** -/
theorem requote_value {u x : List Char} (hu : SingleFree u) (hx : ∀ c ∈ x, isQuote c = false)
    (r : List Char) :
    requote (u ++ '=' :: '\'' :: (x ++ '\'' :: r)) =
      requote (u ++ '=' :: '"' :: (x ++ '"' :: r)) := by
  have hnone : ∀ c ∈ ([] : List Char), isBlank c = true := by simp
  rw [← requoteFrom_text, ← requoteFrom_text, requoteFrom_singleFree hu, requoteFrom_singleFree hu]
  congr 1
  have hsingle : QuoteMode.text.next '=' ('\'' :: (x ++ '\'' :: r)) = .opening := by
    rw [QuoteMode.next]
    exact if_pos (opensSingle_value hnone hx r)
  have hdouble : QuoteMode.text.next '=' ('"' :: (x ++ '"' :: r)) = .text := by
    rw [QuoteMode.next, opensSingle_cons_solid (by decide)]
    rfl
  calc requoteFrom .text ('=' :: '\'' :: (x ++ '\'' :: r))
      = '=' :: requoteFrom .opening ('\'' :: (x ++ '\'' :: r)) := by
        rw [requoteFrom, hsingle, QuoteMode.write_text]
    _ = '=' :: '"' :: (x ++ '"' :: requoteFrom .text r) := by
        rw [← List.nil_append ('\'' :: _), requoteFrom_value hnone hx]
        rfl
    _ = '=' :: '"' :: requoteFrom .text (x ++ '"' :: r) := by rw [requoteFrom_double hx]
    _ = requoteFrom .text ('=' :: '"' :: (x ++ '"' :: r)) := by
        rw [requoteFrom, hdouble, QuoteMode.write_text, requoteFrom, QuoteMode.write_text,
          QuoteMode.next_text_other (by decide)]

end Mooring.Fragment
