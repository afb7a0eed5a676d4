import Mooring.Proofs.Fragment.Plain

/-!
# Layout: where blanks stay and where they go

The passes `squeeze` and `tighten` work on runs of blanks and on neighbours of punctuation.  Taken
together they are one walk over the text, `settle`: a run of blanks becomes one space if there is
something on both sides of it that is no punctuation, and nothing otherwise (`tighten_squeeze`).

Two facts follow.  Blanks put where blanks mean nothing change nothing (`settle_insert`), which is
the first half of "formatting does not matter".  And a text without loose blanks (`Tidy`) is left
alone (`settle_of_tidy`); settling makes a text tidy and rewording keeps it so (`tidy_settle`,
`Reworded.tidy`), which is the layout's share in idempotence.
-/

namespace Mooring.Fragment

open Mooring.Text

/-! ## Squeezing, character by character -/

theorem words_cons_blank {c : Char} (hc : isBlank c = true) (rest : List Char) :
    words (c :: rest) = words rest := by
  simp only [words, runs, firstRun, hc, if_true]
  rfl

theorem words_cons_solid {c : Char} (hc : isBlank c = false) (rest : List Char) :
    words (c :: rest) = (c :: (firstRun isBlank rest).1) :: (firstRun isBlank rest).2 := by
  simp only [words, runs, firstRun, hc, Bool.false_eq_true, if_false]
  rfl

/-- Only a text of blanks has no words. -/
theorem words_eq_nil_iff (cs : List Char) : words cs = [] ↔ ∀ c ∈ cs, isBlank c = true := by
  induction cs with
  | nil => simp [words, runs, firstRun, consRun]
  | cons c rest ih =>
    cases hc : isBlank c with
    | true =>
      rw [words_cons_blank hc, ih]
      simp [hc]
    | false =>
      rw [words_cons_solid hc]
      simp [hc]

/-- Blanks in front of a text leave no trace. -/
theorem squeeze_cons_blank {c : Char} (hc : isBlank c = true) (rest : List Char) :
    squeeze (c :: rest) = squeeze rest := by
  rw [squeeze, words_cons_blank hc]
  rfl

/-- Before blanks only, a character is all that is left. -/
theorem squeeze_cons_last {c : Char} (hc : isBlank c = false) {rest : List Char}
    (hrest : ∀ d ∈ rest, isBlank d = true) : squeeze (c :: rest) = [c] := by
  have hwords : words (c :: rest) = [[c]] := by
    rw [words_cons_solid hc]
    cases rest with
    | nil => rfl
    | cons d more =>
      have hd := hrest d (List.mem_cons_self ..)
      have hlater := (words_eq_nil_iff (d :: more)).mpr hrest
      simp only [words, runs] at hlater
      simp only [firstRun, hd, if_true] at hlater ⊢
      exact congrArg (List.cons [c]) hlater
  rw [squeeze, hwords]
  rfl

/-- Before blanks with something after them, a character gets one space. -/
theorem squeeze_cons_blanks {c d : Char} (hc : isBlank c = false) (hd : isBlank d = true)
    {rest : List Char} (hrest : ¬ ∀ e ∈ rest, isBlank e = true) :
    squeeze (c :: d :: rest) = c :: ' ' :: squeeze rest := by
  have hwords : words (c :: d :: rest) = [c] :: words rest := by
    rw [words_cons_solid hc]
    simp only [firstRun, hd, if_true]
    rfl
  rw [squeeze, hwords, squeeze]
  cases hw : words rest with
  | nil => exact absurd ((words_eq_nil_iff rest).mp hw) hrest
  | cons word more => rfl

/-- Before another character that is no blank, a character joins that one's word. -/
theorem squeeze_cons_solid {c d : Char} (hc : isBlank c = false) (hd : isBlank d = false)
    (rest : List Char) : squeeze (c :: d :: rest) = c :: squeeze (d :: rest) := by
  rw [squeeze, squeeze, words_cons_solid hc, words_cons_solid hd]
  simp only [firstRun, hd, Bool.false_eq_true, if_false]
  cases (firstRun isBlank rest).2 with
  | nil => rfl
  | cons word more => rfl

/-! ## One walk for both passes -/

/-- Blanks at the start of this text mean nothing: no more than punctuation, or the end, comes after
them. -/
def atEdge : List Char → Bool
  | [] => true
  | c :: rest => if isBlank c then atEdge rest else isPunctuation c

/-- Settles the blanks of a text.  `loose` says that a blank here means nothing because of what
comes before it: the start, punctuation, or a blank already settled. -/
def settle (loose : Bool) : List Char → List Char
  | [] => []
  | c :: rest =>
    if isBlank c then
      if loose || atEdge rest then settle true rest else ' ' :: settle true rest
    else c :: settle (isPunctuation c) rest

@[simp] theorem settle_nil (loose : Bool) : settle loose [] = [] := rfl

theorem settle_cons_blank {c : Char} (hc : isBlank c = true) (loose : Bool) (rest : List Char) :
    settle loose (c :: rest) =
      if loose || atEdge rest then settle true rest else ' ' :: settle true rest := by
  simp only [settle, hc, if_true]

theorem settle_cons_solid {c : Char} (hc : isBlank c = false) (loose : Bool) (rest : List Char) :
    settle loose (c :: rest) = c :: settle (isPunctuation c) rest := by
  simp only [settle, hc, Bool.false_eq_true, if_false]

theorem atEdge_cons_blank {c : Char} (hc : isBlank c = true) (rest : List Char) :
    atEdge (c :: rest) = atEdge rest := by
  simp only [atEdge, hc, if_true]

theorem atEdge_cons_solid {c : Char} (hc : isBlank c = false) (rest : List Char) :
    atEdge (c :: rest) = isPunctuation c := by
  simp only [atEdge, hc, Bool.false_eq_true, if_false]

/-- Nothing is left of blanks at the end. -/
theorem settle_of_blanks {cs : List Char} (h : ∀ c ∈ cs, isBlank c = true) (loose : Bool) :
    settle loose cs = [] ∧ atEdge cs = true := by
  induction cs generalizing loose with
  | nil => exact ⟨rfl, rfl⟩
  | cons c rest ih =>
    have hc := h c (List.mem_cons_self ..)
    have hrest := ih fun d hd => h d (List.mem_cons_of_mem _ hd)
    rw [settle_cons_blank hc, atEdge_cons_blank hc, (hrest true).2, (hrest true).1]
    simp

/-- Before an edge it does not matter what comes before. -/
theorem settle_of_atEdge {cs : List Char} (h : atEdge cs = true) (loose : Bool) :
    settle loose cs = settle true cs := by
  cases cs with
  | nil => rfl
  | cons c rest =>
    cases hc : isBlank c with
    | true =>
      rw [atEdge_cons_blank hc] at h
      rw [settle_cons_blank hc, settle_cons_blank hc, h]
      simp
    | false => rw [settle_cons_solid hc, settle_cons_solid hc]

/-- The squeezed text is at an edge where the text is, unless it is all blank. -/
theorem startsTight_squeeze {cs : List Char} (h : ¬ ∀ c ∈ cs, isBlank c = true) :
    startsTight (squeeze cs) = atEdge cs := by
  induction cs with
  | nil => exact absurd (by simp) h
  | cons c rest ih =>
    cases hc : isBlank c with
    | true =>
      rw [squeeze_cons_blank hc, atEdge_cons_blank hc]
      refine ih fun hrest => h fun d hd => ?_
      rcases List.mem_cons.mp hd with rfl | hd
      · exact hc
      · exact hrest d hd
    | false =>
      rw [atEdge_cons_solid hc]
      cases rest with
      | nil =>
        rw [squeeze_cons_last hc (by simp)]
        rfl
      | cons d more =>
        cases hd : isBlank d with
        | false =>
          rw [squeeze_cons_solid hc hd]
          rfl
        | true =>
          -- A single space stands for the blanks, unless they end the text.
          by_cases hmore : ∀ e ∈ more, isBlank e = true
          · rw [squeeze_cons_last hc (by simpa [hd] using hmore)]
            rfl
          · rw [squeeze_cons_blanks hc hd hmore]
            rfl

/-- Tightening a squeezed text settles it, whatever came before: a squeezed text starts with no
blank. -/
theorem tightenFrom_squeeze (cs : List Char) :
    ∀ afterPunctuation : Bool, tightenFrom afterPunctuation (squeeze cs) = settle true cs := by
  induction cs with
  | nil => intro _; rfl
  | cons c rest ih =>
    intro afterPunctuation
    cases hc : isBlank c with
    | true =>
      rw [squeeze_cons_blank hc, settle_cons_blank hc, ih]
      simp
    | false =>
      rw [settle_cons_solid hc]
      cases rest with
      | nil =>
        rw [squeeze_cons_last hc (by simp)]
        simp [tightenFrom, hc]
      | cons d more =>
        cases hd : isBlank d with
        | false =>
          rw [squeeze_cons_solid hc hd]
          simp only [tightenFrom, hc, Bool.false_and, Bool.false_eq_true, if_false]
          rw [ih, settle_cons_solid hd, settle_cons_solid hd]
        | true =>
          -- Blanks at the end are gone after squeezing; of other blanks one space is left to
          -- tighten, and whether it stays is decided by what comes after it.
          by_cases hmore : ∀ e ∈ more, isBlank e = true
          · have hall : ∀ e ∈ d :: more, isBlank e = true := by simpa [hd] using hmore
            rw [squeeze_cons_last hc hall, (settle_of_blanks hall _).1]
            simp [tightenFrom, hc]
          · have hspace : isBlank ' ' = true := by decide
            have htail := fun after => (squeeze_cons_blank hd more ▸ ih after :
              tightenFrom after (squeeze more) = settle true (d :: more))
            have hsettle : settle true (d :: more) = settle true more := by
              rw [settle_cons_blank hd]
              simp
            rw [squeeze_cons_blanks hc hd hmore, settle_cons_blank hd]
            simp only [tightenFrom, hc, hspace, Bool.false_and, Bool.true_and, Bool.false_eq_true,
              if_false]
            rw [startsTight_squeeze hmore, htail, htail, hsettle]

/-- **Squeezing and tightening settle a text.** -/
theorem tighten_squeeze (cs : List Char) : tighten (squeeze cs) = settle true cs :=
  tightenFrom_squeeze cs false

/-! ## Blanks where they mean nothing -/

theorem atEdge_blanks {w : List Char} (hw : ∀ c ∈ w, isBlank c = true) (v : List Char) :
    atEdge (w ++ v) = atEdge v := by
  induction w with
  | nil => rfl
  | cons c w ih =>
    rw [List.cons_append, atEdge_cons_blank (hw c (List.mem_cons_self ..))]
    exact ih fun d hd => hw d (List.mem_cons_of_mem _ hd)

/-- Blanks put into a text do not move its edges. -/
theorem atEdge_insert {w : List Char} (hw : ∀ c ∈ w, isBlank c = true) (u v : List Char) :
    atEdge (u ++ (w ++ v)) = atEdge (u ++ v) := by
  induction u with
  | nil => exact atEdge_blanks hw v
  | cons c u ih =>
    rw [List.cons_append, List.cons_append]
    cases hc : isBlank c with
    | true => rw [atEdge_cons_blank hc, atEdge_cons_blank hc, ih]
    | false => rw [atEdge_cons_solid hc, atEdge_cons_solid hc]

/-- A blank beside this character means nothing. -/
def isLoose (c : Char) : Bool :=
  isBlank c || isPunctuation c

/-- A blank before this text means nothing because of the text. -/
def startsLoose : List Char → Bool
  | [] => true
  | c :: _ => isLoose c

/-- A blank after this text means nothing because of the text; `loose` says so of an empty one. -/
def looseAfter (loose : Bool) : List Char → Bool
  | [] => loose
  | c :: rest => looseAfter (isLoose c) rest

theorem startsLoose_iff (v : List Char) :
    startsLoose v = true ↔ ∀ c, v.head? = some c → isLoose c = true := by
  cases v with
  | nil => simp [startsLoose]
  | cons c rest => simp [startsLoose]

theorem looseAfter_iff (u : List Char) :
    ∀ loose, looseAfter loose u = true ↔
      (u = [] → loose = true) ∧ ∀ c, u.getLast? = some c → isLoose c = true := by
  induction u with
  | nil => intro loose; simp [looseAfter]
  | cons c rest ih =>
    intro loose
    rw [looseAfter, ih]
    cases rest with
    | nil => simp
    | cons d more => simp [List.getLast?_cons_cons]

theorem looseAfter_of_false {u : List Char} (h : looseAfter false u = true) (loose : Bool) :
    looseAfter loose u = true := by
  cases u with
  | nil => exact absurd h Bool.false_ne_true
  | cons c rest => exact h

theorem settle_true_blanks {w : List Char} (hw : ∀ c ∈ w, isBlank c = true) (v : List Char) :
    settle true (w ++ v) = settle true v := by
  induction w with
  | nil => rfl
  | cons c w ih =>
    rw [List.cons_append, settle_cons_blank (hw c (List.mem_cons_self ..))]
    simp only [Bool.true_or, if_true]
    exact ih fun d hd => hw d (List.mem_cons_of_mem _ hd)

/-- Blanks in front of a text change nothing if they mean nothing there. -/
theorem settle_blanks {w : List Char} (hw : ∀ c ∈ w, isBlank c = true) {loose : Bool}
    {v : List Char} (h : loose = true ∨ startsLoose v = true) :
    settle loose (w ++ v) = settle loose v := by
  cases w with
  | nil => rfl
  | cons c w =>
    have hw' : ∀ d ∈ w, isBlank d = true := fun d hd => hw d (List.mem_cons_of_mem _ hd)
    rw [List.cons_append, settle_cons_blank (hw c (List.mem_cons_self ..)), atEdge_blanks hw',
      settle_true_blanks hw']
    -- The blanks mean nothing because of what comes before them or because of what follows.
    rcases h with rfl | hstarts
    · simp
    · cases v with
      | nil => simp [atEdge]
      | cons d v =>
        cases hd : isBlank d with
        | true =>
          rw [settle_cons_blank hd loose, atEdge_cons_blank hd, settle_cons_blank hd true]
          simp
        | false =>
          have hedge : atEdge (d :: v) = true := by
            rw [atEdge_cons_solid hd]
            simpa [startsLoose, isLoose, hd] using hstarts
          rw [hedge, settle_of_atEdge hedge loose]
          simp

/-- **Blanks put where they mean nothing change nothing.** -/
theorem settle_insert {w : List Char} (hw : ∀ c ∈ w, isBlank c = true) {v : List Char} :
    ∀ (u : List Char) (loose : Bool),
      looseAfter loose u = true ∨ startsLoose v = true →
      settle loose (u ++ (w ++ v)) = settle loose (u ++ v) := by
  intro u
  induction u with
  | nil => intro loose h; exact settle_blanks hw h
  | cons c u ih =>
    intro loose h
    rw [List.cons_append, List.cons_append]
    cases hc : isBlank c with
    | true =>
      simp only [looseAfter, isLoose, hc, Bool.true_or] at h
      rw [settle_cons_blank hc, settle_cons_blank hc, atEdge_insert hw, ih true h]
    | false =>
      simp only [looseAfter, isLoose, hc, Bool.false_or] at h
      rw [settle_cons_solid hc, settle_cons_solid hc, ih _ h]

/-! ## Tidy texts -/

/-- Every blank is a single space with something on both sides that is no punctuation. -/
def Tidy (loose : Bool) : List Char → Prop
  | [] => True
  | c :: rest =>
    if isBlank c then c = ' ' ∧ loose = false ∧ atEdge rest = false ∧ Tidy true rest
    else Tidy (isPunctuation c) rest

theorem tidy_cons_blank {c : Char} (hc : isBlank c = true) {loose : Bool} {rest : List Char} :
    Tidy loose (c :: rest) ↔ c = ' ' ∧ loose = false ∧ atEdge rest = false ∧ Tidy true rest := by
  simp only [Tidy, hc, if_true]

theorem tidy_cons_solid {c : Char} (hc : isBlank c = false) {loose : Bool} {rest : List Char} :
    Tidy loose (c :: rest) ↔ Tidy (isPunctuation c) rest := by
  simp only [Tidy, hc, Bool.false_eq_true, if_false]

theorem Tidy.of_true {loose : Bool} {cs : List Char} (h : Tidy true cs) : Tidy loose cs := by
  cases cs with
  | nil => trivial
  | cons c rest =>
    cases hc : isBlank c with
    | true => exact absurd ((tidy_cons_blank hc).mp h).2.1 (by simp)
    | false => exact (tidy_cons_solid hc).mpr ((tidy_cons_solid hc).mp h)

/-- A tidy text is settled. -/
theorem settle_of_tidy :
    ∀ (cs : List Char) (loose : Bool), Tidy loose cs → settle loose cs = cs := by
  intro cs
  induction cs with
  | nil => intro _ _; rfl
  | cons c rest ih =>
    intro loose h
    cases hc : isBlank c with
    | true =>
      obtain ⟨rfl, rfl, hedge, hrest⟩ := (tidy_cons_blank hc).mp h
      rw [settle_cons_blank hc, hedge, ih true hrest]
      rfl
    | false =>
      rw [settle_cons_solid hc, ih _ ((tidy_cons_solid hc).mp h)]

theorem atEdge_settle :
    ∀ (cs : List Char) (loose : Bool), atEdge (settle loose cs) = atEdge cs := by
  intro cs
  induction cs with
  | nil => intro _; rfl
  | cons c rest ih =>
    intro loose
    cases hc : isBlank c with
    | true =>
      rw [settle_cons_blank hc, atEdge_cons_blank hc]
      split
      · exact ih true
      · rw [atEdge_cons_blank (by decide), ih true]
    | false => rw [settle_cons_solid hc, atEdge_cons_solid hc, atEdge_cons_solid hc]

/-- A settled text is tidy. -/
theorem tidy_settle : ∀ (cs : List Char) (loose : Bool), Tidy loose (settle loose cs) := by
  intro cs
  induction cs with
  | nil => intro _; trivial
  | cons c rest ih =>
    intro loose
    cases hc : isBlank c with
    | true =>
      rw [settle_cons_blank hc]
      split
      next => exact (ih true).of_true
      next hkeep =>
        simp only [Bool.or_eq_true, not_or, Bool.not_eq_true] at hkeep
        refine (tidy_cons_blank (by decide)).mpr ⟨rfl, hkeep.1, ?_, ih true⟩
        rw [atEdge_settle, hkeep.2]
    | false =>
      rw [settle_cons_solid hc]
      exact (tidy_cons_solid hc).mpr (ih _)

/-! ## Rewording keeps the layout -/

theorem atEdge_plain {name : List Char} (hne : name ≠ []) (hplain : ∀ c ∈ name, isPlain c = true)
    (cs : List Char) : atEdge (name ++ cs) = false := by
  cases name with
  | nil => exact absurd rfl hne
  | cons c name =>
    obtain ⟨hblank, hpunct, -⟩ := isPlain_cases (hplain c (List.mem_cons_self ..))
    rw [List.cons_append, atEdge_cons_solid hblank, hpunct]

/-- After a plain run it does not matter what came before it. -/
theorem tidy_plain {name : List Char} (hne : name ≠ []) (hplain : ∀ c ∈ name, isPlain c = true)
    (loose : Bool) (cs : List Char) : Tidy loose (name ++ cs) ↔ Tidy false cs := by
  induction name generalizing loose with
  | nil => exact absurd rfl hne
  | cons c name ih =>
    obtain ⟨hblank, hpunct, -⟩ := isPlain_cases (hplain c (List.mem_cons_self ..))
    rw [List.cons_append, tidy_cons_solid hblank, hpunct]
    cases name with
    | nil => exact Iff.rfl
    | cons d name => exact ih (by simp) (fun e he => hplain e (List.mem_cons_of_mem _ he)) false

theorem Reworded.atEdge_eq {cs ds : List Char} (h : Reworded cs ds) : atEdge ds = atEdge cs := by
  induction h with
  | nil => rfl
  | keep c h ih =>
    cases hc : isBlank c with
    | true => rw [atEdge_cons_blank hc, atEdge_cons_blank hc, ih]
    | false => rw [atEdge_cons_solid hc, atEdge_cons_solid hc]
  | word hne hne' hplain hplain' h ih => rw [atEdge_plain hne hplain, atEdge_plain hne' hplain']

/-- Rewording keeps a text tidy. -/
theorem Reworded.tidy {cs ds : List Char} (h : Reworded cs ds) :
    ∀ loose, Tidy loose cs → Tidy loose ds := by
  induction h with
  | nil => intro _ _; trivial
  | keep c h ih =>
    intro loose htidy
    cases hc : isBlank c with
    | true =>
      obtain ⟨hspace, hloose, hedge, hrest⟩ := (tidy_cons_blank hc).mp htidy
      exact (tidy_cons_blank hc).mpr ⟨hspace, hloose, by rw [h.atEdge_eq, hedge], ih true hrest⟩
    | false => exact (tidy_cons_solid hc).mpr (ih _ ((tidy_cons_solid hc).mp htidy))
  | word hne hne' hplain hplain' h ih =>
    intro loose htidy
    have hmore := (tidy_plain hne hplain loose _).mp htidy
    exact (tidy_plain hne' hplain' loose _).mpr (ih false hmore)

end Mooring.Fragment
