import Mooring.Proofs.Fragment.Faithful

/-!
# Between words

Each pass of `canonical` treats the text in front of a plain run without regard to what that run
says.  Requoting looks ahead, but past words it sees the same whatever they are
(`requoteFrom_frame`); blanks settle alike in front of every word (`settle_frame`, `settle_gap`);
and the two passes that lower-case start anew behind a *stop*, the last character before a word
(`Stop.lowerTags_eq`, `Stop.lowerNames_eq`).  What they make of the word itself is decided by the
stop before it, the character after it and whether it is a name (`lowerNames_word`).
-/

namespace Mooring.Fragment

open Mooring.Text

/-! ## Words -/

/-- What is not plain belongs to no name. -/
theorem not_isNameChar {c : Char} (h : isPlain c = false) : isNameChar c = false := by
  cases hname : isNameChar c with
  | false => rfl
  | true => simpa [h] using isPlain_of_isNameChar hname

/-- Plain runs in front of what is not plain are determined by the whole. -/
theorem append_plain_inj {cs ds rest rest' : List Char} {c d : Char}
    (hcs : ∀ e ∈ cs, isPlain e = true) (hds : ∀ e ∈ ds, isPlain e = true)
    (hc : isPlain c = false) (hd : isPlain d = false) :
    cs ++ c :: rest = ds ++ d :: rest' ↔ cs = ds ∧ c :: rest = d :: rest' := by
  refine ⟨fun h => ?_, fun ⟨hfront, hrest⟩ => by rw [hfront, hrest]⟩
  have htake := congrArg (List.takeWhile isPlain) h
  have hdrop := congrArg (List.dropWhile isPlain) h
  rw [takeWhile_stop hcs hc, takeWhile_stop hds hd] at htake
  rw [dropWhile_stop hcs hc, dropWhile_stop hds hd] at hdrop
  exact ⟨htake, hdrop⟩

/-! ## Requoting and settling -/

theorem Reworded.refl (cs : List Char) : Reworded cs cs := by
  induction cs with
  | nil => exact .nil
  | cons c cs ih => exact .keep c ih

theorem Reworded.append_left {cs ds : List Char} (h : Reworded cs ds) (front : List Char) :
    Reworded (front ++ cs) (front ++ ds) := by
  induction front with
  | nil => exact h
  | cons c front ih => exact .keep c ih

theorem QuoteMode.next_reworded {cs ds : List Char} (h : Reworded cs ds) (mode : QuoteMode)
    (c : Char) : mode.next c ds = mode.next c cs := by
  cases mode with
  | text => rw [QuoteMode.next, QuoteMode.next, h.opensSingle_eq]
  | opening => rfl
  | value => rfl

theorem QuoteMode.write_cases (mode : QuoteMode) (c : Char) :
    mode.write c = c ∨ c = '\'' ∧ mode.write c = '"' := by
  rw [QuoteMode.write]
  split
  next h => exact Or.inr ⟨h.2, rfl⟩
  next => exact Or.inl rfl

/-- **What stands before a text is requoted without regard to its words.**  Nothing but double
quotes comes in. -/
theorem requoteFrom_frame (cs : List Char) :
    ∀ (front : List Char) (mode : QuoteMode), ∃ front' mode',
      (∀ c ∈ front', c ∈ front ∨ c = '"') ∧ ∀ ds, Reworded cs ds →
        requoteFrom mode (front ++ ds) = front' ++ requoteFrom mode' ds := by
  intro front
  induction front with
  | nil => exact fun mode => ⟨[], mode, by simp, fun ds _ => rfl⟩
  | cons c front ih =>
    intro mode
    obtain ⟨front', mode', hmem, hfront⟩ := ih (mode.next c (front ++ cs))
    refine ⟨mode.write c :: front', mode', fun d hd => ?_, fun ds hds => ?_⟩
    · rcases List.mem_cons.mp hd with rfl | hd
      · rcases mode.write_cases c with hself | ⟨-, hdouble⟩
        · exact Or.inl (by simp [hself])
        · exact Or.inr hdouble
      · exact (hmem d hd).imp_left (List.mem_cons_of_mem c)
    · rw [List.cons_append, requoteFrom, QuoteMode.next_reworded (hds.append_left front),
        hfront ds hds, List.cons_append]

/-- A plain run is requoted to itself. -/
theorem requoteFrom_plain {name : List Char} (hplain : ∀ c ∈ name, isPlain c = true)
    (mode : QuoteMode) (rest : List Char) :
    requoteFrom mode (name ++ rest) = name ++ requoteFrom mode rest := by
  refine requoteFrom_append mode fun before c after hsplit => ?_
  have hc := hplain c (by rw [hsplit]; simp)
  cases mode with
  | text =>
    refine ⟨QuoteMode.write_text c, QuoteMode.next_text_other ?_ _⟩
    rintro rfl
    exact absurd hc (by decide)
  | opening => exact QuoteMode.pass (by simp) (ne_single_of_isQuote (isPlain_cases hc).2.2) _
  | value => exact QuoteMode.pass (by simp) (ne_single_of_isQuote (isPlain_cases hc).2.2) _

/-- A plain run settles to itself, and what follows it settles on its own. -/
theorem settle_plain {name : List Char} (hne : name ≠ []) (hplain : ∀ c ∈ name, isPlain c = true)
    (loose : Bool) (rest : List Char) :
    settle loose (name ++ rest) = name ++ settle false rest := by
  induction name generalizing loose with
  | nil => exact absurd rfl hne
  | cons c name ih =>
    obtain ⟨hblank, hpunct, -⟩ := isPlain_cases (hplain c List.mem_cons_self)
    rw [List.cons_append, settle_cons_solid hblank, hpunct, List.cons_append]
    cases name with
    | nil => rfl
    | cons d name => rw [ih (by simp) (fun e he => hplain e (List.mem_cons_of_mem c he)) false]

/-- What is at an edge is decided by the first character that is no blank. -/
theorem atEdge_solid {c : Char} (hc : isBlank c = false) (front rest : List Char) :
    atEdge (front ++ c :: rest) = atEdge (front ++ [c]) := by
  induction front with
  | nil => rw [List.nil_append, List.nil_append, atEdge_cons_solid hc, atEdge_cons_solid hc]
  | cons d front ih =>
    cases hd : isBlank d with
    | true =>
      rw [List.cons_append, List.cons_append, atEdge_cons_blank hd, atEdge_cons_blank hd, ih]
    | false => rw [List.cons_append, List.cons_append, atEdge_cons_solid hd, atEdge_cons_solid hd]

/-- **What stands before a character that is no blank settles without regard to what follows it.**
Nothing but spaces comes in. -/
theorem settle_frame {c : Char} (hc : isBlank c = false) :
    ∀ (front : List Char) (loose : Bool), ∃ front', (∀ d ∈ front', d ∈ front ∨ d = ' ') ∧
      ∀ rest, settle loose (front ++ c :: rest) = front' ++ c :: settle (isPunctuation c) rest := by
  intro front
  induction front with
  | nil => exact fun loose => ⟨[], by simp, fun rest => settle_cons_solid hc loose rest⟩
  | cons d front ih =>
    intro loose
    cases hd : isBlank d with
    | true =>
      obtain ⟨front', hmem, hfront⟩ := ih true
      have hmem' : ∀ e ∈ front', e ∈ d :: front ∨ e = ' ' := fun e he =>
        (hmem e he).imp_left (List.mem_cons_of_mem d)
      by_cases hedge : (loose || atEdge (front ++ [c])) = true
      · refine ⟨front', hmem', fun rest => ?_⟩
        rw [List.cons_append, settle_cons_blank hd, atEdge_solid hc, if_pos hedge, hfront]
      · refine ⟨' ' :: front', fun e he => ?_, fun rest => ?_⟩
        · rcases List.mem_cons.mp he with rfl | he
          · exact Or.inr rfl
          · exact hmem' e he
        · rw [List.cons_append, settle_cons_blank hd, atEdge_solid hc, if_neg hedge, hfront,
            List.cons_append]
    | false =>
      obtain ⟨front', hmem, hfront⟩ := ih (isPunctuation d)
      refine ⟨d :: front', fun e he => ?_, fun rest => ?_⟩
      · rcases List.mem_cons.mp he with rfl | he
        · exact Or.inl List.mem_cons_self
        · exact (hmem e he).imp_left (List.mem_cons_of_mem d)
      · rw [List.cons_append, settle_cons_solid hd, hfront, List.cons_append]

/-- Blanks before a plain run are one space, unless they mean nothing because of what comes
before. -/
theorem settle_gap {gap name : List Char} (hgap : gap ≠ []) (hblank : ∀ c ∈ gap, isBlank c = true)
    (hne : name ≠ []) (hplain : ∀ c ∈ name, isPlain c = true) (loose : Bool) (rest : List Char) :
    settle loose (gap ++ (name ++ rest)) =
      (if loose then [] else [' ']) ++ (name ++ settle false rest) := by
  cases gap with
  | nil => exact absurd rfl hgap
  | cons c gap =>
    have hgap' : ∀ d ∈ gap, isBlank d = true := fun d hd => hblank d (List.mem_cons_of_mem c hd)
    rw [List.cons_append, settle_cons_blank (hblank c List.mem_cons_self), atEdge_blanks hgap',
      atEdge_plain hne hplain, settle_true_blanks hgap', settle_plain hne hplain]
    cases loose <;> rfl

/-! ## Lower-casing -/

/-- Without brackets there are no tags, and what follows is on its own. -/
theorem lowerTags_pass {front : List Char} (h : '<' ∉ front) (rest : List Char) :
    lowerTags (front ++ rest) = front ++ lowerTags rest := by
  induction front with
  | nil => rfl
  | cons c front ih =>
    rw [List.cons_append, lowerTags_cons (fun hc => h (hc ▸ List.mem_cons_self)),
      ih fun hmem => h (List.mem_cons_of_mem c hmem), List.cons_append]

theorem exists_lowerTags (c : Char) (rest : List Char) :
    ∃ rest', lowerTags (c :: rest) = c :: rest' :=
  List.head?_eq_some_iff.mp (head?_lowerTags _)

/-- A plain run opens no name, so what follows it is on its own. -/
theorem lowerNames_pass {name : List Char} (hplain : ∀ c ∈ name, isPlain c = true)
    (rest : List Char) : lowerNames (name ++ rest) = name ++ lowerNames rest := by
  induction name with
  | nil => rfl
  | cons c name ih =>
    rw [List.cons_append, lowerNames_cons (opensName_of_isPlain (hplain c List.mem_cons_self)),
      ih fun d hd => hplain d (List.mem_cons_of_mem c hd), List.cons_append]

/-- A character, behind the text `front`, that assigns nothing and is no part of a tag's start. -/
structure Ending (front : List Char) (last : Char) : Prop where
  ne_equals : last ≠ '='
  ne_bracket : last ≠ '<'
  slash : last = '/' → '<' ∉ front

theorem Ending.of_ne (front : List Char) (last : Char)
    (h : last ≠ '=' ∧ last ≠ '<' ∧ last ≠ '/') : Ending front last :=
  ⟨h.1, h.2.1, fun hslash => absurd hslash h.2.2⟩

/-- A character that ends the text between two names, behind the text `front`.  Nothing that is
lower-cased reaches across it. -/
structure Stop (front : List Char) (stop : Char) : Prop extends Ending front stop where
  loose : stop = ' ' ∨ isPunctuation stop = true

namespace Stop

variable {front : List Char} {stop : Char}

theorem space (front : List Char) : Stop front ' ' :=
  ⟨.of_ne front ' ' (by decide), Or.inl rfl⟩

theorem not_name (h : Stop front stop) : isNameChar stop = false := by
  have hplain : isPlain stop = false := by
    rcases h.loose with rfl | hpunct
    · decide
    · simp [isPlain, hpunct]
  exact not_isNameChar hplain

/-- **Tags are lower-cased on both sides of a stop.** -/
theorem lowerTags_eq (h : Stop front stop) (rest : List Char) :
    lowerTags (front ++ stop :: rest) = lowerTags front ++ stop :: lowerTags rest := by
  by_cases hslash : stop = '/'
  · -- A slash that a bracket stood before would belong to the tag.
    rw [lowerTags_pass (h.slash hslash), lowerTags_of_not_mem (h.slash hslash),
      lowerTags_cons h.ne_bracket]
  · rw [lowerTags_append h.not_name hslash, lowerTags_cons h.ne_bracket]

/-- **Assigned names are lower-cased on both sides of a stop.** -/
theorem lowerNames_eq (h : Stop front stop) (cs rest : List Char) :
    lowerNames (cs ++ stop :: rest) = lowerNames cs ++ lowerNames (stop :: rest) :=
  lowerNames_append h.not_name h.ne_equals cs rest

end Stop

/-- A name of an attribute by the rules of `assignedName?`. -/
def isAttributeName : List Char → Bool
  | [] => false
  | c :: rest => isNameStart c && rest.all isNameChar

theorem isNameChar_of_mem {name : List Char} (h : isAttributeName name = true) :
    ∀ c ∈ name, isNameChar c = true := by
  cases name with
  | nil => simp
  | cons d name =>
    rw [isAttributeName, Bool.and_eq_true, List.all_eq_true] at h
    intro c hc
    rcases List.mem_cons.mp hc with rfl | hc
    · exact isNameChar_of_isNameStart h.1
    · exact h.2 c hc

/-- A word is assigned a value if it is a name and an equals sign follows. -/
theorem assignedName?_word {name rest : List Char} {stop : Char}
    (hplain : ∀ c ∈ name, isPlain c = true) (hstop : isPlain stop = false) :
    assignedName? (name ++ stop :: rest) =
      if isAttributeName name = true ∧ stop = '=' then some (name, stop :: rest) else none := by
  have hend : isNameChar stop = false := not_isNameChar hstop
  cases name with
  | nil =>
    have hstart : ¬ isNameStart stop = true := fun h => by
      simpa [hend] using isNameChar_of_isNameStart h
    rw [List.nil_append, assignedName?, if_neg hstart, if_neg (by simp [isAttributeName])]
  | cons c name =>
    obtain ⟨htake, hdrop⟩ := runs_append hend name rest
    rw [List.cons_append, assignedName?_cons, htake, hdrop]
    by_cases hall : ∀ d ∈ name, isNameChar d = true
    · have hname : isAttributeName (c :: name) = isNameStart c := by
        rw [isAttributeName, List.all_eq_true.mpr hall, Bool.and_true]
      rw [List.takeWhile_eq_self_iff.mpr hall, List.dropWhile_eq_nil_iff.mpr hall, hname]
      simp
    · -- The name breaks off within the run, at a character that is plain and so assigns nothing.
      obtain ⟨d, more, hbreak⟩ := List.exists_cons_of_ne_nil
        (fun hnil => hall (List.dropWhile_eq_nil_iff.mp hnil))
      have hmem : d ∈ name := (List.dropWhile_sublist isNameChar).subset (by simp [hbreak])
      have hne : d ≠ '=' := by
        rintro rfl
        exact absurd (hplain _ (List.mem_cons_of_mem c hmem)) (by decide)
      have hname : isAttributeName (c :: name) = false := by
        rw [isAttributeName, Bool.and_eq_false_iff, List.all_eq_false]
        exact Or.inr (by simpa using hall)
      rw [hbreak, hname]
      simp [hne]

/-- A space or punctuation that opens a name has no case and leaves the name after it its own. -/
theorem lower_opens {stop : Char} (hloose : stop = ' ' ∨ isPunctuation stop = true)
    (hopens : opensName stop = true) (name : List Char) :
    lower (stop :: name) = stop :: lower name := by
  rcases hloose with rfl | hpunct
  · rfl
  · simp only [opensName, isBlank_of_isPunctuation hpunct, Bool.false_or, Bool.or_eq_true,
      beq_iff_eq, or_assoc] at hopens
    rcases hopens with rfl | rfl | rfl <;> rfl

/-- **A name behind a stop** is lower-cased if the stop opens it, it is assigned a value, and it is
a name. -/
theorem lowerNames_word {stop : Char} (hloose : stop = ' ' ∨ isPunctuation stop = true)
    {name rest : List Char} (hplain : ∀ c ∈ name, isPlain c = true) {next : Char}
    (hnext : isPlain next = false) :
    lowerNames (stop :: (name ++ next :: rest)) =
      stop :: ((if opensName stop && next == '=' && isAttributeName name then lower name
        else name) ++ lowerNames (next :: rest)) := by
  have hassigned : assignedName? (name ++ next :: rest) =
      if isAttributeName name = true ∧ next = '=' then some (name, next :: rest) else none :=
    assignedName?_word hplain hnext
  cases hopens : opensName stop with
  | false => rw [lowerNames_cons hopens, lowerNames_pass hplain]; rfl
  | true =>
    by_cases hname : isAttributeName name = true ∧ next = '='
    · rw [if_pos hname] at hassigned
      rw [lowerNames_some hopens hassigned, lower_opens hloose hopens]
      simp [hname.1, hname.2]
    · rw [if_neg hname] at hassigned
      have hnot : ¬ (true && next == '=' && isAttributeName name) = true := by
        simpa [and_comm] using hname
      rw [lowerNames_none hassigned, lowerNames_pass hplain, if_neg hnot]

end Mooring.Fragment
