import Mathlib.Data.List.TakeWhile
import Mooring.Text.Blank
import Mooring.Text.Find

/-!
# Finding what was put there

A text that is put together from pieces comes apart at the same places: a lead is found at its start
and nowhere else (`afterLead?_append`, `afterLead?_eq_none`), a run of characters goes up to the
first one of another kind (`splitBefore?_lead`, `takeWhile_stop`), a text without blanks at its ends
is its own trimmed form (`trim_of_edges`), and a text without any blank is one word
(`words_of_solid`).
-/

namespace Mooring.Text

variable {p : Char → Bool} {lead : List Char} {c : Char}

/-! ## Leads and runs -/

theorem afterLead?_append (lead rest : List Char) : afterLead? lead (lead ++ rest) = some rest := by
  induction lead with
  | nil => rfl
  | cons c lead ih => rw [List.cons_append, afterLead?, if_pos (beq_self_eq_true c), ih]

theorem eq_append_of_afterLead? : ∀ {lead text rest : List Char},
    afterLead? lead text = some rest → text = lead ++ rest
  | [], _, _, h => Option.some.inj h
  | _ :: _, [], _, h => absurd h (by simp [afterLead?])
  | l :: lead, c :: text, rest, h => by
    rw [afterLead?] at h
    split at h
    next heq =>
      rw [eq_of_beq heq, eq_append_of_afterLead? h, List.cons_append]
    next => exact absurd h (by simp)

theorem startsWith_iff {text : List Char} : startsWith lead text = true ↔ lead <+: text := by
  rw [startsWith, Option.isSome_iff_exists]
  constructor
  · rintro ⟨rest, hrest⟩
    exact ⟨rest, (eq_append_of_afterLead? hrest).symm⟩
  · rintro ⟨rest, rfl⟩
    exact ⟨rest, afterLead?_append lead rest⟩

theorem endsWith_iff {tail text : List Char} : endsWith tail text = true ↔ tail <:+ text := by
  rw [endsWith, startsWith_iff, List.reverse_prefix]

/-- A text does not start with what holds a character that it does not hold. -/
theorem afterLead?_eq_none_of_not_mem {text : List Char} (hc : c ∈ lead) (htext : c ∉ text) :
    afterLead? lead text = none := by
  cases h : afterLead? lead text with
  | none => rfl
  | some rest =>
    rw [eq_append_of_afterLead? h] at htext
    exact absurd (List.mem_append_left rest hc) htext

/-- A text does not start with what holds a character that only comes behind one that the lead does
not hold. -/
theorem afterLead?_eq_none {before : List Char} {stop : Char} (hc : c ∈ lead) (hbefore : c ∉ before)
    (hstop : stop ∉ lead) (rest : List Char) : afterLead? lead (before ++ stop :: rest) = none := by
  cases h : afterLead? lead (before ++ stop :: rest) with
  | none => rfl
  | some after =>
    rcases List.append_eq_append_iff.mp (eq_append_of_afterLead? h) with
      ⟨middle, rfl, hmiddle⟩ | ⟨middle, rfl, -⟩
    · cases middle with
      | nil => exact absurd (by simpa using hc) hbefore
      | cons d middle =>
        obtain ⟨rfl, -⟩ := List.cons.inj hmiddle
        exact absurd (by simp) hstop
    · exact absurd (List.mem_append_left middle hc) hbefore

theorem splitBefore?_lead (hlead : ∀ c ∈ lead, p c = false) {c : Char} (hc : p c = true)
    (rest : List Char) : splitBefore? p (lead ++ c :: rest) = some (lead, c :: rest) := by
  induction lead with
  | nil => simp [splitBefore?, hc]
  | cons d lead ih =>
    rw [List.cons_append, splitBefore?, if_neg (by simp [hlead d List.mem_cons_self]),
      ih fun e he => hlead e (List.mem_cons_of_mem _ he)]
    rfl

/-- What was split stands in the text, up to the first character of the kind. -/
theorem splitBefore?_eq_some : ∀ {cs before after : List Char},
    splitBefore? p cs = some (before, after) → cs = before ++ after ∧
      (∀ c ∈ before, p c = false) ∧ ∃ c rest, after = c :: rest ∧ p c = true
  | [], _, _, h => absurd h (by simp [splitBefore?])
  | c :: rest, before, after, h => by
    rw [splitBefore?] at h
    split at h
    next hc =>
      obtain ⟨rfl, rfl⟩ := Prod.mk.inj (Option.some.inj h)
      exact ⟨rfl, by simp, c, rest, rfl, hc⟩
    next hc =>
      obtain ⟨⟨lead, after'⟩, hrest, heq⟩ := Option.map_eq_some_iff.mp h
      obtain ⟨rfl, rfl⟩ := Prod.mk.inj heq
      obtain ⟨hsplit, hlead, hstop⟩ := splitBefore?_eq_some hrest
      exact ⟨congrArg (List.cons c) hsplit,
        List.forall_mem_cons.mpr ⟨by simpa using hc, hlead⟩, hstop⟩

theorem splitBefore?_none {cs : List Char} (h : ∀ c ∈ cs, p c = false) :
    splitBefore? p cs = none := by
  induction cs with
  | nil => rfl
  | cons c rest ih =>
    obtain ⟨hc, hrest⟩ := List.forall_mem_cons.mp h
    rw [splitBefore?, if_neg (by simp [hc]), ih hrest]
    rfl

theorem afterFirst?_lead (hlead : ∀ c ∈ lead, p c = false) {c : Char} (hc : p c = true)
    (rest : List Char) : afterFirst? p (lead ++ c :: rest) = some rest := by
  induction lead with
  | nil => simp [afterFirst?, hc]
  | cons d lead ih =>
    rw [List.cons_append, afterFirst?, if_neg (by simp [hlead d List.mem_cons_self])]
    exact ih fun e he => hlead e (List.mem_cons_of_mem _ he)

theorem takeWhile_stop (hlead : ∀ c ∈ lead, p c = true) (hc : p c = false) (rest : List Char) :
    (lead ++ c :: rest).takeWhile p = lead := by
  rw [List.takeWhile_append_of_pos hlead, List.takeWhile_cons_of_neg (by simp [hc]),
    List.append_nil]

theorem dropWhile_stop (hlead : ∀ c ∈ lead, p c = true) (hc : p c = false) (rest : List Char) :
    (lead ++ c :: rest).dropWhile p = c :: rest := by
  rw [List.dropWhile_append_of_pos hlead, List.dropWhile_cons_of_neg (by simp [hc])]

theorem takeWhile_all (hlead : ∀ c ∈ lead, p c = true) : lead.takeWhile p = lead :=
  List.takeWhile_eq_self_iff.mpr hlead

theorem occursIn_self (text : List Char) : occursIn text text = true := by
  cases text with
  | nil => rfl
  | cons c rest =>
    have hstarts : startsWith (c :: rest) (c :: rest) = true := by
      have hafter := afterLead?_append (c :: rest) []
      rw [List.append_nil] at hafter
      rw [startsWith, hafter]
      rfl
    rw [occursIn, hstarts, Bool.true_or]

theorem occursIn_iff {needle : List Char} :
    ∀ {text : List Char}, occursIn needle text = true ↔ needle <:+: text
  | [] => by rw [occursIn, List.isEmpty_iff, List.infix_nil]
  | c :: rest => by
    rw [occursIn, Bool.or_eq_true, startsWith_iff, occursIn_iff, List.infix_cons_iff]

/-- What stands before the first place of a character is determined by the whole. -/
theorem eq_of_append_cons {c : Char} {cs ds rest rest' : List Char} (hcs : c ∉ cs) (hds : c ∉ ds)
    (h : cs ++ c :: rest = ds ++ c :: rest') : cs = ds ∧ rest = rest' := by
  have hne : ∀ {es : List Char}, c ∉ es → ∀ e ∈ es, (e != c) = true := fun hes e he =>
    bne_iff_ne.mpr fun heq => hes (heq ▸ he)
  have hself : (c != c) = false := by simp
  have htake := congrArg (List.takeWhile (· != c)) h
  have hdrop := congrArg (List.dropWhile (· != c)) h
  rw [takeWhile_stop (hne hcs) hself, takeWhile_stop (hne hds) hself] at htake
  rw [dropWhile_stop (hne hcs) hself, dropWhile_stop (hne hds) hself] at hdrop
  exact ⟨htake, (List.cons.inj hdrop).2⟩

/-- A place of a character that the lead does not hold is behind the lead. -/
theorem exists_of_lead_append {front back rest : List Char} (hc : c ∉ lead)
    (h : lead ++ rest = front ++ c :: back) :
    ∃ more, front = lead ++ more ∧ rest = more ++ c :: back := by
  rcases List.append_eq_append_iff.mp h with ⟨more, rfl, hrest⟩ | ⟨more, rfl, hback⟩
  · exact ⟨more, rfl, hrest⟩
  · cases more with
    | nil => exact ⟨[], by simp, hback.symm⟩
    | cons d more =>
      obtain ⟨rfl, -⟩ := List.cons.inj hback
      exact absurd (List.mem_append_right front List.mem_cons_self) hc

/-- A place of a character that the tail does not hold is before the tail. -/
theorem exists_of_append_tail {front back text tail : List Char} (hc : c ∉ tail)
    (h : text ++ tail = front ++ c :: back) :
    ∃ more, text = front ++ c :: more ∧ back = more ++ tail := by
  rcases List.append_eq_append_iff.mp h with ⟨more, rfl, htail⟩ | ⟨more, rfl, hback⟩
  · exact absurd (htail ▸ List.mem_append_right more List.mem_cons_self) hc
  · cases more with
    | nil =>
      rw [List.nil_append] at hback
      exact absurd (hback ▸ List.mem_cons_self) hc
    | cons d more =>
      obtain ⟨rfl, rfl⟩ := List.cons.inj hback
      exact ⟨more, rfl, rfl⟩

/-- What does not hold a character goes no further than up to it. -/
theorem prefix_append_cons_iff {needle front back : List Char} {c : Char} (hc : c ∉ needle) :
    needle <+: front ++ c :: back ↔ needle <+: front := by
  constructor
  · rintro ⟨tail, htail⟩
    rcases List.append_eq_append_iff.mp htail with ⟨middle, rfl, -⟩ | ⟨middle, rfl, hmiddle⟩
    · exact List.prefix_append needle middle
    · cases middle with
      | nil =>
        exact (List.append_nil front).symm ▸ List.prefix_refl front
      | cons d middle =>
        obtain ⟨rfl, -⟩ := List.cons.inj hmiddle
        exact absurd (List.mem_append_right front List.mem_cons_self) hc
  · exact fun h => h.trans (List.prefix_append front _)

/-- What does not hold a character lies on one side of it. -/
theorem infix_append_cons_iff {needle front back : List Char} {c : Char} (hc : c ∉ needle) :
    needle <:+: front ++ c :: back ↔ needle <:+: front ∨ needle <:+: back := by
  induction front with
  | nil =>
    have hlead : needle <+: [] ++ c :: back ↔ needle <+: [] := prefix_append_cons_iff hc
    rw [List.nil_append] at hlead
    rw [List.nil_append, List.infix_cons_iff, hlead, List.prefix_nil, List.infix_nil]
  | cons d front ih =>
    rw [List.cons_append, List.infix_cons_iff, List.infix_cons_iff, ih, ← List.cons_append,
      prefix_append_cons_iff hc, or_assoc]

/-! ## Trimming -/

theorem dropTrailing_of_last {cs : List Char} (h : ∀ c, cs.getLast? = some c → p c = false) :
    dropTrailing p cs = cs := by
  induction cs with
  | nil => rfl
  | cons c rest ih =>
    rw [dropTrailing]
    cases rest with
    | nil =>
      rw [dropTrailing]
      exact if_neg (by simp [h c rfl])
    | cons d more => rw [ih fun e he => h e (by rwa [List.getLast?_cons_cons])]

theorem prefix_dropTrailing : ∀ cs : List Char, dropTrailing p cs <+: cs
  | [] => List.prefix_refl _
  | c :: rest => by
    rw [dropTrailing]
    split
    next =>
      split
      · exact List.nil_prefix
      · exact List.cons_prefix_cons.mpr ⟨rfl, List.nil_prefix⟩
    next => exact List.cons_prefix_cons.mpr ⟨rfl, prefix_dropTrailing rest⟩

/-- A trimmed text is part of the text. -/
theorem infix_trim (cs : List Char) : trim cs <:+: cs :=
  (prefix_dropTrailing _).isInfix.trans (List.dropWhile_suffix _).isInfix

theorem dropTrailing_eq_nil_iff {cs : List Char} :
    dropTrailing p cs = [] ↔ ∀ c ∈ cs, p c = true := by
  induction cs with
  | nil => exact iff_of_true rfl fun c hc => absurd hc List.not_mem_nil
  | cons c rest ih =>
    rw [dropTrailing, List.forall_mem_cons, ← ih]
    cases dropTrailing p rest with
    | nil => by_cases hc : p c = true <;> simp [hc]
    | cons d kept => simp

/-- What is left does not end with what is dropped. -/
theorem last_dropTrailing {cs : List Char} (h : (dropTrailing p cs).getLast? = some c) :
    p c = false := by
  induction cs with
  | nil => exact absurd h (by simp [dropTrailing])
  | cons d rest ih =>
    rw [dropTrailing] at h
    cases hkept : dropTrailing p rest with
    | nil =>
      rw [hkept] at h
      dsimp only at h
      split at h
      next => exact absurd h (by simp)
      next hd =>
        obtain rfl := Option.some.inj h
        exact Bool.eq_false_iff.mpr hd
    | cons e kept =>
      rw [hkept] at h ih
      dsimp only at h
      rw [List.getLast?_cons_cons] at h
      exact ih h

/-- A trimmed text does not start with a blank. -/
theorem head_trim {cs rest : List Char} (h : trim cs = c :: rest) : isBlank c = false := by
  obtain ⟨tail, htail⟩ := @prefix_dropTrailing isBlank (cs.dropWhile isBlank)
  rw [show dropTrailing isBlank (cs.dropWhile isBlank) = c :: rest from h] at htail
  have hhead := List.head?_dropWhile_not isBlank cs
  rw [← htail] at hhead
  exact hhead

theorem trim_eq_nil_iff {cs : List Char} : trim cs = [] ↔ ∀ c ∈ cs, isBlank c = true := by
  constructor
  · intro h
    have hblank := dropTrailing_eq_nil_iff.mp h
    have hhead := List.head?_dropWhile_not isBlank cs
    cases hdrop : cs.dropWhile isBlank with
    | nil => exact List.dropWhile_eq_nil_iff.mp hdrop
    | cons c rest =>
      rw [hdrop] at hblank hhead
      exact absurd (hblank c List.mem_cons_self) (Bool.eq_false_iff.mp hhead)
  · intro h
    rw [trim, trimRight, List.dropWhile_eq_nil_iff.mpr h]
    rfl

/-- **A text without blanks at its ends is its own trimmed form.** -/
theorem trim_of_edges {cs : List Char} (hfirst : ∀ c, cs.head? = some c → isBlank c = false)
    (hlast : ∀ c, cs.getLast? = some c → isBlank c = false) : trim cs = cs := by
  have hdrop : cs.dropWhile isBlank = cs := by
    cases cs with
    | nil => rfl
    | cons c rest => exact List.dropWhile_cons_of_neg (by simp [hfirst c rfl])
  rw [trim, hdrop, trimRight, dropTrailing_of_last hlast]

/-- Blanks in front do not matter once they are trimmed. -/
theorem trim_blanks {cs : List Char} (h : ∀ c ∈ cs, isBlank c = true) (rest : List Char) :
    trim (cs ++ rest) = trim rest := by
  rw [trim, List.dropWhile_append_of_pos h, ← trim]

/-- The ends of a trimmed text are no blanks. -/
theorem edges_trim (cs : List Char) : (∀ c, (trim cs).head? = some c → isBlank c = false) ∧
    (∀ c, (trim cs).getLast? = some c → isBlank c = false) := by
  refine ⟨fun c hc => ?_, fun c hc => last_dropTrailing hc⟩
  obtain ⟨rest, hrest⟩ := List.head?_eq_some_iff.mp hc
  exact head_trim hrest

theorem trim_trim (cs : List Char) : trim (trim cs) = trim cs :=
  trim_of_edges (edges_trim cs).1 (edges_trim cs).2

theorem dropTrailing_append {front : List Char} (h : ∀ c ∈ front, p c = false)
    (back : List Char) : dropTrailing p (front ++ back) = front ++ dropTrailing p back := by
  induction front with
  | nil => rfl
  | cons c front ih =>
    obtain ⟨hc, hfront⟩ := List.forall_mem_cons.mp h
    rw [List.cons_append, dropTrailing, ih hfront]
    split
    next hnil => rw [if_neg (by simp [hc]), List.cons_append, hnil]
    next => rfl

/-- Behind characters that are no blanks, only the end is trimmed. -/
theorem trim_append {front : List Char} (hne : front ≠ []) (h : ∀ c ∈ front, isBlank c = false)
    (back : List Char) : trim (front ++ back) = front ++ trimRight back := by
  obtain ⟨c, rest, rfl⟩ := List.exists_cons_of_ne_nil hne
  have hfirst : ((c :: rest) ++ back).dropWhile isBlank = (c :: rest) ++ back :=
    List.dropWhile_cons_of_neg (by simp [h c List.mem_cons_self])
  rw [trim, hfirst]
  exact dropTrailing_append h back

/-! ## Words -/

theorem firstRun_of_solid {cs : List Char} (h : ∀ c ∈ cs, p c = false) :
    firstRun p cs = (cs, []) := by
  induction cs with
  | nil => rfl
  | cons c rest ih =>
    obtain ⟨hc, hrest⟩ := List.forall_mem_cons.mp h
    simp only [firstRun, ih hrest, hc, Bool.false_eq_true, if_false]

/-- A text without blanks is one word. -/
theorem words_of_solid {cs : List Char} (hne : cs ≠ []) (h : ∀ c ∈ cs, isBlank c = false) :
    words cs = [cs] := by
  obtain ⟨c, rest, rfl⟩ := List.exists_cons_of_ne_nil hne
  rw [words, runs, firstRun_of_solid h]
  rfl

theorem solid_of_firstRun (p : Char → Bool) (cs : List Char) :
    (∀ c ∈ (firstRun p cs).1, p c = false) ∧
      ∀ run ∈ (firstRun p cs).2, ∀ c ∈ run, p c = false := by
  induction cs with
  | nil => exact ⟨fun _ h => absurd h List.not_mem_nil, fun _ h => absurd h List.not_mem_nil⟩
  | cons c rest ih =>
    rw [firstRun]
    dsimp only
    split
    next =>
      refine ⟨fun _ h => absurd h List.not_mem_nil, fun run hrun => ?_⟩
      cases hfirst : (firstRun p rest).1 with
      | nil =>
        rw [hfirst] at hrun
        exact ih.2 run hrun
      | cons d more =>
        rw [hfirst] at hrun
        rcases List.mem_cons.mp hrun with rfl | hlater
        · exact hfirst ▸ ih.1
        · exact ih.2 run hlater
    next hc =>
      exact ⟨List.forall_mem_cons.mpr ⟨by simpa using hc, ih.1⟩, ih.2⟩

/-- No word holds a blank. -/
theorem solid_of_mem_words {cs word : List Char} (h : word ∈ words cs) :
    ∀ c ∈ word, isBlank c = false := by
  obtain ⟨hfirst, hlater⟩ := solid_of_firstRun isBlank cs
  rw [words, runs] at h
  dsimp only at h
  cases hrun : (firstRun isBlank cs).1 with
  | nil =>
    rw [hrun] at h
    exact hlater word h
  | cons d more =>
    rw [hrun] at h
    rcases List.mem_cons.mp h with rfl | hmem
    · exact hrun ▸ hfirst
    · exact hlater word hmem

end Mooring.Text
