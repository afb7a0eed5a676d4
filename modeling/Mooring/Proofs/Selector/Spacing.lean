import Mooring.Proofs.Selector.Quoting

/-!
# White space between compounds

The scan for combinators takes a space for one, and a tab or a line feed for a part of the compound.
So it matters what kind of white space stands outside of brackets, parentheses and quotes: where it
is not a space, the compounds on its two sides are read as one.

`respaced` makes it all spaces.  The scan finds each separator that it found before, and the new
ones; a last compound without other white space is what it finds again, and any other last compound
gets shorter (`lastCompound_respaced_iff`).
-/

namespace Mooring.Selector

open Mooring.Text

variable {n : Nesting} {c : Char} {cs front lead : List Char}

/-- White space of selectors. -/
def isSpacing (c : Char) : Bool :=
  c == ' ' || c == '\t' || c == '\n' || c == '\r' || c == '\x0c'

namespace Nesting

/-- Outside of brackets, parentheses and quotes. -/
def isOutside (n : Nesting) : Bool :=
  n.quote.isNone && n.depth ≤ 0

/-- The character, as a space if it is white space outside. -/
def respaced (n : Nesting) (c : Char) : Char :=
  if n.isOutside && isSpacing c then ' ' else c

/-- The nesting after some characters. -/
def run (n : Nesting) (cs : List Char) : Nesting :=
  cs.foldl after n

end Nesting

/-- A text with all white space outside as spaces. -/
def respaced (n : Nesting) : List Char → List Char
  | [] => []
  | c :: rest => n.respaced c :: respaced (n.after c) rest

/-- Outside, the white space is spaces only. -/
def OnlySpaces (n : Nesting) (cs : List Char) : Prop :=
  ∀ front c back, cs = front ++ c :: back → (n.run front).isOutside = true →
    isSpacing c = true → c = ' '

/-! ## Characters -/

theorem isSpacing_cases (h : isSpacing c = true) :
    c = ' ' ∨ c = '\t' ∨ c = '\n' ∨ c = '\r' ∨ c = '\x0c' := by
  simpa [isSpacing, or_assoc] using h

namespace Nesting

/-- What is the same for all white space is not changed. -/
theorem respaced_congr {f : Char → Bool}
    (h : [' ', '\t', '\n', '\r', '\x0c'].all (fun c => f c == f ' ') = true) :
    f (n.respaced c) = f c := by
  unfold respaced
  split
  next hspacing =>
    have hc := isSpacing_cases (Bool.and_eq_true_iff.mp hspacing).2
    have hsame : ∀ c ∈ [' ', '\t', '\n', '\r', '\x0c'], f c = f ' ' := by simpa using h
    exact (hsame c (by simpa using hc)).symm
  next => rfl

theorem respaced_of_other (h : isSpacing c = false) : n.respaced c = c := by
  rw [respaced, h, Bool.and_false]
  rfl

theorem respaced_eq_self_iff :
    n.respaced c = c ↔ (n.isOutside = true → isSpacing c = true → c = ' ') := by
  unfold respaced
  split
  next h =>
    obtain ⟨houtside, hc⟩ := Bool.and_eq_true_iff.mp h
    exact ⟨fun heq _ _ => heq.symm, fun heq => (heq houtside hc).symm⟩
  next h => exact iff_of_true rfl fun houtside hc => absurd (Bool.and_eq_true_iff.mpr ⟨houtside, hc⟩) h

theorem isBlank_respaced (n : Nesting) (c : Char) : isBlank (n.respaced c) = isBlank c :=
  respaced_congr (by decide)

theorem after_of_isBlank (hquote : n.quote = none) (hc : isBlank c = true) : n.after c = n := by
  obtain ⟨depth, quote⟩ := n
  obtain rfl : quote = none := hquote
  refine after_of_not_mem (fun hmem => ?_) depth
  have hsolid : ∀ c ∈ delimiters, (!isBlank c) = true := List.all_eq_true.mp (by decide)
  simpa [hc] using hsolid c hmem

theorem isBlank_of_isSpacing (h : isSpacing c = true) : isBlank c = true := by
  rcases isSpacing_cases h with rfl | rfl | rfl | rfl | rfl <;> decide

theorem after_respaced (n : Nesting) (c : Char) : n.after (n.respaced c) = n.after c := by
  unfold respaced
  split
  next hspacing =>
    obtain ⟨houtside, hc⟩ := Bool.and_eq_true_iff.mp hspacing
    have hquote : n.quote = none := Option.isNone_iff_eq_none.mp (Bool.and_eq_true_iff.mp houtside).1
    rw [after_of_isBlank hquote (by decide), after_of_isBlank hquote (isBlank_of_isSpacing hc)]
  next => rfl

/-- Combinators of the chain stand at the outermost place and lead nowhere else. -/
theorem eq_of_separates (h : n.separates c = true) : n = {} ∧ n.after c = n ∧ n.respaced c = c := by
  obtain ⟨depth, quote⟩ := n
  simp only [separates, Bool.and_eq_true, Option.isNone_iff_eq_none, beq_iff_eq] at h
  obtain ⟨⟨rfl, rfl⟩, hc⟩ := h
  simp only [isCombinator, Bool.or_eq_true, beq_iff_eq] at hc
  rcases hc with ((rfl | rfl) | rfl) | rfl <;> exact ⟨rfl, rfl, rfl⟩

end Nesting

/-! ## Texts -/

theorem Nesting.run_append (n : Nesting) (front cs : List Char) :
    n.run (front ++ cs) = (n.run front).run cs :=
  List.foldl_append

theorem respaced_append (front cs : List Char) : ∀ n : Nesting,
    respaced n (front ++ cs) = respaced n front ++ respaced (n.run front) cs := by
  induction front with
  | nil => exact fun _ => rfl
  | cons c front ih => exact fun n => congrArg (n.respaced c :: ·) (ih (n.after c))

theorem run_respaced (cs : List Char) : ∀ n : Nesting, n.run (respaced n cs) = n.run cs := by
  induction cs with
  | nil => exact fun _ => rfl
  | cons c rest ih =>
    intro n
    show (n.after (n.respaced c)).run (respaced (n.after c) rest) = (n.after c).run rest
    rw [n.after_respaced, ih]

theorem length_respaced (cs : List Char) : ∀ n : Nesting, (respaced n cs).length = cs.length := by
  induction cs with
  | nil => exact fun _ => rfl
  | cons c rest ih => exact fun n => congrArg (· + 1) (ih (n.after c))

/-- **A text stays as it is just if its white space outside is spaces only.** -/
theorem respaced_eq_self_iff (cs : List Char) : ∀ n, respaced n cs = cs ↔ OnlySpaces n cs := by
  induction cs with
  | nil => exact fun n => iff_of_true rfl fun front c back h => absurd h (by simp)
  | cons c rest ih =>
    intro n
    rw [respaced, List.cons.injEq, ih, Nesting.respaced_eq_self_iff]
    constructor
    · rintro ⟨hc, hrest⟩ front d back hsplit
      rcases List.cons_eq_append_iff.mp hsplit with ⟨rfl, heq⟩ | ⟨front, rfl, hfront⟩
      · obtain ⟨rfl, -⟩ := List.cons.inj heq
        exact hc
      · exact hrest front d back hfront
    · intro h
      exact ⟨h [] c rest rfl, fun front d back hsplit =>
        h (c :: front) d back (congrArg (c :: ·) hsplit)⟩

/-- Blanks lead nowhere. -/
theorem run_of_isBlank (h : ∀ c ∈ lead, isBlank c = true) : ({} : Nesting).run lead = {} := by
  induction lead with
  | nil => rfl
  | cons c lead ih =>
    obtain ⟨hc, hlead⟩ := List.forall_mem_cons.mp h
    show (Nesting.after {} c).run lead = {}
    rw [Nesting.after_of_isBlank rfl hc, ih hlead]

theorem blanks_respaced (h : ∀ c ∈ lead, isBlank c = true) : ∀ n,
    ∀ c ∈ respaced n lead, isBlank c = true := by
  induction lead with
  | nil => exact fun _ _ hc => absurd hc List.not_mem_nil
  | cons c lead ih =>
    obtain ⟨hc, hlead⟩ := List.forall_mem_cons.mp h
    refine fun n => List.forall_mem_cons.mpr ⟨?_, ih hlead _⟩
    rw [n.isBlank_respaced, hc]

/-- White space is no less white space for being spaces. -/
theorem trim_respaced (h : trim cs = cs) (n : Nesting) : trim (respaced n cs) = respaced n cs := by
  obtain ⟨hfirst, hlast⟩ := edges_trim cs
  rw [h] at hfirst hlast
  refine trim_of_edges ?_ ?_
  · intro c hc
    cases cs with
    | nil => exact absurd hc (by simp [respaced])
    | cons d rest =>
      obtain rfl := Option.some.inj hc
      rw [n.isBlank_respaced, hfirst d rfl]
  · intro c hc
    rcases List.eq_nil_or_concat cs with rfl | ⟨init, d, rfl⟩
    · exact absurd hc (by simp [respaced])
    · rw [List.concat_eq_append, respaced_append, respaced, respaced, List.getLast?_concat] at hc
      obtain rfl := Option.some.inj hc
      rw [Nesting.isBlank_respaced, hlast d (by simp)]

/-! ## The scan for combinators -/

/-- **What the scan finds**: everything, or what stands behind the last combinator of the chain. -/
theorem lastFrom_cases (cs : List Char) : ∀ n : Nesting,
    (∀ current, lastFrom n current cs = current.reverse ++ cs) ∨
      ∃ front c back, cs = front ++ c :: back ∧ (n.run front).separates c = true ∧
        ∀ current, lastFrom n current cs = back := by
  induction cs with
  | nil => exact fun n => .inl fun current => (List.append_nil _).symm
  | cons c rest ih =>
    intro n
    by_cases hc : n.separates c = true
    · rcases ih n with hall | ⟨front, d, back, hsplit, hd, hback⟩
      · exact .inr ⟨[], c, rest, rfl, hc, fun current => by rw [lastFrom, if_pos hc, hall]; rfl⟩
      · refine .inr ⟨c :: front, d, back, congrArg (c :: ·) hsplit, ?_, fun current => ?_⟩
        · show ((n.after c).run front).separates d = true
          rw [(Nesting.eq_of_separates hc).2.1, hd]
        · rw [lastFrom, if_pos hc, hback]
    · rcases ih (n.after c) with hall | ⟨front, d, back, hsplit, hd, hback⟩
      · exact .inl fun current => by rw [lastFrom, if_neg hc, hall]; simp
      · exact .inr ⟨c :: front, d, back, congrArg (c :: ·) hsplit, hd, fun current => by
          rw [lastFrom, if_neg hc, hback]⟩

/-- Behind a combinator the scan starts anew. -/
theorem lastFrom_behind {n : Nesting} (h : (n.run front).separates c = true)
    (current back : List Char) :
    lastFrom n current (front ++ c :: back) = lastFrom {} [] back := by
  induction front generalizing n current with
  | nil =>
    have hnesting : n = {} := (Nesting.eq_of_separates h).1
    rw [List.nil_append, lastFrom, if_pos (show n.separates c = true from h), hnesting]
  | cons d front ih =>
    rw [List.cons_append, lastFrom]
    split
    next hd => exact ih (by rw [← (Nesting.eq_of_separates hd).2.1]; exact h) []
    next => exact ih h _

/-- What the scan finds has no combinators of the chain. -/
theorem lastFrom_lastFrom (cs : List Char) :
    lastFrom {} [] (lastFrom {} [] cs) = lastFrom {} [] cs := by
  rcases lastFrom_cases cs {} with hall | ⟨front, c, back, rfl, hc, hback⟩
  · rw [hall]
    exact hall []
  · rw [hback, ← lastFrom_behind hc [] back, hback]

/-- Nor does the end of it. -/
theorem lastFrom_of_append (hlead : ({} : Nesting).run lead = {})
    (h : lastFrom {} [] (lead ++ cs) = lead ++ cs) : lastFrom {} [] cs = cs := by
  rcases lastFrom_cases cs {} with hall | ⟨front, c, back, rfl, hc, -⟩
  · exact hall []
  · rw [← List.append_assoc, lastFrom_behind] at h
    · have hshort := (lastFrom_suffix {} [] back).length_le
      rw [h] at hshort
      simp at hshort
      omega
    · rwa [Nesting.run_append, hlead]

/-- **All white space outside being spaces, the scan finds what it finds in what it found before.** -/
theorem lastFrom_respaced (cs : List Char) :
    lastFrom {} [] (respaced {} (lastFrom {} [] cs)) = lastFrom {} [] (respaced {} cs) := by
  rcases lastFrom_cases cs {} with hall | ⟨front, c, back, rfl, hc, hback⟩
  · rw [hall]
    rfl
  · obtain ⟨hnesting, hafter, hself⟩ := Nesting.eq_of_separates hc
    rw [hback, respaced_append, respaced, hself, hafter, hnesting,
      lastFrom_behind (by rw [run_respaced, hc])]

/-- Blanks in front are scanned for nothing. -/
theorem trim_lastFrom_blanks (hlead : ∀ c ∈ lead, isBlank c = true) (rest : List Char) :
    ∀ current, (∀ c ∈ current, isBlank c = true) →
      trim (lastFrom {} current (lead ++ rest)) = trim (lastFrom {} [] rest) := by
  induction lead with
  | nil =>
    intro current hcurrent
    rw [List.nil_append]
    rcases lastFrom_cases rest {} with hall | ⟨-, -, back, -, -, hback⟩
    · rw [hall, hall, trim_blanks (by simpa using hcurrent)]
      rfl
    · rw [hback, hback]
  | cons c lead ih =>
    intro current hcurrent
    obtain ⟨hc, hlead⟩ := List.forall_mem_cons.mp hlead
    rw [List.cons_append, lastFrom]
    split
    · exact ih hlead [] fun _ h => absurd h List.not_mem_nil
    · rw [Nesting.after_of_isBlank rfl hc]
      exact ih hlead _ (List.forall_mem_cons.mpr ⟨hc, hcurrent⟩)

/-! ## The last compound -/

/-- In a selector without blanks at its ends, the last compound stands at the end, and the scan found
nothing but blanks in front of it. -/
theorem exists_lead_lastCompound (h : trim cs = cs) : ∃ lead, (∀ c ∈ lead, isBlank c = true) ∧
    lastFrom {} [] cs = lead ++ lastCompound cs := by
  have hlast : ∀ c, ((lastFrom {} [] cs).dropWhile isBlank).getLast? = some c → isBlank c = false := by
    intro c hc
    obtain ⟨front, hfront⟩ : (lastFrom {} [] cs).dropWhile isBlank <:+ cs :=
      (List.dropWhile_suffix _).trans (lastFrom_suffix {} [] cs)
    refine (edges_trim cs).2 c ?_
    rw [h, ← hfront, List.getLast?_append, hc]
    rfl
  have hcompound : lastCompound cs = (lastFrom {} [] cs).dropWhile isBlank :=
    dropTrailing_of_last hlast
  refine ⟨(lastFrom {} [] cs).takeWhile isBlank, fun c hc => List.mem_takeWhile_imp hc, ?_⟩
  rw [hcompound, List.takeWhile_append_dropWhile]

/-- **All white space outside being spaces, the last compound is that of the last compound.** -/
theorem lastCompound_respaced (h : trim cs = cs) :
    lastCompound (respaced {} cs) = lastCompound (respaced {} (lastCompound cs)) := by
  obtain ⟨lead, hlead, hscan⟩ := exists_lead_lastCompound h
  rw [lastCompound, ← lastFrom_respaced, hscan, respaced_append, run_of_isBlank hlead,
    trim_lastFrom_blanks (blanks_respaced hlead {}) _ [] fun _ hc => absurd hc List.not_mem_nil]
  rfl

/-- **The last compound is the same just if no other white space stands outside in it.** -/
theorem lastCompound_respaced_iff (h : trim cs = cs) :
    lastCompound (respaced {} cs) = lastCompound cs ↔ OnlySpaces {} (lastCompound cs) := by
  obtain ⟨lead, hlead, hscan⟩ := exists_lead_lastCompound h
  have hend : lastFrom {} [] (lastCompound cs) = lastCompound cs := by
    refine lastFrom_of_append (run_of_isBlank hlead) ?_
    rw [← hscan, lastFrom_lastFrom]
  have htrim : trim (lastCompound cs) = lastCompound cs := trim_trim _
  rw [lastCompound_respaced h, ← respaced_eq_self_iff]
  constructor
  · intro hsame
    rcases lastFrom_cases (respaced {} (lastCompound cs)) {} with
      hall | ⟨front, c, back, hsplit, -, hback⟩
    · rw [lastCompound, hall, List.reverse_nil, List.nil_append,
        trim_respaced htrim] at hsame
      exact hsame
    · -- The scan drops something, so what it finds is too short.
      rw [lastCompound, hback] at hsame
      have hlength := congrArg List.length hsplit
      have hshort := (infix_trim back).length_le
      rw [hsame] at hshort
      rw [length_respaced, List.length_append, List.length_cons] at hlength
      omega
  · intro hsame
    rw [hsame, lastCompound, hend, htrim]

end Mooring.Selector
