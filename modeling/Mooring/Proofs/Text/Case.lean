import Mooring.Text.Letters
import Mooring.Text.Lower

/-!
# Lower case is a state of rest

A lower-case letter has no further lower case: `lowerChar` sends every character to one that it
leaves alone (`lowerChar_lowerChar`).  Hence a text that was lower-cased, and every piece of it,
is its own lower case (`lower_of_small`), whatever letters stand around it.

Above ASCII the capitals are a table of runs, so the fact about characters is a fact about pairs of
runs: the small forms of one are no capitals of another.  That is `CapitalRun.clears`, checked over
the whole table.  The same table shows where small forms may lie at all (`CapitalRun.landsOn`):
lower-casing a letter never makes white space or a piece of markup.
-/

namespace Mooring.Text

/-! ## Runs of capitals -/

/-- The code point of the first small form of a run. -/
def CapitalRun.smallFirst (run : CapitalRun) : Nat :=
  (run.first + run.shift).toNat

/-- The code point of the last small form of a run. -/
def CapitalRun.smallLast (run : CapitalRun) : Nat :=
  (run.last + run.shift).toNat

/-- The code point is a capital of the run. -/
def CapitalRun.HasCapital (run : CapitalRun) (n : Nat) : Prop :=
  run.first ≤ n ∧ n ≤ run.last ∧ (n - run.first) % run.step = 0

/-- No small form of `run` is a capital of `other`: the two lie apart, or every second code point of
`other` is a capital and the small forms are the ones between.  (Written with the comparisons that
the kernel computes, because it goes over all pairs.) -/
def CapitalRun.clears (run other : CapitalRun) : Bool :=
  Nat.ble (other.last + 1) run.smallFirst || Nat.ble (run.smallLast + 1) other.first ||
    (Nat.beq other.step 2 && (Nat.beq run.step 2 || Nat.beq run.first run.last) &&
      Nat.beq ((run.smallFirst - other.first) % 2) 1)

/-- The small forms of a run are ASCII letters, or characters above ASCII none of which is white
space or half of a pair. -/
def CapitalRun.landsOn (run : CapitalRun) : Bool :=
  0 ≤ run.first + run.shift &&
    ((0x61 ≤ run.smallFirst && run.smallLast ≤ 0x7a) ||
      (0xa1 ≤ run.smallFirst && run.smallLast < 0x1680) ||
      (0x1681 ≤ run.smallFirst && run.smallLast < 0x2000) ||
      (0x2060 ≤ run.smallFirst && run.smallLast < 0x3000) ||
      (0x3001 ≤ run.smallFirst && run.smallLast < 0xd800) ||
      (0xe000 ≤ run.smallFirst && run.smallLast < 0x110000))

set_option maxRecDepth 10000 in
theorem capitalRuns_clear :
    (capitalRuns.toList.all fun run => capitalRuns.toList.all fun other => run.clears other)
      = true := by
  decide +kernel

set_option maxRecDepth 10000 in
theorem capitalRuns_land : (capitalRuns.toList.all CapitalRun.landsOn) = true := by
  decide +kernel

/-- A small form of one run is no capital of another. -/
theorem not_hasCapital_of_clears {run other : CapitalRun} {n m : Nat}
    (hclear : run.clears other = true) (hn : run.HasCapital n) (hm : (m : Int) = n + run.shift)
    (hpos : 0 ≤ run.first + run.shift) : ¬ other.HasCapital m := by
  rintro ⟨hlo, hhi, hmod⟩
  obtain ⟨hnlo, hnhi, hnmod⟩ := hn
  simp only [CapitalRun.clears, Bool.or_eq_true, Bool.and_eq_true, Nat.ble_eq, Nat.beq_eq]
    at hclear
  unfold CapitalRun.smallFirst CapitalRun.smallLast at hclear
  rcases hclear with (happart | happart) | ⟨⟨hother, hrun⟩, hodd⟩
  · omega
  · omega
  · -- Capitals and small forms alternate, so the distance between them is odd.
    rw [hother] at hmod
    rcases hrun with hrun | hrun
    · rw [hrun] at hnmod
      omega
    · omega

/-! ## Characters -/

/-- A character that is its own lower case. -/
def isSmall (c : Char) : Bool :=
  lowerChar c == c

/-- What the run of a character, if it lies in one, makes of it. -/
def smallForm (c : Char) : Option CapitalRun → Char
  | some run =>
    if (c.toNat - run.first) % run.step == 0 then Char.ofNat (c.toNat + run.shift).toNat else c
  | none => c

/-- Above ASCII the lower case of a character comes from the first run that it lies in. -/
theorem lowerChar_eq_smallForm {c : Char} (hc : 128 ≤ c.toNat) :
    lowerChar c = smallForm c
      (capitalRuns.toList.find? fun run => run.first ≤ c.toNat && c.toNat ≤ run.last) := by
  unfold lowerChar
  rw [if_neg (by omega)]
  simp only [← Array.find?_toList]
  cases capitalRuns.toList.find? fun run => run.first ≤ c.toNat && c.toNat ≤ run.last with
  | none => rfl
  | some run => rfl

/-- The lower case of a character above ASCII is the small form of a capital, or the character
itself. -/
theorem lowerChar_cases {c : Char} (hc : 128 ≤ c.toNat) :
    (∃ run ∈ capitalRuns.toList, run.HasCapital c.toNat ∧
      lowerChar c = Char.ofNat (c.toNat + run.shift).toNat) ∨ lowerChar c = c := by
  rw [lowerChar_eq_smallForm hc]
  cases hfind : capitalRuns.toList.find? fun run => run.first ≤ c.toNat && c.toNat ≤ run.last with
  | none => exact Or.inr rfl
  | some run =>
    have hin := List.find?_some hfind
    simp only [Bool.and_eq_true, decide_eq_true_eq] at hin
    simp only [smallForm]
    split
    next hmod =>
      exact Or.inl ⟨run, List.mem_of_find?_eq_some hfind, ⟨hin.1, hin.2, beq_iff_eq.mp hmod⟩, rfl⟩
    next => exact Or.inr rfl

/-- A character above ASCII that no run has as a capital is its own lower case. -/
theorem lowerChar_eq_self {c : Char} (hc : 128 ≤ c.toNat)
    (h : ∀ run ∈ capitalRuns.toList, ¬ run.HasCapital c.toNat) : lowerChar c = c := by
  rcases lowerChar_cases hc with ⟨run, hmem, hcap, -⟩ | hself
  · exact absurd hcap (h run hmem)
  · exact hself

/-- A number that is no half of a pair is the code point of its character. -/
theorem toNat_ofNat {n : Nat} (h : n < 0xd800 ∨ (0xe000 ≤ n ∧ n < 0x110000)) :
    (Char.ofNat n).toNat = n := by
  have hvalid : n.isValidChar := by
    unfold Nat.isValidChar
    omega
  rw [Char.ofNat, dif_pos hvalid]
  rfl

/-- Where the small form of a capital lies: as far on as its run says, on a letter of ASCII or on
something above ASCII that is no white space. -/
theorem toNat_small {run : CapitalRun} {n : Nat} (hmem : run ∈ capitalRuns.toList)
    (hn : run.HasCapital n) :
    let m := (Char.ofNat (n + run.shift).toNat).toNat
    (m : Int) = n + run.shift ∧ 0 ≤ run.first + run.shift ∧
      ((0x61 ≤ m ∧ m ≤ 0x7a) ∨ (0xa1 ≤ m ∧ m < 0x1680) ∨ (0x1681 ≤ m ∧ m < 0x2000) ∨
        (0x2060 ≤ m ∧ m < 0x3000) ∨ 0x3001 ≤ m) := by
  have hland := List.all_eq_true.mp capitalRuns_land run hmem
  obtain ⟨hlo, hhi, -⟩ := hn
  simp only [CapitalRun.landsOn, Bool.or_eq_true, Bool.and_eq_true, decide_eq_true_eq] at hland
  unfold CapitalRun.smallFirst CapitalRun.smallLast at hland
  have hm := toNat_ofNat (n := (n + run.shift).toNat) (by omega)
  rw [hm]
  refine ⟨?_, ?_, ?_⟩ <;> omega

/-- ASCII letters are ASCII. -/
theorem toNat_lt_of_isAsciiLetter {c : Char} (h : isAsciiLetter c = true) : c.toNat < 128 := by
  simp only [isAsciiLetter, Bool.or_eq_true, Bool.and_eq_true, decide_eq_true_eq] at h
  rcases h with ⟨-, hz⟩ | ⟨-, hz⟩
  · exact Nat.lt_of_le_of_lt (show c.toNat ≤ 'z'.toNat from hz) (by decide)
  · exact Nat.lt_of_le_of_lt (show c.toNat ≤ 'Z'.toNat from hz) (by decide)

theorem isLetter_of_isAsciiLetter {c : Char} (h : isAsciiLetter c = true) : isLetter c = true := by
  rw [isLetter, if_pos (toNat_lt_of_isAsciiLetter h), h]

/-- An ASCII character is a capital, with its small form 32 further on, or its own lower case. -/
theorem lowerChar_ascii {c : Char} (hc : c.toNat < 128) :
    (65 ≤ c.toNat ∧ c.toNat ≤ 90 ∧ (lowerChar c).toNat = c.toNat + 32) ∨
      (¬ (65 ≤ c.toNat ∧ c.toNat ≤ 90) ∧ lowerChar c = c) := by
  have hle : ('A' ≤ c && c ≤ 'Z') = true ↔ 65 ≤ c.toNat ∧ c.toNat ≤ 90 := by
    simp only [Bool.and_eq_true, decide_eq_true_eq]
    exact Iff.rfl
  unfold lowerChar
  rw [if_pos hc]
  by_cases hcap : 65 ≤ c.toNat ∧ c.toNat ≤ 90
  · rw [if_pos (hle.mpr hcap)]
    exact Or.inl ⟨hcap.1, hcap.2, toNat_ofNat (by omega)⟩
  · rw [if_neg (fun h => hcap (hle.mp h))]
    exact Or.inr ⟨hcap, rfl⟩

/-- **A lower-case character has no further lower case.** -/
theorem lowerChar_lowerChar (c : Char) : lowerChar (lowerChar c) = lowerChar c := by
  rcases Nat.lt_or_ge c.toNat 128 with hc | hc
  · rcases lowerChar_ascii hc with ⟨hlo, hhi, hsmall⟩ | ⟨-, hself⟩
    · rcases lowerChar_ascii (c := lowerChar c) (by omega) with ⟨h1, h2, -⟩ | ⟨-, h⟩
      · omega
      · exact h
    · rw [hself, hself]
  · rcases lowerChar_cases hc with ⟨run, hmem, hcap, hlow⟩ | hself
    · obtain ⟨hnat, hpos, hland⟩ := toNat_small hmem hcap
      rw [← hlow] at hnat hland
      rcases Nat.lt_or_ge (lowerChar c).toNat 128 with hsmall | hsmall
      · -- the few capitals above ASCII whose small forms are ASCII letters
        rcases lowerChar_ascii hsmall with ⟨h1, h2, -⟩ | ⟨-, h⟩
        · omega
        · exact h
      · -- Above ASCII the table itself rules out a second step, pair of runs by pair.
        refine lowerChar_eq_self hsmall fun other hother => ?_
        have hclear := List.all_eq_true.mp (List.all_eq_true.mp capitalRuns_clear run hmem) other
          hother
        exact not_hasCapital_of_clears hclear hcap hnat hpos
    · rw [hself, hself]

theorem isSmall_lowerChar (c : Char) : isSmall (lowerChar c) = true :=
  beq_iff_eq.mpr (lowerChar_lowerChar c)

/-- The characters that a whole text's lower case has besides those of its characters. -/
theorem isSmall_special :
    isSmall 'ς' = true ∧ isSmall 'σ' = true ∧ isSmall 'i' = true ∧ isSmall '\u0307' = true := by
  unfold isSmall
  rw [lowerChar_eq_smallForm (c := 'ς') (by decide), lowerChar_eq_smallForm (c := 'σ') (by decide),
    lowerChar_eq_smallForm (c := '\u0307') (by decide)]
  decide +kernel

/-- The two capitals that a whole text's lower case treats apart are no small characters. -/
theorem not_isSmall_special : isSmall 'Σ' = false ∧ isSmall 'İ' = false := by
  unfold isSmall
  rw [lowerChar_eq_smallForm (c := 'Σ') (by decide), lowerChar_eq_smallForm (c := 'İ') (by decide)]
  decide +kernel

/-! ## Texts -/

/-- Every character of a lower-cased text is the lower case of a character of the text, or one of
the few that come with it. -/
theorem mem_lowerFrom {c : Char} :
    ∀ (cs : List Char) (afterCased : Bool), c ∈ lowerFrom afterCased cs →
      (∃ d ∈ cs, c = lowerChar d) ∨ c = 'ς' ∨ c = 'σ' ∨ c = 'i' ∨ c = '\u0307' := by
  intro cs
  induction cs with
  | nil => intro _ h; simp [lowerFrom] at h
  | cons d rest ih =>
    intro afterCased h
    have htail : ∀ after, c ∈ lowerFrom after rest →
        (∃ e ∈ d :: rest, c = lowerChar e) ∨ c = 'ς' ∨ c = 'σ' ∨ c = 'i' ∨ c = '\u0307' := by
      intro after hc
      rcases ih after hc with ⟨e, he, heq⟩ | hspecial
      · exact Or.inl ⟨e, List.mem_cons_of_mem _ he, heq⟩
      · exact Or.inr hspecial
    -- The capital sigma has two small forms, and the dotted I becomes two characters.
    simp only [lowerFrom] at h
    split at h
    · rcases List.mem_cons.mp h with rfl | h
      · split <;> simp
      · exact htail _ h
    · split at h
      · rcases List.mem_cons.mp h with rfl | h
        · simp
        · rcases List.mem_cons.mp h with rfl | h
          · simp
          · exact htail _ h
      · rcases List.mem_cons.mp h with rfl | h
        · exact Or.inl ⟨d, List.mem_cons_self .., rfl⟩
        · exact htail _ h

/-- Every character of a lower-cased text is small. -/
theorem isSmall_of_mem_lowerFrom {c : Char} {cs : List Char} {afterCased : Bool}
    (h : c ∈ lowerFrom afterCased cs) : isSmall c = true := by
  obtain ⟨hfinal, hsigma, hi, hdot⟩ := isSmall_special
  rcases mem_lowerFrom cs afterCased h with ⟨d, -, rfl⟩ | rfl | rfl | rfl | rfl
  · exact isSmall_lowerChar d
  · exact hfinal
  · exact hsigma
  · exact hi
  · exact hdot

/-- A text of small characters is its own lower case, whatever stands before it. -/
theorem lowerFrom_of_small :
    ∀ (cs : List Char) (afterCased : Bool), (∀ c ∈ cs, isSmall c = true) →
      lowerFrom afterCased cs = cs := by
  intro cs
  induction cs with
  | nil => intro _ _; rfl
  | cons c rest ih =>
    intro afterCased h
    have hc := h c (List.mem_cons_self ..)
    have hrest := ih (if isSigmaSkip c then afterCased else isCased c)
      fun d hd => h d (List.mem_cons_of_mem _ hd)
    have hne : ∀ d : Char, isSmall d = false → ¬ (c.toNat == d.toNat) = true := by
      intro d hd he
      have hcd : c = d := Char.toNat_inj.mp (beq_iff_eq.mp he)
      rw [hcd, hd] at hc
      exact Bool.false_ne_true hc
    have hsigma : ¬ (c.toNat == 0x3a3) = true := hne 'Σ' not_isSmall_special.1
    have hdotted : ¬ (c.toNat == 0x130) = true := hne 'İ' not_isSmall_special.2
    simp only [lowerFrom]
    rw [if_neg hsigma, if_neg hdotted, beq_iff_eq.mp hc, hrest]

/-- A text of small characters is its own lower case. -/
theorem lower_of_small {cs : List Char} (h : ∀ c ∈ cs, isSmall c = true) : lower cs = cs :=
  lowerFrom_of_small cs false h

/-- Lower-casing never shortens a text. -/
theorem length_le_lowerFrom (afterCased : Bool) (cs : List Char) :
    cs.length ≤ (lowerFrom afterCased cs).length := by
  induction cs generalizing afterCased with
  | nil => exact Nat.le_refl _
  | cons c rest ih =>
    have hrest := ih (if isSigmaSkip c then afterCased else isCased c)
    simp only [lowerFrom]
    split
    · simpa using hrest
    · split
      · simp only [List.length_cons]
        omega
      · simpa using hrest

/-- Lower-casing keeps a text from being empty. -/
theorem lowerFrom_ne_nil {afterCased : Bool} {cs : List Char} (h : cs ≠ []) :
    lowerFrom afterCased cs ≠ [] := by
  cases cs with
  | nil => exact absurd rfl h
  | cons c rest =>
    simp only [lowerFrom]
    split
    · simp
    · split <;> simp

end Mooring.Text
