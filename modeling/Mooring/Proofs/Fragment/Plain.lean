import Mooring.Fragment.Canonical
import Mooring.Proofs.Text.Case
import Mathlib.Data.List.TakeWhile

/-!
# Plain characters, and texts that differ in names only

The passes of `canonical` look at three kinds of characters: blanks, markup punctuation and quotes.
Everything else is *plain*.  Names of tags and attributes are plain (`isPlain_of_isNameChar`), and
so is their lower case, although lower-casing may lengthen a name and even end it early: a dotted
capital I leaves a combining dot behind, which belongs to no name
(`isPlain_of_mem_lowerFrom`).

`Reworded cs ds` says that `ds` is `cs` with some non-empty plain runs replaced by other non-empty
plain runs.  Both lower-casing passes only reword (`reworded_lowerTags`, `reworded_lowerNames`), so
whatever the first three passes established survives them if it survives a rewording.
-/

namespace Mooring.Fragment

open Mooring.Text

/-- A character that is no blank, no markup punctuation and no quote. -/
def isPlain (c : Char) : Bool :=
  !isBlank c && !isPunctuation c && !isQuote c

theorem isPlain_cases {c : Char} (h : isPlain c = true) :
    isBlank c = false ∧ isPunctuation c = false ∧ isQuote c = false := by
  simpa [isPlain, and_assoc] using h

/-! ## Which characters are plain -/

/-- The white space above ASCII. -/
def wideBlanks : List Nat :=
  [0x85, 0xa0, 0x1680, 0x2000, 0x2001, 0x2002, 0x2003, 0x2004, 0x2005, 0x2006, 0x2007, 0x2008,
    0x2009, 0x200a, 0x2028, 0x2029, 0x202f, 0x205f, 0x3000]

theorem isBlank_ascii {c : Char} (hc : c.toNat < 128) :
    isBlank c = true ↔ c.toNat = 32 ∨ (9 ≤ c.toNat ∧ c.toNat ≤ 13) ∨
      (28 ≤ c.toNat ∧ c.toNat ≤ 31) := by
  simp only [isBlank, hc, if_true, Bool.or_eq_true, Bool.and_eq_true, beq_iff_eq,
    decide_eq_true_eq]
  omega

theorem isBlank_wide {c : Char} (hc : 128 ≤ c.toNat) :
    isBlank c = true ↔ c.toNat ∈ wideBlanks := by
  have hlt : ¬ c.toNat < 128 := by omega
  simp only [isBlank, hlt, if_false, Bool.or_eq_true, Bool.and_eq_true, beq_iff_eq,
    decide_eq_true_eq, wideBlanks, List.mem_cons, List.not_mem_nil, or_false]
  omega

/-- Punctuation and quotes, by their code points. -/
theorem isPunctuation_or_isQuote {c : Char} :
    (isPunctuation c = true ∨ isQuote c = true) ↔
      c.toNat ∈ [60, 62, 61, 47, 123, 125, 40, 41, 44, 59, 34, 39] := by
  simp only [isPunctuation, isQuote, Bool.or_eq_true, beq_iff_eq, ← Char.toNat_inj,
    List.mem_cons, List.not_mem_nil, or_false]
  simp only [Char.reduceToNat]
  omega

theorem isPlain_iff {c : Char} : isPlain c = true ↔
    isBlank c = false ∧ c.toNat ∉ [60, 62, 61, 47, 123, 125, 40, 41, 44, 59, 34, 39] := by
  rw [← isPunctuation_or_isQuote]
  simp only [isPlain, Bool.and_eq_true, Bool.not_eq_true', not_or, Bool.not_eq_true, and_assoc]

/-- Above ASCII everything but white space is plain. -/
theorem isPlain_wide {c : Char} (hc : 128 ≤ c.toNat) (h : c.toNat ∉ wideBlanks) :
    isPlain c = true := by
  refine isPlain_iff.mpr ⟨?_, ?_⟩
  · cases hb : isBlank c with
    | false => rfl
    | true => exact absurd ((isBlank_wide hc).mp hb) h
  · simp only [List.mem_cons, List.not_mem_nil, or_false]
    omega

/-- No word character above ASCII is white space. -/
theorem wideBlanks_no_words :
    (wideBlanks.all fun n => !letterRanges.search n 0 letterRanges.size &&
      !numberRanges.search n 0 numberRanges.size) = true := by
  decide +kernel

/-- No white space above ASCII lies in a run of capitals. -/
theorem wideBlanks_no_capitals :
    (wideBlanks.all fun n =>
      (capitalRuns.toList.find? fun run => run.first ≤ n && n ≤ run.last).isNone) = true := by
  decide +kernel

/-- A character of a name in ASCII, by its code point. -/
theorem isNameChar_ascii {c : Char} (hc : c.toNat < 128) (h : isNameChar c = true) :
    (97 ≤ c.toNat ∧ c.toNat ≤ 122) ∨ (65 ≤ c.toNat ∧ c.toNat ≤ 90) ∨
      (48 ≤ c.toNat ∧ c.toNat ≤ 57) ∨ c.toNat = 95 ∨ c.toNat = 46 ∨ c.toNat = 58 ∨
      c.toNat = 45 := by
  simp only [isNameChar, isWord, hc, if_true, isAsciiLetter, isAsciiDigit, Bool.or_eq_true,
    Bool.and_eq_true, decide_eq_true_eq, beq_iff_eq, ← Char.toNat_inj, Char.le_def,
    UInt32.le_iff_toNat_le, Char.toNat_val] at h
  simp only [Char.reduceToNat] at h
  omega

/-- Characters of names in ASCII are plain. -/
theorem isPlain_ascii {c : Char} (h : (97 ≤ c.toNat ∧ c.toNat ≤ 122) ∨
    (65 ≤ c.toNat ∧ c.toNat ≤ 90) ∨ (48 ≤ c.toNat ∧ c.toNat ≤ 57) ∨ c.toNat = 95 ∨ c.toNat = 46 ∨
      c.toNat = 58 ∨ c.toNat = 45) : isPlain c = true := by
  refine isPlain_iff.mpr ⟨?_, ?_⟩
  · rw [Bool.eq_false_iff, Ne, isBlank_ascii (by omega)]
    omega
  · simp only [List.mem_cons, List.not_mem_nil, or_false]
    omega

/-- A character of a name above ASCII is no white space. -/
theorem isNameChar_wide {c : Char} (hc : 128 ≤ c.toNat) (h : isNameChar c = true) :
    c.toNat ∉ wideBlanks := by
  intro hmem
  have hno := List.all_eq_true.mp wideBlanks_no_words _ hmem
  simp only [Bool.and_eq_true, Bool.not_eq_true'] at hno
  have hlt : ¬ c.toNat < 128 := by omega
  have hmarks : c.toNat ≠ 46 ∧ c.toNat ≠ 58 ∧ c.toNat ≠ 45 := by omega
  simp only [isNameChar, isWord, hlt, if_false, Ranges.contains, hno.1, hno.2, Bool.or_false,
    Bool.false_or, Bool.or_eq_true, beq_iff_eq, ← Char.toNat_inj] at h
  simp only [Char.reduceToNat] at h
  omega

/-- Names are plain. -/
theorem isPlain_of_isNameChar {c : Char} (h : isNameChar c = true) : isPlain c = true := by
  rcases Nat.lt_or_ge c.toNat 128 with hc | hc
  · exact isPlain_ascii (isNameChar_ascii hc h)
  · exact isPlain_wide hc (isNameChar_wide hc h)

/-- The lower case of a character of a name is plain. -/
theorem isPlain_lowerChar {c : Char} (h : isNameChar c = true) : isPlain (lowerChar c) = true := by
  have hself := isPlain_of_isNameChar h
  rcases Nat.lt_or_ge c.toNat 128 with hc | hc
  · rcases lowerChar_ascii hc with ⟨hlo, hhi, hsmall⟩ | ⟨-, hlow⟩
    · exact isPlain_ascii (by omega)
    · rw [hlow]
      exact hself
  · rcases lowerChar_cases hc with ⟨run, hmem, hcap, hlow⟩ | hlow
    · -- A run of capitals may land in ASCII (the sign for kelvins does), but then on a letter.
      obtain ⟨-, -, hland⟩ := toNat_small hmem hcap
      rw [← hlow] at hland
      rcases Nat.lt_or_ge (lowerChar c).toNat 128 with hlt | hge
      · exact isPlain_ascii (by omega)
      · refine isPlain_wide hge ?_
        simp only [wideBlanks, List.mem_cons, List.not_mem_nil, or_false]
        omega
    · rw [hlow]
      exact hself

/-- The lower case of a name is plain. -/
theorem isPlain_of_mem_lowerFrom {name : List Char} {afterCased : Bool}
    (hname : ∀ c ∈ name, isNameChar c = true) {c : Char} (hc : c ∈ lowerFrom afterCased name) :
    isPlain c = true := by
  rcases mem_lowerFrom name afterCased hc with ⟨d, hd, rfl⟩ | rfl | rfl | rfl | rfl
  · exact isPlain_lowerChar (hname d hd)
  all_goals decide

/-! ## Rewording -/

/-- `Reworded cs ds`: the texts agree up to plain runs, each replaced by another one. -/
inductive Reworded : List Char → List Char → Prop
  | nil : Reworded [] []
  | keep (c : Char) {cs ds : List Char} : Reworded cs ds → Reworded (c :: cs) (c :: ds)
  | word {name name' cs ds : List Char} (hne : name ≠ []) (hne' : name' ≠ [])
      (hplain : ∀ c ∈ name, isPlain c = true) (hplain' : ∀ c ∈ name', isPlain c = true) :
      Reworded cs ds → Reworded (name ++ cs) (name' ++ ds)

/-- Lower-casing a name at the start of a text rewords it. -/
theorem reworded_lowerNameAt {isFirst : Char → Bool}
    (hfirst : ∀ c, isFirst c = true → isNameChar c = true) {cs ds : List Char}
    (h : Reworded (lowerNameAt isFirst cs).2 ds) :
    Reworded cs ((lowerNameAt isFirst cs).1 ++ ds) := by
  cases cs with
  | nil => exact h
  | cons c rest =>
    simp only [lowerNameAt] at h ⊢
    split
    next hc =>
      rw [if_pos hc] at h
      have hname : ∀ d ∈ c :: rest.takeWhile isNameChar, isNameChar d = true := by
        intro d hd
        rcases List.mem_cons.mp hd with rfl | hd
        · exact hfirst d hc
        · exact List.mem_takeWhile_imp hd
      -- The run up to the end of the name is replaced; what follows is reworded by hypothesis.
      have hsplit : c :: rest = (c :: rest.takeWhile isNameChar) ++ rest.dropWhile isNameChar := by
        rw [List.cons_append, List.takeWhile_append_dropWhile]
      rw [hsplit]
      exact .word (by simp) (lowerFrom_ne_nil (by simp))
        (fun d hd => isPlain_of_isNameChar (hname d hd))
        (fun d hd => isPlain_of_mem_lowerFrom hname hd) h
    next hc =>
      rw [if_neg hc] at h
      exact h

theorem isNameChar_of_isAsciiLetter {c : Char} (h : isAsciiLetter c = true) :
    isNameChar c = true := by
  have hc := toNat_lt_of_isAsciiLetter h
  simp only [isNameChar, isWord, hc, if_true, h, Bool.true_or]

/-- Lower-casing the names of tags only rewords. -/
theorem reworded_lowerTags (cs : List Char) : Reworded cs (lowerTags cs) := by
  fun_induction lowerTags cs with
  | case1 => exact .nil
  | case2 c hc more named ih =>
    rw [beq_iff_eq.mp hc]
    exact .keep '<' (.keep '/' (reworded_lowerNameAt (fun d => isNameChar_of_isAsciiLetter) ih))
  | case3 c hc more hmore named ih =>
    rw [beq_iff_eq.mp hc]
    exact .keep '<' (reworded_lowerNameAt (fun d => isNameChar_of_isAsciiLetter) ih)
  | case4 c rest hc ih => exact .keep c ih

/-- White space has no lower case but itself. -/
theorem isSmall_of_isBlank {c : Char} (h : isBlank c = true) : isSmall c = true := by
  rcases Nat.lt_or_ge c.toNat 128 with hc | hc
  · have hb := (isBlank_ascii hc).mp h
    rcases lowerChar_ascii hc with ⟨hlo, hhi, -⟩ | ⟨-, hself⟩
    · omega
    · exact beq_iff_eq.mpr hself
  · have hno := List.all_eq_true.mp wideBlanks_no_capitals _ ((isBlank_wide hc).mp h)
    rw [isSmall, lowerChar_eq_smallForm hc, Option.isNone_iff_eq_none.mp hno]
    exact beq_self_eq_true c

/-- What may stand before an attribute's name is its own lower case. -/
theorem isSmall_of_opensName {c : Char} (h : opensName c = true) : isSmall c = true := by
  simp only [opensName, Bool.or_eq_true, beq_iff_eq] at h
  rcases h with ((hblank | rfl) | rfl) | rfl
  · exact isSmall_of_isBlank hblank
  all_goals decide

/-- Lower-casing a small character and a name lower-cases the name. -/
theorem lower_cons_small {c : Char} (hc : isSmall c = true) (name : List Char) :
    ∃ after, lower (c :: name) = c :: lowerFrom after name := by
  refine ⟨if isSigmaSkip c then false else isCased c, ?_⟩
  -- The two capitals that are treated apart are not small, so `c` is none of them.
  have hne : ∀ d : Char, isSmall d = false → ¬ (c.toNat == d.toNat) = true := by
    intro d hd he
    rw [Char.toNat_inj.mp (beq_iff_eq.mp he), hd] at hc
    exact Bool.false_ne_true hc
  have hsigma : ¬ (c.toNat == 0x3a3) = true := hne 'Σ' not_isSmall_special.1
  have hdotted : ¬ (c.toNat == 0x130) = true := hne 'İ' not_isSmall_special.2
  simp only [lower, lowerFrom]
  rw [if_neg hsigma, if_neg hdotted, beq_iff_eq.mp hc]

/-- An assigned name, and what follows it, make up the text. -/
theorem assignedName?_eq_some {cs name after : List Char}
    (h : assignedName? cs = some (name, after)) :
    cs = name ++ after ∧ name ≠ [] ∧ (∀ c ∈ name, isNameChar c = true) ∧
      ∃ rest, after = '=' :: rest := by
  unfold assignedName? at h
  split at h
  next c rest =>
    split at h
    next hc =>
      split at h
      next more hmore =>
        simp only [Option.some.injEq, Prod.mk.injEq] at h
        obtain ⟨rfl, rfl⟩ := h
        refine ⟨?_, by simp, ?_, more, rfl⟩
        · rw [← hmore, List.cons_append, List.takeWhile_append_dropWhile]
        · intro d hd
          rcases List.mem_cons.mp hd with rfl | hd
          · simp only [isNameStart, Bool.or_eq_true, beq_iff_eq] at hc
            rcases hc with (hletter | rfl) | rfl
            · exact isNameChar_of_isAsciiLetter hletter
            all_goals decide
          · exact List.mem_takeWhile_imp hd
      next => simp at h
    next => simp at h
  next => simp at h

/-- Lower-casing the names of attributes only rewords. -/
theorem reworded_lowerNames (cs : List Char) : Reworded cs (lowerNames cs) := by
  fun_induction lowerNames cs with
  | case1 => exact .nil
  | case2 c rest hc name after hassigned ih =>
    obtain ⟨hsplit, hne, hname, -⟩ := assignedName?_eq_some hassigned
    obtain ⟨afterCased, hlower⟩ := lower_cons_small (isSmall_of_opensName hc) name
    rw [hlower, hsplit]
    exact .keep c (.word hne (lowerFrom_ne_nil hne)
      (fun d hd => isPlain_of_isNameChar (hname d hd))
      (fun d hd => isPlain_of_mem_lowerFrom hname hd) ih)
  | case3 c rest hc hnone ih => exact .keep c ih
  | case4 c rest hc ih => exact .keep c ih

end Mooring.Fragment
