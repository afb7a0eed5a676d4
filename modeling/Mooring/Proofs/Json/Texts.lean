import Mooring.Json.Reader
import Mooring.Json.Writer
import Mooring.Proofs.Decimal.Digits

/-!
# Quoted texts are read back

What the writer makes of a character, the reader turns into that character again
(`readText_writeChar`); a quoted text is read up to its closing quote and no further
(`readText_writeText`).  Nothing that the writer makes of a character is a control, so a written
text has none either (`writeChar_printable`).

Only controls are written by their code points, so no pair of code units ever arises in a file.
-/

namespace Mooring.Json

open Mooring.Text

/-! ## Hexadecimal digits -/

theorem hexDigit_table : ∀ d < 16, isHexDigit (hexDigit d) = true ∧ hexValue (hexDigit d) = d := by
  decide

theorem hexDigits_four (n : Nat) :
    hexDigits 4 n = [hexDigit (n / 16 / 16 / 16 % 16), hexDigit (n / 16 / 16 % 16),
      hexDigit (n / 16 % 16), hexDigit (n % 16)] :=
  rfl

/-- Four digits that do not end the text are read as the number they were written for. -/
theorem unit?_hexDigits {n : Nat} (h : n < 0x10000) {rest : List Char} (hrest : rest ≠ []) :
    unit? (hexDigits 4 n ++ rest) = some (n, rest) := by
  obtain ⟨e, rest, rfl⟩ := List.exists_cons_of_ne_nil hrest
  have hdigit : ∀ m, isHexDigit (hexDigit (m % 16)) = true :=
    fun m => (hexDigit_table (m % 16) (Nat.mod_lt m (by omega))).1
  have hvalue : ∀ m, hexValue (hexDigit (m % 16)) = m % 16 :=
    fun m => (hexDigit_table (m % 16) (Nat.mod_lt m (by omega))).2
  rw [hexDigits_four]
  simp only [List.cons_append, List.nil_append, unit?, hdigit, Bool.and_self, if_true,
    digitsValue, List.foldl_cons, List.foldl_nil, hvalue]
  rw [show (((0 * 16 + n / 16 / 16 / 16 % 16) * 16 + n / 16 / 16 % 16) * 16 + n / 16 % 16) * 16 +
    n % 16 = n by omega]

/-! ## Characters -/

/-- A character and what is read after it. -/
def withChar (c : Char) (after : Except Failure (List Char × List Char)) :
    Except Failure (List Char × List Char) :=
  after.map fun (s, rest) => (c :: s, rest)

variable {opening fuel : Nat} {rest : List Char}

/-- A short escape is read as its character. -/
theorem readText_escaped {e c : Char} (hu : e ≠ 'u') (h : escaped? e = some c) :
    readText opening (fuel + 1) ('\\' :: e :: rest) =
      withChar c (readText opening fuel rest) := by
  rw [readText]
  · simp only [show ('\\' == '"') = false from rfl, Bool.false_eq_true, if_false, beq_self_eq_true,
      if_true, h]
    rfl
  · exact hu

/-- An escape of a code unit that is no half of a pair is read as its character. -/
theorem readText_unitEscape {n : Nat} (h : n < 0xd800) (hrest : rest ≠ []) :
    readText opening (fuel + 1) (unitEscape n ++ rest) =
      withChar (Char.ofNat n) (readText opening fuel rest) := by
  have hjoin : joinUnits n rest = .ok (Char.ofNat n, rest) := by
    have hchar : unitChar n = Char.ofNat n := by
      unfold unitChar
      rw [if_neg (by simp; omega)]
    unfold joinUnits
    split
    · rw [if_neg (by simp; omega), hchar]
    · rw [hchar]
  show readText opening (fuel + 1) ('\\' :: 'u' :: (hexDigits 4 n ++ rest)) = _
  rw [readText]
  simp only [show ('\\' == '"') = false from rfl, Bool.false_eq_true, if_false, beq_self_eq_true,
    if_true, unit?_hexDigits (Nat.lt_trans h (by omega)) hrest, hjoin]
  rfl

/-- A character that needs no escape is read as it is. -/
theorem readText_plain {c : Char} (hquote : c ≠ '"') (hslash : c ≠ '\\') (h : 32 ≤ c.toNat) :
    readText opening (fuel + 1) (c :: rest) = withChar c (readText opening fuel rest) := by
  rw [readText.eq_def]
  dsimp only
  rw [if_neg (by simpa using hquote), if_neg (by simpa using hslash), if_neg (by omega)]
  rfl

/-- The three ways in which a character is written into a file. -/
inductive WrittenAs (c : Char) : List Char → Prop
  | short {e : Char} : escaped? e = some c → e ≠ 'u' → 32 ≤ e.toNat → WrittenAs c ['\\', e]
  | unit : c.toNat < 32 → WrittenAs c (unitEscape c.toNat)
  | plain : c ≠ '"' → c ≠ '\\' → 32 ≤ c.toNat → WrittenAs c [c]

theorem writtenAs_writeChar (c : Char) : WrittenAs c (writeChar fileStyle c) := by
  have hnat : ∀ n, c.toNat = n → c = Char.ofNat n := fun n hn => by
    rw [← hn, Char.ofNat_toNat]
  by_cases hquote : c = '"'
  · rw [hquote]
    exact .short rfl (by decide) (by decide)
  by_cases hslash : c = '\\'
  · rw [hslash]
    exact .short rfl (by decide) (by decide)
  by_cases hfeed : c = '\n'
  · rw [hfeed]
    exact .short rfl (by decide) (by decide)
  by_cases hreturn : c = '\r'
  · rw [hreturn]
    exact .short rfl (by decide) (by decide)
  by_cases htab : c = '\t'
  · rw [htab]
    exact .short rfl (by decide) (by decide)
  by_cases hback : c.toNat = 8
  · rw [hnat 8 hback]
    exact .short rfl (by decide) (by decide)
  by_cases hform : c.toNat = 12
  · rw [hnat 12 hform]
    exact .short rfl (by decide) (by decide)
  have hrest : writeChar fileStyle c = if c.toNat < 32 then unitEscape c.toNat else [c] := by
    unfold writeChar
    simp only [beq_iff_eq, hquote, hslash, hfeed, hreturn, htab, hback, hform, if_false]
    rfl
  rw [hrest]
  split
  next hcontrol => exact .unit hcontrol
  next hplain => exact .plain hquote hslash (Nat.le_of_not_lt hplain)

/-- **What is written for a character is read as that character.** -/
theorem readText_writeChar (c : Char) (hrest : rest ≠ []) :
    readText opening (fuel + 1) (writeChar fileStyle c ++ rest) =
      withChar c (readText opening fuel rest) := by
  have hwritten := writtenAs_writeChar c
  generalize writeChar fileStyle c = written at hwritten ⊢
  cases hwritten with
  | short he hu _ => exact readText_escaped hu he
  | unit hcontrol =>
    have hread : readText opening (fuel + 1) (unitEscape c.toNat ++ rest) =
        withChar (Char.ofNat c.toNat) (readText opening fuel rest) :=
      readText_unitEscape (by omega) hrest
    rwa [Char.ofNat_toNat] at hread
  | plain hquote hslash hprints => exact readText_plain hquote hslash hprints

/-! ## Texts -/

/-- **A quoted text is read up to its closing quote.** -/
theorem readText_writeText (cs rest : List Char) (hfuel : cs.length < fuel) :
    readText opening fuel (cs.flatMap (writeChar fileStyle) ++ '"' :: rest) = .ok (cs, rest) := by
  induction cs generalizing fuel with
  | nil =>
    obtain ⟨fuel, rfl⟩ := Nat.exists_eq_succ_of_ne_zero (Nat.ne_of_gt hfuel)
    rfl
  | cons c cs ih =>
    obtain ⟨fuel, rfl⟩ := Nat.exists_eq_succ_of_ne_zero (Nat.ne_of_gt (Nat.zero_lt_of_lt hfuel))
    rw [List.flatMap_cons, List.append_assoc, readText_writeChar c (by simp),
      ih (Nat.lt_of_succ_lt_succ hfuel)]
    rfl

theorem writeChar_ne_nil (c : Char) : writeChar fileStyle c ≠ [] := by
  have hwritten := writtenAs_writeChar c
  generalize writeChar fileStyle c = written at hwritten ⊢
  cases hwritten with
  | short _ _ _ => exact List.cons_ne_nil _ _
  | unit _ => exact List.cons_ne_nil _ _
  | plain _ _ _ => exact List.cons_ne_nil _ _

theorem length_le_flatMap_writeChar (cs : List Char) :
    cs.length ≤ (cs.flatMap (writeChar fileStyle)).length := by
  induction cs with
  | nil => exact Nat.le_refl 0
  | cons c cs ih =>
    have hpos := List.length_pos_iff.mpr (writeChar_ne_nil c)
    rw [List.flatMap_cons, List.length_append, List.length_cons]
    omega

theorem unitEscape_printable (n : Nat) : ∀ d ∈ unitEscape n, 32 ≤ d.toNat := by
  have hhex : ∀ d < 16, 32 ≤ (hexDigit d).toNat := by decide
  have hdigit : ∀ m, 32 ≤ (hexDigit (m % 16)).toNat := fun m => hhex _ (Nat.mod_lt m (by omega))
  intro d hd
  rw [unitEscape, hexDigits_four] at hd
  simp only [List.mem_cons, List.not_mem_nil, or_false] at hd
  rcases hd with rfl | rfl | rfl | rfl | rfl | rfl
  · decide
  · decide
  · exact hdigit _
  · exact hdigit _
  · exact hdigit _
  · exact hdigit _

/-- No control stands in what is written for a character. -/
theorem writeChar_printable (c : Char) : ∀ d ∈ writeChar fileStyle c, 32 ≤ d.toNat := by
  have hwritten := writtenAs_writeChar c
  generalize writeChar fileStyle c = written at hwritten ⊢
  cases hwritten with
  | short _ _ hprints =>
    exact List.forall_mem_cons.mpr ⟨by decide, List.forall_mem_singleton.mpr hprints⟩
  | unit _ => exact unitEscape_printable _
  | plain _ _ hprints => exact List.forall_mem_singleton.mpr hprints

end Mooring.Json
