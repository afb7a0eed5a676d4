import Mooring.Proofs.Text.Case
import Mooring.Text.Letters

/-!
# Low names

Names of small letters, digits and hyphens that start with a letter, as tags and attributes usually
have them.  Such a name is its own lower case (`LowName.lower`).
-/

namespace Mooring.Text

/-- A small letter, a digit or a hyphen. -/
def isLowNameChar (c : Char) : Bool :=
  ('a' ≤ c && c ≤ 'z') || isAsciiDigit c || c == '-'

/-- Small letters, digits and hyphens, a letter first. -/
structure LowName (name : List Char) : Prop where
  first : ∃ c rest, name = c :: rest ∧ ('a' ≤ c && c ≤ 'z') = true
  chars : ∀ c ∈ name, isLowNameChar c = true

theorem isLowNameChar_iff {c : Char} : isLowNameChar c = true ↔
    (97 ≤ c.toNat ∧ c.toNat ≤ 122) ∨ (48 ≤ c.toNat ∧ c.toNat ≤ 57) ∨ c.toNat = 45 := by
  have hhyphen : c = '-' ↔ c.toNat = 45 := Char.toNat_inj.symm
  simp only [isLowNameChar, isAsciiDigit, Bool.or_eq_true, Bool.and_eq_true, decide_eq_true_eq,
    beq_iff_eq, hhyphen, or_assoc]
  exact Iff.rfl

theorem isSmall_of_isLowNameChar {c : Char} (h : isLowNameChar c = true) : isSmall c = true := by
  have hcode := isLowNameChar_iff.mp h
  rcases lowerChar_ascii (c := c) (by omega) with ⟨hlo, hhi, -⟩ | ⟨-, hself⟩
  · omega
  · exact beq_iff_eq.mpr hself

namespace LowName

variable {name : List Char}

theorem ne_nil (h : LowName name) : name ≠ [] := by
  obtain ⟨c, rest, rfl, -⟩ := h.first
  exact List.cons_ne_nil c rest

/-- **A low name is its own lower case.** -/
theorem lower (h : LowName name) : Text.lower name = name :=
  lower_of_small fun c hc => isSmall_of_isLowNameChar (h.chars c hc)

theorem isAsciiLetter_first (h : LowName name) : ∃ c rest, name = c :: rest ∧
    isAsciiLetter c = true := by
  obtain ⟨c, rest, rfl, hc⟩ := h.first
  exact ⟨c, rest, rfl, by rw [isAsciiLetter, hc, Bool.true_or]⟩

end LowName

end Mooring.Text
