import Mooring.Proofs.Decimal.Nearest

/-!
# Rounding is monotone

Of two fractions the larger one has a nearest double that is at least as large
(`nearestBits_mono`).  In one unit the rounded mantissas compare as the fractions do
(`inUnits_mono`).  Of two units the larger one goes with the larger double (`bitsOf_le_of_lt`),
because a mantissa has 53 digits, or fewer in the smallest unit (`IsUnit.inUnits_bounds`).
-/

namespace Mooring.Decimal

variable {num den m : Nat} {e : Int}

/-! ## The bits of a mantissa and an exponent -/

/-- The bits of a mantissa and an exponent; those of infinity if the exponent is too large. -/
def bitsOf (m : Nat) (e : Int) : Nat :=
  min ((e + 1074).toNat * 2 ^ 52 + m) (2047 * 2 ^ 52)

theorem bitsOf_mono {m' : Nat} (h : m ≤ m') (e : Int) : bitsOf m e ≤ bitsOf m' e :=
  Nat.le_min.mpr ⟨Nat.le_trans (Nat.min_le_left _ _) (Nat.add_le_add_left h _),
    Nat.min_le_right _ _⟩

/-- In a larger unit 53 digits are more than any in a smaller one. -/
theorem bitsOf_le_of_lt {m' : Nat} {e' : Int} (hm : m ≤ 2 ^ 53) (hm' : 2 ^ 52 ≤ m')
    (hle : -1074 ≤ e) (h : e < e') : bitsOf m e ≤ bitsOf m' e' := by
  have hunit : (e + 1074).toNat + 1 ≤ (e' + 1074).toNat := by omega
  have hstep := Nat.mul_le_mul_right (2 ^ 52) hunit
  rw [Nat.add_mul] at hstep
  refine Nat.le_min.mpr ⟨Nat.le_trans (Nat.min_le_left _ _) ?_, Nat.min_le_right _ _⟩
  omega

/-! ## Rounding in one unit -/

theorem le_roundDiv (num den : Nat) : num / den ≤ roundDiv num den := by
  unfold roundDiv
  grind

theorem roundDiv_le (num den : Nat) : roundDiv num den ≤ num / den + 1 := by
  unfold roundDiv
  grind

theorem roundDiv_mono_left {a b : Nat} (h : a ≤ b) (den : Nat) :
    roundDiv a den ≤ roundDiv b den := by
  have hup := roundDiv_le a den
  have hdown := le_roundDiv b den
  rcases Nat.lt_or_eq_of_le (Nat.div_le_div_right h : a / den ≤ b / den) with hlt | heq
  · omega
  · -- On the same floor the rests compare as the numerators do.
    have hrest : a % den ≤ b % den := by
      have ha := Nat.div_add_mod a den
      have hb := Nat.div_add_mod b den
      rw [heq] at ha
      omega
    unfold roundDiv
    rw [heq]
    grind

/-- A larger fraction is rounded to at least as much. -/
theorem roundDiv_mono {num' den' : Nat} (hden : 0 < den) (hden' : 0 < den')
    (h : num * den' ≤ num' * den) : roundDiv num den ≤ roundDiv num' den' := by
  rw [← roundDiv_scale hden' num den, ← roundDiv_scale hden num' den', Nat.mul_comm den' num,
    Nat.mul_comm den num', Nat.mul_comm den den']
  exact roundDiv_mono_left h _

section

variable {num' den' : Nat} (hden : 0 < den) (hden' : 0 < den') (h : num * den' ≤ num' * den)

include hden hden' h

theorem inUnits_mono (q : Int) : inUnits num den q ≤ inUnits num' den' q := by
  rw [inUnits_eq, inUnits_eq]
  refine roundDiv_mono (Nat.mul_pos hden (Nat.two_pow_pos _))
    (Nat.mul_pos hden' (Nat.two_pow_pos _)) ?_
  rw [Nat.mul_mul_mul_comm num, Nat.mul_mul_mul_comm num']
  exact Nat.mul_le_mul_right _ h

theorem wholeUnits_mono (q : Int) : wholeUnits num den q ≤ wholeUnits num' den' q := by
  rw [le_wholeUnits_iff hden']
  have hunits := (le_wholeUnits_iff hden).mp (Nat.le_refl (wholeUnits num den q))
  refine Nat.le_of_mul_le_mul_left ?_ hden
  calc den * (wholeUnits num den q * (den' * 2 ^ q.toNat))
      = wholeUnits num den q * (den * 2 ^ q.toNat) * den' := by ring
    _ ≤ num * 2 ^ (-q).toNat * den' := Nat.mul_le_mul_right _ hunits
    _ = num * den' * 2 ^ (-q).toNat := by ring
    _ ≤ num' * den * 2 ^ (-q).toNat := Nat.mul_le_mul_right _ h
    _ = den * (num' * 2 ^ (-q).toNat) := by ring

/-- A larger fraction has a unit that is at least as large. -/
theorem IsUnit.mono {q q' : Int} (hq : IsUnit num den q) (hq' : IsUnit num' den' q') : q ≤ q' := by
  by_contra hlt
  obtain ⟨n, hn⟩ := Int.le.dest (show q' + 1 ≤ q by omega)
  have hunits := wholeUnits_add num' den' (q' + 1) n
  rw [hn, wholeUnits_succ] at hunits
  have hhalf : wholeUnits num' den' q' / 2 / 2 ^ n ≤ wholeUnits num' den' q' / 2 :=
    Nat.div_le_self _ _
  have hle := wholeUnits_mono hden hden' h q
  have := hq.1
  have := hq'.2
  omega

end

/-! ## The nearest double -/

theorem wholeUnits_le_inUnits (num den : Nat) (q : Int) :
    wholeUnits num den q ≤ inUnits num den q := by
  rw [wholeUnits_eq, inUnits_eq]
  exact le_roundDiv _ _

theorem inUnits_le (num den : Nat) (q : Int) : inUnits num den q ≤ wholeUnits num den q + 1 := by
  rw [wholeUnits_eq, inUnits_eq]
  exact roundDiv_le _ _

/-- What a fraction is rounded to is a mantissa of 53 digits, or that one carried, or a shorter one
in the smallest unit. -/
theorem IsUnit.inUnits_bounds {q : Int} (h : IsUnit num den q) :
    inUnits num den (max q (-1074)) ≤ 2 ^ 53 ∧
      (2 ^ 52 ≤ inUnits num den (max q (-1074)) ∨ max q (-1074) = -1074) := by
  obtain ⟨hlow, hhigh⟩ := h
  obtain ⟨n, hn⟩ := Int.le.dest (show q ≤ max q (-1074) by omega)
  have hunits := wholeUnits_add num den q n
  rw [hn] at hunits
  have hself : wholeUnits num den q / 2 ^ n ≤ wholeUnits num den q := Nat.div_le_self _ _
  have hup := inUnits_le num den (max q (-1074))
  have hdown := wholeUnits_le_inUnits num den (max q (-1074))
  refine ⟨by omega, ?_⟩
  rcases Int.le_total q (-1074) with hsmall | hlarge
  · exact Or.inr (by omega)
  · rw [show max q (-1074) = q by omega] at hdown ⊢
    exact Or.inl (Nat.le_trans hlow hdown)

/-- **The bits of the nearest double are those of the rounded mantissa.** -/
theorem IsUnit.nearestBits_eq {q : Int} (h : IsUnit num den q) :
    nearestBits num den = bitsOf (inUnits num den (max q (-1074))) (max q (-1074)) := by
  obtain ⟨-, hfull⟩ := h.inUnits_bounds
  rw [nearestBits_of_isUnit h]
  unfold bitsOf
  dsimp only
  generalize inUnits num den (max q (-1074)) = mantissa at *
  split
  · omega
  · split
    · rw [hfull.resolve_left (by omega)]
      omega
    · rfl

/-- **Rounding to a double is monotone.** -/
theorem nearestBits_mono {num' den' : Nat} (hden : 0 < den) (hden' : 0 < den')
    (h : num * den' ≤ num' * den) : nearestBits num den ≤ nearestBits num' den' := by
  rcases Nat.eq_zero_or_pos num with rfl | hnum
  · exact Nat.zero_le _
  · have hnum' : 0 < num' := by
      rcases Nat.eq_zero_or_pos num' with rfl | hpos
      · have := Nat.mul_pos hnum hden'
        omega
      · exact hpos
    obtain ⟨q, hq, -⟩ := exists_isUnit hnum hden
    obtain ⟨q', hq', -⟩ := exists_isUnit hnum' hden'
    have hle := hq.mono hden hden' h hq'
    rw [hq.nearestBits_eq, hq'.nearestBits_eq]
    rcases Int.lt_or_eq_of_le (show max q (-1074) ≤ max q' (-1074) by omega) with hlt | heq
    · have hfull := hq'.inUnits_bounds.2.resolve_right (by omega)
      exact bitsOf_le_of_lt hq.inUnits_bounds.1 hfull (Int.le_max_right _ _) hlt
    · rw [← heq]
      exact bitsOf_mono (inUnits_mono hden hden' h _) _

end Mooring.Decimal
