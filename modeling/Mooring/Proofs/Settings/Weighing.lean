import Mooring.Proofs.Decimal.Exact
import Mooring.Proofs.Settings.Loaded
import Mooring.Settings.Weights

/-!
# Weights in exact arithmetic

A part's variable either spells a weight, which is a finite number and not below zero, or the part
keeps its default (`weightFrom_accepts`).  Read in exact arithmetic, accepted weights are normalized
to weights that are not negative and sum to one (`balanced_normalized`).  Such weights stay as they
are when they are normalized again (`Balanced.normalized`), and values weighted with them are blended:
the sum lies between the least and the greatest value, and grows with each of them.
-/

namespace Mooring.Settings

open Mooring.Decimal (Scalar Spells ratio_eq_div hundredths_eq_div zero_eq)
open Mooring.Text (trim)

variable {aspect : Aspect} {env : Environment} {x : Float} {value : Rat}

/-! ## Accepted weights -/

/-- The double is finite and not below zero, and worth this. -/
def Weighs (x : Float) (value : Rat) : Prop :=
  ∃ negative num den, Decimal.parts x = .finite negative num den ∧
    (negative = true → num = 0) ∧ value = num / den

/-- The part's variable spells the number, blanks around it left out. -/
def Aspect.Spelled (aspect : Aspect) (env : Environment) (x : Float) : Prop :=
  ∃ raw, env.get? aspect.environmentName = some raw ∧ Spells (trim raw.toList) x

/-- What the environment sets a part's weight to: what the part's variable spells if that is a
weight, else the default. -/
def Aspect.Accepts (aspect : Aspect) (env : Environment) (value : Rat) : Prop :=
  (∃ x, aspect.Spelled env x ∧ Weighs x value) ∨
    ((∀ x value', aspect.Spelled env x → ¬Weighs x value') ∧ value = aspect.fallbackTenths / 10)

theorem Weighs.nonneg (h : Weighs x value) : 0 ≤ value := by
  obtain ⟨-, num, den, -, -, rfl⟩ := h
  positivity

theorem Weighs.isWeight (h : Weighs x value) : isWeight x = true := by
  obtain ⟨negative, num, den, hparts, hsign, -⟩ := h
  unfold Settings.isWeight
  rw [hparts]
  cases negative with
  | false => rfl
  | true => rw [hsign rfl]; rfl

/-- A weight is read at its worth. -/
theorem weighs_ofFloat (h : isWeight x = true) : Weighs x (Scalar.ofFloat x) := by
  unfold isWeight at h
  unfold Scalar.ofFloat
  cases hparts : Decimal.parts x with
  | finite negative num den =>
    rw [hparts] at h
    refine ⟨negative, num, den, hparts, ?_, ?_⟩
    · rintro rfl
      simpa using h
    · cases negative with
      | false => exact ratio_eq_div num den
      | true =>
        obtain rfl : num = 0 := by simpa using h
        show -mkRat 0 den = _
        rw [Rat.zero_mkRat, Nat.cast_zero, zero_div, neg_zero]
  | _ =>
    rw [hparts] at h
    exact absurd h (by simp)

theorem get_defaultWeights (aspect : Aspect) :
    (Blend.defaultWeights : Blend Rat).get aspect = aspect.fallbackTenths / 10 := by
  have htenths (n : Nat) : (Scalar.hundredths (10 * n) : Rat) = n / 10 := by
    rw [hundredths_eq_div, Nat.cast_mul, mul_comm, mul_div_assoc]
    norm_num
    ring
  cases aspect <;> exact htenths _

/-- What is spelled stands in a variable that is not blank. -/
theorem Aspect.Spelled.setting? (h : aspect.Spelled env x) :
    ∃ raw, env.setting? aspect.environmentName = some raw ∧ spelled? raw = some x := by
  obtain ⟨raw, hraw, hspells⟩ := h
  exact ⟨raw, setting?_eq_some_iff.mpr ⟨hraw, filled_of_spells hspells⟩,
    spelled?_eq_some_iff.mpr hspells⟩

/-- **A part's weight is what the environment sets it to.** -/
theorem weightFrom_accepts (aspect : Aspect) (env : Environment) :
    aspect.Accepts env (aspect.weightFrom env : Rat × List Warning).1 := by
  have hfallback := get_defaultWeights aspect
  unfold Aspect.weightFrom
  dsimp only
  cases hset : env.setting? aspect.environmentName with
  | none =>
    refine Or.inr ⟨fun x value hx => ?_, hfallback⟩
    obtain ⟨raw, hraw, -⟩ := hx.setting?
    exact absurd (hset.symm.trans hraw) (by simp)
  | some raw =>
    have hsame {x : Float} (hx : aspect.Spelled env x) : spelled? raw = some x := by
      obtain ⟨raw', hraw', hspelled⟩ := hx.setting?
      obtain rfl := Option.some.inj (hset.symm.trans hraw')
      exact hspelled
    dsimp only
    cases hspelled : spelled? raw with
    | none =>
      refine Or.inr ⟨fun x value hx => ?_, hfallback⟩
      exact absurd (hspelled.symm.trans (hsame hx)) (by simp)
    | some x =>
      dsimp only
      split
      next hweight =>
        have hraw := (setting?_eq_some_iff.mp hset).1
        exact Or.inl ⟨x, ⟨raw, hraw, spelled?_eq_some_iff.mp hspelled⟩, weighs_ofFloat hweight⟩
      next hnot =>
        refine Or.inr ⟨fun y value hy hweighs => hnot ?_, hfallback⟩
        obtain rfl := Option.some.inj (hspelled.symm.trans (hsame hy))
        exact hweighs.isWeight

theorem Aspect.Accepts.nonneg (h : aspect.Accepts env value) : 0 ≤ value := by
  rcases h with ⟨x, -, hweighs⟩ | ⟨-, rfl⟩
  · exact hweighs.nonneg
  · positivity

/-! ## Weights that sum to one -/

namespace Blend

variable {weights values values' : Blend Rat} {bound : Rat}

theorem total_eq (b : Blend Rat) :
    b.total = b.get .hintQuality + b.get .snippetMatch + b.get .liveness + b.get .specificity :=
  rfl

theorem weightedSum_eq (weights values : Blend Rat) : weights.weightedSum values =
    values.get .hintQuality * weights.get .hintQuality +
      values.get .snippetMatch * weights.get .snippetMatch +
      values.get .liveness * weights.get .liveness +
      values.get .specificity * weights.get .specificity :=
  rfl

theorem get_ofFn {α : Type} (f : Aspect → α) (aspect : Aspect) : (ofFn f).get aspect = f aspect := by
  cases aspect <;> rfl

theorem ext_get {α : Type} {b b' : Blend α} (h : ∀ aspect, b.get aspect = b'.get aspect) :
    b = b' := by
  obtain ⟨w, x, y, z⟩ := b
  obtain ⟨w', x', y', z'⟩ := b'
  obtain rfl : w = w' := h .hintQuality
  obtain rfl : x = x' := h .snippetMatch
  obtain rfl : y = y' := h .liveness
  obtain rfl : z = z' := h .specificity
  rfl

/-- Weights that are not negative and sum to one. -/
structure Balanced (weights : Blend Rat) : Prop where
  nonneg : ∀ aspect, 0 ≤ weights.get aspect
  total : weights.total = 1

theorem total_nonneg (h : ∀ aspect, 0 ≤ weights.get aspect) : 0 ≤ weights.total :=
  add_nonneg (add_nonneg (add_nonneg (h .hintQuality) (h .snippetMatch)) (h .liveness))
    (h .specificity)

/-- A weight is not larger than the sum of all. -/
theorem get_le_total (h : ∀ aspect, 0 ≤ weights.get aspect) (aspect : Aspect) :
    weights.get aspect ≤ weights.total := by
  have := h .hintQuality
  have := h .snippetMatch
  have := h .liveness
  have := h .specificity
  rw [total_eq]
  cases aspect <;> linarith

theorem total_eq_zero_iff (h : ∀ aspect, 0 ≤ weights.get aspect) :
    weights.total = 0 ↔ ∀ aspect, weights.get aspect = 0 := by
  constructor
  · intro hzero aspect
    exact le_antisymm ((get_le_total h aspect).trans_eq hzero) (h aspect)
  · intro hzero
    rw [total_eq]
    simp only [hzero, add_zero]

theorem get_normalized (weights : Blend Rat) (aspect : Aspect) :
    weights.normalized.get aspect =
      if weights.total ≤ 0 then (aspect.fallbackTenths : Rat) / 10
      else weights.get aspect / weights.total := by
  have hatMost : Scalar.atMost weights.total Scalar.zero = decide (weights.total ≤ 0) := by
    rw [zero_eq]
    rfl
  unfold normalized
  dsimp only
  rw [hatMost]
  by_cases h : weights.total ≤ 0
  · rw [if_pos (decide_eq_true h), if_pos h, get_defaultWeights]
  · rw [if_neg (by simpa using h), if_neg h, get_ofFn]

/-- **Normalized weights sum to one.** -/
theorem balanced_normalized (h : ∀ aspect, 0 ≤ weights.get aspect) :
    Balanced weights.normalized := by
  constructor
  · intro aspect
    rw [get_normalized]
    split
    · positivity
    · exact div_nonneg (h aspect) (total_nonneg h)
  · rw [total_eq]
    simp only [get_normalized]
    split
    next =>
      simp only [Aspect.fallbackTenths]
      norm_num
    next hmore =>
      rw [← add_div, ← add_div, ← add_div, ← total_eq]
      exact div_self (ne_of_gt (not_le.mp hmore))

namespace Balanced

theorem le_one (h : Balanced weights) (aspect : Aspect) : weights.get aspect ≤ 1 := by
  rw [← h.total]
  exact get_le_total h.nonneg aspect

/-- **Weights that sum to one are normalized.** -/
theorem normalized (h : Balanced weights) : weights.normalized = weights := by
  refine ext_get fun aspect => ?_
  rw [get_normalized, h.total, if_neg (by norm_num), div_one]

end Balanced

/-! ## Blends -/

/-- **A weighted sum grows with each value.** -/
theorem weightedSum_mono (h : ∀ aspect, 0 ≤ weights.get aspect)
    (hle : ∀ aspect, values.get aspect ≤ values'.get aspect) :
    weights.weightedSum values ≤ weights.weightedSum values' := by
  have hproduct (aspect : Aspect) :
      values.get aspect * weights.get aspect ≤ values'.get aspect * weights.get aspect :=
    mul_le_mul_of_nonneg_right (hle aspect) (h aspect)
  exact add_le_add (add_le_add (add_le_add (hproduct .hintQuality) (hproduct .snippetMatch))
    (hproduct .liveness)) (hproduct .specificity)

/-- A blend of one value with itself is that value. -/
theorem Balanced.weightedSum_const (h : Balanced weights) (value : Rat) :
    weights.weightedSum (ofFn fun _ => value) = value := by
  calc weights.weightedSum (ofFn fun _ => value) = value * weights.total := by
        rw [weightedSum_eq, total_eq]
        simp only [get_ofFn]
        ring
    _ = value := by rw [h.total, mul_one]

/-- **A blend is at least as large as the least value.** -/
theorem Balanced.le_weightedSum (h : Balanced weights) (hle : ∀ aspect, bound ≤ values.get aspect) :
    bound ≤ weights.weightedSum values := by
  calc bound = weights.weightedSum (ofFn fun _ => bound) := (h.weightedSum_const bound).symm
    _ ≤ weights.weightedSum values :=
        weightedSum_mono h.nonneg fun aspect => (get_ofFn _ aspect).trans_le (hle aspect)

/-- **A blend is at most as large as the greatest value.** -/
theorem Balanced.weightedSum_le (h : Balanced weights) (hle : ∀ aspect, values.get aspect ≤ bound) :
    weights.weightedSum values ≤ bound := by
  calc weights.weightedSum values ≤ weights.weightedSum (ofFn fun _ => bound) :=
        weightedSum_mono h.nonneg fun aspect => (hle aspect).trans_eq
          (get_ofFn (fun _ => bound) aspect).symm
    _ = bound := h.weightedSum_const bound

end Blend

/-! ## The weights that are loaded -/

/-- The weights that the environment sets, before they are normalized. -/
def acceptedWeights (env : Environment) : Blend Rat :=
  .ofFn fun aspect => (aspect.weightFrom env).1

theorem accepts_acceptedWeights (aspect : Aspect) (env : Environment) :
    aspect.Accepts env ((acceptedWeights env).get aspect) := by
  rw [acceptedWeights, Blend.get_ofFn]
  exact weightFrom_accepts aspect env

theorem balanced_loadWeights (env : Environment) : Blend.Balanced (loadWeights env).1 :=
  Blend.balanced_normalized fun aspect => (accepts_acceptedWeights aspect env).nonneg

/-- **Loaded weights are in the proportions of the accepted ones.** -/
theorem get_loadWeights (aspect : Aspect) (env : Environment) :
    (loadWeights env).1.get aspect =
      if (acceptedWeights env).total = 0 then (aspect.fallbackTenths : Rat) / 10
      else (acceptedWeights env).get aspect / (acceptedWeights env).total := by
  have hnonneg := Blend.total_nonneg fun aspect => (accepts_acceptedWeights aspect env).nonneg
  have hzero : (acceptedWeights env).total ≤ 0 ↔ (acceptedWeights env).total = 0 :=
    ⟨fun h => le_antisymm h hnonneg, le_of_eq⟩
  show (acceptedWeights env).normalized.get aspect = _
  rw [Blend.get_normalized]
  simp only [hzero]

end Mooring.Settings
