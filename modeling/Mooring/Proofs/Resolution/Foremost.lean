import Mathlib.Data.List.MinMax
import Mathlib.Data.Prod.Lex
import Mooring.Proofs.Decimal.Positive
import Mooring.Proofs.Resolution.Winner

/-!
# The winner does not depend on the arrangement

Contenders are compared by confidence, tier, score and order (`Precedes`).  Confidence and score of
a contender are doubles above zero, which are ordered as their bits are, so what is compared is a
tuple of whole numbers (`rankKey`), and the comparison of contenders is that of their tuples
(`before_iff_key`).  The winner has the least tuple.

Candidates whose orders differ have different tuples.  Among such candidates the winner is the only
contender that precedes all other contenders (`winner?_eq_some_iff`).  That says nothing of how the
candidates are arranged, so every arrangement has the same winner.
-/

namespace Mooring.Resolution.Candidate

open Mooring.Decimal

variable {a b c : Candidate Float} {cs ds : List (Candidate Float)}

/-! ## The order of contenders -/

/-- `a` is preferred to `b`: it is more confident; or as confident and of an earlier tier; or of the
same tier and scored higher; or scored the same and proposed earlier. -/
inductive Precedes (a b : Candidate Float) : Prop
  | confidence (h : b.confidence < a.confidence)
  | tier (hconfidence : a.confidence = b.confidence) (h : a.tier.rank < b.tier.rank)
  | score (hconfidence : a.confidence = b.confidence) (htier : a.tier = b.tier)
      (h : b.score < a.score)
  | order (hconfidence : a.confidence = b.confidence) (htier : a.tier = b.tier)
      (hscore : a.score = b.score) (h : a.order < b.order)

/-- What contenders are compared by, as whole numbers; less is better. -/
def rankKey (c : Candidate Float) : ℕᵒᵈ ×ₗ ℕ ×ₗ ℕᵒᵈ ×ₗ ℤ :=
  toLex (OrderDual.toDual c.confidence.toBits.toNat, toLex (c.tier.rank,
    toLex (OrderDual.toDual c.score.toBits.toNat, c.order)))

theorem rankKey_lt_iff : a.rankKey < b.rankKey ↔
    b.confidence.toBits.toNat < a.confidence.toBits.toNat ∨
      a.confidence.toBits.toNat = b.confidence.toBits.toNat ∧ (a.tier.rank < b.tier.rank ∨
        a.tier.rank = b.tier.rank ∧ (b.score.toBits.toNat < a.score.toBits.toNat ∨
          a.score.toBits.toNat = b.score.toBits.toNat ∧ a.order < b.order)) := by
  unfold rankKey
  rw [Prod.Lex.toLex_lt_toLex, Prod.Lex.toLex_lt_toLex, Prod.Lex.toLex_lt_toLex]
  exact Iff.rfl

theorem rank_injective : Function.Injective Tier.rank := by
  intro tier tier' h
  cases tier <;> cases tier' <;> first | rfl | exact absurd h (by decide)

theorem order_eq_of_rankKey_eq (h : a.rankKey = b.rankKey) : a.order = b.order :=
  congrArg (fun key => (ofLex (ofLex (ofLex key).2).2).2) h

theorem isContender_iff_pos : c.isContender = true ↔ 0 < c.confidence := by
  unfold isContender
  rw [zero_eq_double]
  exact decide_eq_true_iff

/-- The score of a contender is above zero, as its confidence is. -/
theorem score_pos (h : 0 < c.confidence) : 0 < c.score := by
  have hzero : Scalar.less (Scalar.zero : Float) Scalar.zero = false := by
    rw [zero_eq_double]
    exact decide_eq_false (not_lt_self 0)
  obtain ⟨-, hscore⟩ := (isContender_iff hzero c).mp (isContender_iff_pos.mpr h)
  rw [zero_eq_double] at hscore
  exact decide_eq_true_iff.mp hscore

/-- **A contender precedes another just if its tuple is less.** -/
theorem precedes_iff_key (ha : 0 < a.confidence) (hb : 0 < b.confidence) :
    Precedes a b ↔ a.rankKey < b.rankKey := by
  rw [rankKey_lt_iff, ← lt_iff_of_pos hb ha, ← lt_iff_of_pos (score_pos hb) (score_pos ha)]
  constructor
  · rintro (h | ⟨hconfidence, h⟩ | ⟨hconfidence, htier, h⟩ | ⟨hconfidence, htier, hscore, h⟩)
    · exact Or.inl h
    · rw [hconfidence]
      exact Or.inr ⟨rfl, Or.inl h⟩
    · rw [hconfidence, htier]
      exact Or.inr ⟨rfl, Or.inr ⟨rfl, Or.inl h⟩⟩
    · rw [hconfidence, htier, hscore]
      exact Or.inr ⟨rfl, Or.inr ⟨rfl, Or.inr ⟨rfl, h⟩⟩⟩
  · rintro (h | ⟨hconfidence, h | ⟨htier, h | ⟨hscore, h⟩⟩⟩)
    · exact .confidence h
    · exact .tier (eq_of_toBits hconfidence) h
    · exact .score (eq_of_toBits hconfidence) (rank_injective htier) h
    · exact .order (eq_of_toBits hconfidence) (rank_injective htier) (eq_of_toBits hscore) h

/-- **Contenders are compared by their tuples.** -/
theorem before_iff_key (ha : 0 < a.confidence) (hb : 0 < b.confidence) :
    a.before b = true ↔ a.rankKey < b.rankKey := by
  have hless {x y : Float} (hx : 0 < x) (hy : 0 < y) :
      Scalar.less x y = true ↔ x.toBits.toNat < y.toBits.toNat :=
    decide_eq_true_iff.trans (lt_iff_of_pos hx hy)
  have hscore := score_pos ha
  have hscore' := score_pos hb
  rw [rankKey_lt_iff, before]
  simp only [hless ha hb, hless hb ha, hless hscore hscore', hless hscore' hscore, bne_iff_ne]
  have hnot : ¬false = true := Bool.false_ne_true
  -- The comparisons are made in the order of the tuple's parts.
  split
  next hmore => exact iff_of_true rfl (Or.inl hmore)
  next =>
    split
    next => exact iff_of_false hnot (by omega)
    next =>
      split
      next =>
        rw [decide_eq_true_iff]
        omega
      next =>
        split
        next => exact iff_of_true rfl (by omega)
        next =>
          split
          next => exact iff_of_false hnot (by omega)
          next =>
            rw [decide_eq_true_iff]
            omega

/-! ## The least tuple -/

/-- Among contenders the foremost is the first with the least tuple. -/
theorem foremost?_eq_argmin (h : ∀ c ∈ cs, 0 < c.confidence) :
    foremost? cs = cs.argmin rankKey := by
  induction cs with
  | nil => rfl
  | cons c rest ih =>
    have ih := ih fun d hd => h d (List.mem_cons_of_mem c hd)
    rw [foremost?, List.argmin_cons, ih]
    cases hbest : rest.argmin rankKey with
    | none => rfl
    | some best =>
      have hmem : best ∈ rest := List.argmin_mem hbest
      have hbefore : best.before c = true ↔ best.rankKey < c.rankKey :=
        before_iff_key (h best (List.mem_cons_of_mem c hmem)) (h c List.mem_cons_self)
      dsimp only
      by_cases hless : best.rankKey < c.rankKey
      · rw [if_pos (hbefore.mpr hless), if_pos hless]
      · rw [if_neg (mt hbefore.mp hless), if_neg hless]

theorem mem_contenders : c ∈ cs.filter isContender ↔ c ∈ cs ∧ 0 < c.confidence := by
  rw [List.mem_filter, isContender_iff_pos]

theorem winner?_eq_argmin (cs : List (Candidate Float)) :
    winner? cs = (cs.filter isContender).argmin rankKey :=
  foremost?_eq_argmin fun _ hc => (mem_contenders.mp hc).2

theorem winner?_eq_none_iff : winner? cs = none ↔ ∀ c ∈ cs, ¬0 < c.confidence := by
  rw [winner?_eq_argmin, List.argmin_eq_none, List.filter_eq_nil_iff]
  simp only [isContender_iff_pos]

/-! ## Different orders -/

/-- The orders of the candidates are pairwise different. -/
def Distinct (cs : List (Candidate Float)) : Prop :=
  cs.Pairwise fun a b => a.order ≠ b.order

theorem Distinct.eq (h : Distinct cs) (ha : a ∈ cs) (hb : b ∈ cs) (heq : a.order = b.order) :
    a = b :=
  List.inj_on_of_nodup_map (List.pairwise_map.mpr h) ha hb heq

theorem Distinct.perm (h : Distinct cs) (hperm : ds.Perm cs) : Distinct ds :=
  (hperm.pairwise_iff fun hne heq => hne heq.symm).mpr h

/-- Where orders differ, one of two contenders precedes the other. -/
theorem Distinct.precedes_of_le (h : Distinct cs) (ha : a ∈ cs) (hb : b ∈ cs)
    (hposA : 0 < a.confidence) (hposB : 0 < b.confidence) (hne : b ≠ a)
    (hle : a.rankKey ≤ b.rankKey) : Precedes a b := by
  refine (precedes_iff_key hposA hposB).mpr (lt_of_le_of_ne hle fun heq => ?_)
  exact hne (h.eq hb ha (order_eq_of_rankKey_eq heq.symm))

/-- **The winner is the contender that precedes all others.** -/
theorem winner?_eq_some_iff (h : Distinct cs) : winner? cs = some c ↔
    c ∈ cs ∧ 0 < c.confidence ∧ ∀ d ∈ cs, 0 < d.confidence → d ≠ c → Precedes c d := by
  rw [winner?_eq_argmin]
  constructor
  · intro hwins
    obtain ⟨hmem, hpos⟩ := mem_contenders.mp (List.argmin_mem hwins)
    refine ⟨hmem, hpos, fun d hd hposD hne => ?_⟩
    exact h.precedes_of_le hmem hd hpos hposD hne
      (List.le_of_mem_argmin (mem_contenders.mpr ⟨hd, hposD⟩) hwins)
  · rintro ⟨hmem, hpos, hfirst⟩
    have hin : c ∈ cs.filter isContender := mem_contenders.mpr ⟨hmem, hpos⟩
    cases hwins : (cs.filter isContender).argmin rankKey with
    | none =>
      rw [List.argmin_eq_none.mp hwins] at hin
      exact absurd hin List.not_mem_nil
    | some best =>
      obtain ⟨hmemBest, hposBest⟩ := mem_contenders.mp (List.argmin_mem hwins)
      by_contra hne
      have hbest : best ≠ c := fun heq => hne (congrArg some heq)
      have hless := (precedes_iff_key hpos hposBest).mp (hfirst best hmemBest hposBest hbest)
      exact absurd hless (not_lt.mpr (List.le_of_mem_argmin hin hwins))

/-- **The winner among candidates of different orders.**  There is none just if no candidate has
any confidence; else it is the contender that precedes all other contenders, and it is the same for
every arrangement of the candidates. -/
theorem winner?_foremost (hdistinct : cs.Pairwise fun a b => a.order ≠ b.order) :
    (winner? cs = none ↔ ∀ c ∈ cs, ¬0 < c.confidence) ∧
    (∀ c, winner? cs = some c ↔
      c ∈ cs ∧ 0 < c.confidence ∧ ∀ d ∈ cs, 0 < d.confidence → d ≠ c → Precedes c d) ∧
    ∀ ds : List (Candidate Float), ds.Perm cs → winner? ds = winner? cs := by
  refine ⟨winner?_eq_none_iff, fun c => winner?_eq_some_iff hdistinct, fun ds hperm => ?_⟩
  refine Option.ext fun c => ?_
  rw [winner?_eq_some_iff hdistinct, winner?_eq_some_iff (Distinct.perm hdistinct hperm)]
  simp only [hperm.mem_iff]

theorem winner?_foremost_tie :
    let stored : Candidate Float :=
      { selector := "#save", tier := .storedSelector, score := 1, liveness := .alive, order := 7 }
    let full : Candidate Float :=
      { selector := "button", tier := .fullStructural, score := 1, liveness := .alive, order := 3 }
    winner? [full, stored] = some stored ∧ winner? [stored, full] = some stored := by
  intro stored full
  have hdistinct : [full, stored].Pairwise fun a b => a.order ≠ b.order :=
    List.pairwise_pair.mpr (by decide)
  obtain ⟨-, hsome, hperm⟩ := winner?_foremost hdistinct
  have hpos : (0 : Float) < 1 := by decide
  have hstored : winner? [full, stored] = some stored := by
    refine (hsome stored).mpr ⟨List.mem_cons_of_mem _ List.mem_cons_self, hpos, ?_⟩
    intro d hd _ hne
    rcases List.mem_pair.mp hd with rfl | rfl
    · exact .tier rfl (by decide)
    · exact absurd rfl hne
  exact ⟨hstored, (hperm _ (List.Perm.swap _ _ _)).trans hstored⟩

end Mooring.Resolution.Candidate
