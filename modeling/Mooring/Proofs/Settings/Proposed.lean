import Mooring.Proofs.Decimal.Range
import Mooring.Proofs.Decimal.Typed
import Mooring.Proofs.Text.Finding
import Mooring.Settings.Budgets

/-!
# Proposed budgets

A value stands for a number if it is one or is a text that spells one (`Denotes`).  A stage takes a
proposed number that can be a budget, and falls back on its default, with one warning, for any other
value (`Stage.Chosen`).  Each stage looks at its own value only, so what holds of one stage holds of
all of them together (`propose_eq_ok`).

There is one exception.  A whole number that rounds to infinity stands for no double, and it is not
replaced: the whole proposal fails (`propose_eq_error_iff`).
-/

namespace Mooring.Settings

open Mooring.Decimal (infinity nearest nearestBits overflow Spells bareNumber)

variable {stage : Stage} {value : Json} {x ms : Float} {n : Int} {values : Table Json}

/-! ## What can be a budget -/

/-- The number can be a budget: it is above zero and finite. -/
def IsBudget (x : Float) : Prop :=
  0 < x ∧ x < infinity false

theorem isUsable_iff : isUsable x = true ↔ IsBudget x := by
  unfold IsBudget isUsable
  rw [Decimal.pos_lt_infinity_iff]
  cases Decimal.parts x with
  | nan => exact iff_of_false Bool.false_ne_true (by simp)
  | infinite negative => exact iff_of_false Bool.false_ne_true (by simp)
  | finite negative num den =>
    cases negative with
    | true => exact iff_of_false Bool.false_ne_true (by simp)
    | false =>
      show (num != 0) = true ↔ _
      rw [bne_iff_ne, ← Nat.pos_iff_ne_zero]
      constructor
      · intro hpos
        exact ⟨num, den, rfl, hpos⟩
      · rintro ⟨num', den', hparts, hpos⟩
        obtain ⟨-, rfl, -⟩ := Decimal.Parts.finite.inj hparts
        exact hpos

/-- The budget of a stage for which nothing usable is proposed. -/
def Stage.fallbackMs (stage : Stage) : Float :=
  nearest false stage.fallback 1

theorem Stage.isBudget_fallbackMs (stage : Stage) : IsBudget stage.fallbackMs := by
  rw [← isUsable_iff]
  cases stage <;> decide

/-! ## What a value stands for -/

/-- The value stands for the number.  A truth value, an array and an object stand for none. -/
inductive Denotes : Json → Float → Prop
  | int {n : Int} (hrange : n.natAbs < overflow) :
      Denotes (.int n) (nearest (n < 0) n.natAbs 1)
  | float (x : Float) : Denotes (.float x) x
  | text {s : String} {x : Float} (h : Spells (bareNumber s.toList) x) : Denotes (.string s) x

/-- The value is a whole number that rounds to infinity. -/
def Beyond (value : Json) : Prop :=
  ∃ n, value = .int n ∧ overflow ≤ n.natAbs

theorem floatOfInt?_eq (n : Int) : floatOfInt? n =
    if n.natAbs < overflow then some (nearest (n < 0) n.natAbs 1) else none := by
  have hrange := @Decimal.nearestBits_eq_top_iff n.natAbs 1 Nat.one_pos
  rw [Nat.mul_one] at hrange
  unfold floatOfInt?
  dsimp only
  rcases Decimal.parts_nearest (n < 0) n.natAbs 1 with ⟨hlt, num, den, hparts⟩ | ⟨htop, hparts⟩
  · rw [hparts, if_pos]
    exact Nat.lt_of_not_le fun hlarge => Nat.ne_of_lt hlt (hrange.mpr hlarge)
  · rw [hparts, if_neg]
    exact Nat.not_lt.mpr (hrange.mp htop)

/-- **A value has a number to stand for or none, unless it is beyond the doubles.** -/
theorem numberOf?_cases (value : Json) :
    (Beyond value ∧ numberOf? value = .error .beyondRange) ∨
      (¬Beyond value ∧ ∃ found, numberOf? value = .ok found ∧
        ∀ x, found = some x ↔ Denotes value x) := by
  have hnone {value : Json} (hvalue : numberOf? value = .ok none) (hbeyond : ¬Beyond value)
      (h : ∀ x, ¬Denotes value x) : ¬Beyond value ∧ ∃ found, numberOf? value = .ok found ∧
        ∀ x, found = some x ↔ Denotes value x :=
    ⟨hbeyond, none, hvalue, fun x => iff_of_false (by simp) (h x)⟩
  cases value with
  | int n =>
    rw [numberOf?, floatOfInt?_eq]
    by_cases hrange : n.natAbs < overflow
    · rw [if_pos hrange]
      refine Or.inr ⟨?_, _, rfl, fun x => ?_⟩
      · rintro ⟨n', hn, hlarge⟩
        obtain rfl := Json.int.inj hn
        exact Nat.not_lt.mpr hlarge hrange
      · rw [Option.some_inj]
        constructor
        · rintro rfl
          exact .int hrange
        · rintro ⟨-⟩
          rfl
    · rw [if_neg hrange]
      exact Or.inl ⟨⟨n, rfl, Nat.le_of_not_lt hrange⟩, rfl⟩
  | float x =>
    refine Or.inr ⟨fun ⟨_, hn, _⟩ => Json.noConfusion hn, some x, rfl, fun y => ?_⟩
    rw [Option.some_inj]
    constructor
    · rintro rfl
      exact .float x
    · rintro ⟨-⟩
      rfl
  | string s =>
    refine Or.inr ⟨fun ⟨_, hn, _⟩ => Json.noConfusion hn, _, rfl, fun x => ?_⟩
    rw [Decimal.readFloat?_eq_some_iff]
    constructor
    · exact .text
    · rintro (_ | _ | h)
      exact h
  | _ => exact Or.inr (hnone rfl (fun ⟨_, hn, _⟩ => Json.noConfusion hn) fun x h => nomatch h)

/-! ## One stage -/

/-- What a stage makes of a proposed value: a budget and the warnings about it. -/
inductive Stage.Chosen (stage : Stage) : Option Json → Float → List Warning → Prop
  | absent : Chosen stage none stage.fallbackMs []
  | taken {value : Json} {x : Float} (h : Denotes value x) (hx : IsBudget x) :
      Chosen stage (some value) x []
  | replaced {value : Json} (h : ∀ x, Denotes value x → ¬IsBudget x) :
      Chosen stage (some value) stage.fallbackMs [.badBudget stage value]

theorem Stage.Chosen.isBudget {proposed : Option Json} {warnings : List Warning}
    (h : stage.Chosen proposed ms warnings) : IsBudget ms := by
  cases h with
  | absent => exact stage.isBudget_fallbackMs
  | taken _ hx => exact hx
  | replaced _ => exact stage.isBudget_fallbackMs

/-- A value stands for one number. -/
theorem Denotes.unique {y : Float} (hx : Denotes value x) (hy : Denotes value y) : x = y := by
  cases hx with
  | int _ =>
    cases hy
    rfl
  | float _ =>
    cases hy
    rfl
  | text hx =>
    cases hy with
    | text hy =>
      rw [← Decimal.readFloat?_eq_some_iff] at hx hy
      exact Option.some.inj (hx.symm.trans hy)

theorem Denotes.not_beyond (h : Denotes value x) : ¬Beyond value := by
  rintro ⟨n, rfl, hlarge⟩
  cases h with
  | int hrange => exact Nat.not_lt.mpr hlarge hrange

/-- A number that can be a budget is taken. -/
theorem Stage.Chosen.eq_of_denotes {warnings : List Warning}
    (h : stage.Chosen (some value) ms warnings) (hx : Denotes value x) (hbudget : IsBudget x) :
    ms = x ∧ warnings = [] := by
  cases h with
  | taken hms _ => exact ⟨hms.unique hx, rfl⟩
  | replaced hnone => exact absurd hbudget (hnone x hx)

/-- Any other value is replaced. -/
theorem Stage.Chosen.eq_fallback {warnings : List Warning}
    (h : stage.Chosen (some value) ms warnings) (hnone : ∀ x, Denotes value x → ¬IsBudget x) :
    ms = stage.fallbackMs ∧ warnings = [.badBudget stage value] := by
  cases h with
  | taken hms hbudget => exact absurd hbudget (hnone _ hms)
  | replaced _ => exact ⟨rfl, rfl⟩

/-- **A stage has a budget, unless its value is beyond the doubles.** -/
theorem budgetOf_cases (stage : Stage) (proposed : Option Json) :
    ((∃ value, proposed = some value ∧ Beyond value) ∧
        stage.budgetOf proposed = .error .beyondRange) ∨
      ((∀ value, proposed = some value → ¬Beyond value) ∧
        ∃ ms warnings, stage.budgetOf proposed = .ok (ms, warnings) ∧
          stage.Chosen proposed ms warnings) := by
  cases proposed with
  | none => exact Or.inr ⟨fun value h => absurd h (by simp), _, _, rfl, .absent⟩
  | some value =>
    rcases numberOf?_cases value with ⟨hbeyond, hnumber⟩ | ⟨hbeyond, found, hnumber, hfound⟩
    · refine Or.inl ⟨⟨value, rfl, hbeyond⟩, ?_⟩
      rw [Stage.budgetOf]
      rw [hnumber]
      rfl
    · refine Or.inr ⟨fun value' h => Option.some.inj h ▸ hbeyond, ?_⟩
      rw [Stage.budgetOf]
      rw [hnumber]
      cases found with
      | none =>
        refine ⟨_, _, rfl, .replaced fun x hx => ?_⟩
        exact absurd ((hfound x).mpr hx) (by simp)
      | some x =>
        have hx : Denotes value x := (hfound x).mp rfl
        show ∃ ms warnings, (if isUsable x = true then
          (.ok (x, []) : Except BudgetError (Float × List Warning)) else _) = .ok (ms, warnings) ∧ _
        by_cases husable : isUsable x = true
        · rw [if_pos husable]
          exact ⟨_, _, rfl, .taken hx (isUsable_iff.mp husable)⟩
        · rw [if_neg husable]
          refine ⟨_, _, rfl, .replaced fun y hy => ?_⟩
          obtain rfl := Option.some.inj ((hfound y).mpr hy)
          exact mt isUsable_iff.mpr husable

/-! ## All stages -/

theorem mem_all (stage : Stage) : stage ∈ Stage.all := by
  cases stage <;> decide

theorem mapM_eq_ok {α β ε : Type} {f : α → Except ε β} {r : α → β} {xs : List α}
    (h : ∀ x ∈ xs, f x = .ok (r x)) : xs.mapM f = .ok (xs.map r) := by
  induction xs with
  | nil => rfl
  | cons x xs ih =>
    obtain ⟨hx, hxs⟩ := List.forall_mem_cons.mp h
    rw [List.mapM_cons, hx, ih hxs]
    rfl

theorem mapM_eq_error {α β ε : Type} {f : α → Except ε β} {e : ε} {xs : List α}
    (h : ∀ x ∈ xs, f x = .error e ∨ ∃ y, f x = .ok y) (hsome : ∃ x ∈ xs, f x = .error e) :
    xs.mapM f = .error e := by
  induction xs with
  | nil =>
    obtain ⟨x, hx, -⟩ := hsome
    exact absurd hx List.not_mem_nil
  | cons x xs ih =>
    obtain ⟨hx, hxs⟩ := List.forall_mem_cons.mp h
    rw [List.mapM_cons]
    rcases hx with herror | ⟨y, hok⟩
    · rw [herror]
      rfl
    · obtain ⟨x', hmem, herror⟩ := hsome
      rcases List.mem_cons.mp hmem with rfl | hmem
      · rw [hok] at herror
        exact absurd herror (by simp)
      · rw [hok, ih hxs ⟨x', hmem, herror⟩]
        rfl

/-- **If every stage has a budget, these are the budgets.** -/
theorem propose_eq_ok {r : Stage → Float × List Warning}
    (h : ∀ stage : Stage, stage.budgetOf (values.get? stage.budgetName) = .ok (r stage)) :
    Budgets.propose values =
      .ok (⟨fun stage => (r stage).1⟩, Stage.all.flatMap fun stage => (r stage).2) := by
  unfold Budgets.propose
  rw [mapM_eq_ok (r := fun stage => (stage, r stage)) fun stage _ => by rw [h stage]; rfl]
  have hms : (fun stage => ((Stage.all.map fun stage => (stage, r stage)).lookup stage |>.map
      (·.1)).getD 0) = fun stage => (r stage).1 := by
    funext stage
    cases stage <;> rfl
  exact congrArg Except.ok (Prod.ext (congrArg Budgets.mk hms) (List.flatMap_map ..))

theorem propose_eq_error (h : ∃ stage : Stage, ∃ value,
    values.get? stage.budgetName = some value ∧ Beyond value) :
    Budgets.propose values = .error .beyondRange := by
  obtain ⟨stage, value, hvalue, hbeyond⟩ := h
  unfold Budgets.propose
  rw [mapM_eq_error (e := .beyondRange)]
  · rfl
  · intro other _
    rcases budgetOf_cases other (values.get? other.budgetName) with ⟨-, hbudget⟩ | ⟨-, r, hbudget⟩
    · rw [hbudget]
      exact Or.inl rfl
    · obtain ⟨warnings, hbudget, -⟩ := hbudget
      rw [hbudget]
      exact Or.inr ⟨_, rfl⟩
  · refine ⟨stage, mem_all stage, ?_⟩
    rcases budgetOf_cases stage (values.get? stage.budgetName) with ⟨-, hbudget⟩ | ⟨hwithin, -⟩
    · rw [hbudget]
      rfl
    · exact absurd hbeyond (hwithin value hvalue)

/-! ## Whom a warning is about -/

/-- The warning starts with some words. -/
def Warning.opens (lead : String) (warning : Warning) : Bool :=
  Text.startsWith lead.toList warning.message.toList

/-- How a warning about the stage's proposed budget starts. -/
def Stage.budgetLead (stage : Stage) : String :=
  "Invalid budget " ++ stage.budgetName ++ "="

/-- Names up to a mark that is in none of them can be told apart. -/
theorem startsWith_name {front name name' rest tail : List Char} {mark : Char} (hname : mark ∉ name)
    (hname' : mark ∉ name') (htail : tail <+: rest) :
    Text.startsWith (front ++ (name' ++ mark :: tail)) (front ++ (name ++ mark :: rest)) = true ↔
      name = name' := by
  rw [Text.startsWith_iff, List.prefix_append_right_inj]
  constructor
  · rintro ⟨more, hmore⟩
    rw [List.append_assoc, List.cons_append] at hmore
    exact (Text.eq_of_append_cons hname' hname hmore).1.symm
  · rintro rfl
    exact (List.prefix_append_right_inj _).mpr (List.cons_prefix_cons.mpr ⟨rfl, htail⟩)

theorem budgetName_plain (stage : Stage) : '=' ∉ stage.budgetName.toList := by
  cases stage <;> decide

theorem budgetName_inj {stage stage' : Stage} (h : stage.budgetName = stage'.budgetName) :
    stage = stage' := by
  cases stage <;> cases stage' <;> first | rfl | exact absurd h (by decide)

theorem opens_badBudget (stage stage' : Stage) (value : Json) :
    (Warning.badBudget stage value).opens stage'.budgetLead = decide (stage = stage') := by
  have hlead : stage'.budgetLead.toList =
      "Invalid budget ".toList ++ (stage'.budgetName.toList ++ '=' :: []) := by
    rw [Stage.budgetLead, String.toList_append, String.toList_append, List.append_assoc]
    rfl
  have hwords : (Warning.badBudget stage value).message = "Invalid budget " ++ stage.budgetName ++
      "=" ++ String.ofList value.display ++ ", using default " ++ toString stage.fallback := rfl
  have hmessage : (Warning.badBudget stage value).message.toList =
      "Invalid budget ".toList ++ (stage.budgetName.toList ++ '=' ::
        ((String.ofList value.display).toList ++
          (", using default ".toList ++ (toString stage.fallback).toList))) := by
    rw [hwords, String.toList_append, String.toList_append, String.toList_append,
      String.toList_append, String.toList_append, List.append_assoc, List.append_assoc,
      List.append_assoc, List.append_assoc]
    rfl
  rw [Bool.eq_iff_iff, decide_eq_true_iff, Warning.opens, hlead, hmessage,
    startsWith_name (budgetName_plain stage) (budgetName_plain stage') List.nil_prefix,
    String.toList_inj]
  exact ⟨budgetName_inj, congrArg _⟩

/-- Where each stage is warned about in its own words, the warnings that start with a stage's words
are those of the stage. -/
theorem filter_stages {warnings : Stage → List Warning} {lead : Stage → String}
    (h : ∀ stage stage', ∀ w ∈ warnings stage,
      w.opens (lead stage') = decide (stage = stage')) (stage : Stage) :
    (Stage.all.flatMap warnings).filter (·.opens (lead stage)) = warnings stage := by
  have hown (other : Stage) : (warnings other).filter (·.opens (lead stage)) =
      if other = stage then warnings other else [] := by
    split
    next heq =>
      refine List.filter_eq_self.mpr fun w hw => ?_
      rw [h other stage w hw]
      exact decide_eq_true heq
    next hne =>
      refine List.filter_eq_nil_iff.mpr fun w hw => ?_
      rw [h other stage w hw, decide_eq_true_iff]
      exact hne
  rw [List.filter_flatMap]
  simp only [hown, Stage.all, List.flatMap_cons, List.flatMap_nil]
  cases stage <;> simp

/-! ## The whole proposal -/

theorem Stage.Chosen.opens {proposed : Option Json} {warnings : List Warning}
    (h : stage.Chosen proposed ms warnings) (stage' : Stage) :
    ∀ w ∈ warnings, w.opens stage'.budgetLead = decide (stage = stage') := by
  intro w hw
  cases h with
  | absent => exact absurd hw List.not_mem_nil
  | taken _ _ => exact absurd hw List.not_mem_nil
  | replaced _ =>
    rw [List.mem_singleton.mp hw]
    exact opens_badBudget stage stage' _

/-- With no value beyond the doubles every stage has a budget, and the warnings tell them apart. -/
theorem exists_budgets (h : ∀ stage : Stage, ∀ value,
    values.get? stage.budgetName = some value → ¬Beyond value) :
    ∃ budgets warnings, Budgets.propose values = .ok (budgets, warnings) ∧
      (∀ stage : Stage, stage.Chosen (values.get? stage.budgetName) (budgets.ms stage)
        (warnings.filter (·.opens stage.budgetLead))) ∧
      ∀ w ∈ warnings, ∃ stage : Stage, w.opens stage.budgetLead = true := by
  have hbudget (stage : Stage) : ∃ r : Float × List Warning,
      stage.budgetOf (values.get? stage.budgetName) = .ok r ∧
        stage.Chosen (values.get? stage.budgetName) r.1 r.2 := by
    rcases budgetOf_cases stage (values.get? stage.budgetName) with
      ⟨⟨value, hvalue, hbeyond⟩, -⟩ | ⟨-, ms, warnings, hbudget, hchosen⟩
    · exact absurd hbeyond (h stage value hvalue)
    · exact ⟨(ms, warnings), hbudget, hchosen⟩
  choose r hr hchosen using hbudget
  refine ⟨_, _, propose_eq_ok hr, fun stage => ?_, fun w hw => ?_⟩
  · rw [filter_stages fun stage stage' => (hchosen stage).opens stage']
    exact hchosen stage
  · obtain ⟨stage, -, hw⟩ := List.mem_flatMap.mp hw
    exact ⟨stage, by rw [(hchosen stage).opens stage w hw]; exact decide_eq_true rfl⟩

/-- **A proposal fails just if a value is beyond the doubles.** -/
theorem propose_eq_error_iff : Budgets.propose values = .error .beyondRange ↔
    ∃ stage : Stage, ∃ n, values.get? stage.budgetName = some (.int n) ∧ overflow ≤ n.natAbs := by
  constructor
  · intro herror
    by_contra hnone
    obtain ⟨budgets, warnings, hok, -⟩ := @exists_budgets values
      fun stage value hvalue hbeyond => by
        obtain ⟨n, rfl, hlarge⟩ := hbeyond
        exact hnone ⟨stage, n, hvalue, hlarge⟩
    rw [hok] at herror
    exact absurd herror (by simp)
  · rintro ⟨stage, n, hvalue, hlarge⟩
    exact propose_eq_error ⟨stage, _, hvalue, n, rfl, hlarge⟩

end Mooring.Settings
