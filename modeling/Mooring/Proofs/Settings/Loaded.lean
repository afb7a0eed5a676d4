import Mooring.Proofs.Settings.Proposed

/-!
# Budgets from the environment

A stage's variable either spells a budget, blanks around it left out, or is left aside: without a
word if it is not set or blank, with one warning otherwise (`budgetFrom_cases`).  So the budgets are
finite numbers above zero whatever the environment holds, and a variable is no concern of any other
stage (`load_budgets`).

What is read from the environment is proposed once more, as any budgets are.  That changes nothing
and warns of nothing (`propose_parsed`).
-/

namespace Mooring.Settings

open Mooring.Decimal (infinity nearest overflow Spells bareNumber isNumberBlank)
open Mooring.Text (isBlank trim trim_eq_nil_iff)

variable {stage : Stage} {env : Environment} {x : Float} {raw : String}

/-! ## What a variable says -/

/-- How a warning about the stage's variable starts. -/
def Stage.environmentLead (stage : Stage) : String :=
  "Invalid " ++ stage.environmentName ++ ": "

/-- The stage's variable spells the number. -/
def Stage.Spelled (stage : Stage) (env : Environment) (x : Float) : Prop :=
  ∃ raw, env.get? stage.environmentName = some raw ∧ Spells (trim raw.toList) x

/-- The stage's variable is set to something else than blanks that spells no budget. -/
def Stage.Misspelled (stage : Stage) (env : Environment) : Prop :=
  ∃ raw, env.get? stage.environmentName = some raw ∧ (∃ c ∈ raw.toList, isBlank c = false) ∧
    ∀ x, Spells (trim raw.toList) x → ¬IsBudget x

/-- No blank of either kind is left around a trimmed text. -/
theorem bareNumber_trim (cs : List Char) : bareNumber (trim cs) = trim cs := by
  have hkind {c : Char} (hc : isBlank c = false) : isNumberBlank c = false := by
    rw [isNumberBlank, hc, Bool.false_and]
  have hfirst : (trim cs).dropWhile isNumberBlank = trim cs := by
    cases htrim : trim cs with
    | nil => rfl
    | cons c rest =>
      rw [List.dropWhile_cons_of_neg]
      rw [hkind (Text.head_trim htrim)]
      exact Bool.false_ne_true
  rw [bareNumber, hfirst]
  exact Text.dropTrailing_of_last fun c hc => hkind (Text.last_dropTrailing hc)

theorem spelled?_eq_some_iff : spelled? raw = some x ↔ Spells (trim raw.toList) x := by
  rw [spelled?, Decimal.readFloat?_eq_some_iff, bareNumber_trim]

/-- What spells something is not blank. -/
theorem filled_of_spells (h : Spells (trim raw.toList) x) : ∃ c ∈ raw.toList, isBlank c = false := by
  by_contra hblank
  have htrim : trim raw.toList = [] := by
    refine trim_eq_nil_iff.mpr fun c hc => ?_
    by_contra hfilled
    exact hblank ⟨c, hc, Bool.eq_false_iff.mpr hfilled⟩
  have hempty : Decimal.readFloat? [] = none := by decide
  rw [← spelled?_eq_some_iff, spelled?, htrim, hempty] at h
  exact absurd h (by simp)

theorem Stage.Spelled.unique {y : Float} (hx : stage.Spelled env x) (hy : stage.Spelled env y) :
    x = y := by
  obtain ⟨raw, hraw, hx⟩ := hx
  obtain ⟨raw', hraw', hy⟩ := hy
  obtain rfl := Option.some.inj (hraw.symm.trans hraw')
  rw [← spelled?_eq_some_iff] at hx hy
  exact Option.some.inj (hx.symm.trans hy)

theorem environmentName_plain (stage : Stage) : ':' ∉ stage.environmentName.toList := by
  cases stage <;> decide

theorem environmentName_inj {stage stage' : Stage}
    (h : stage.environmentName = stage'.environmentName) : stage = stage' := by
  cases stage <;> cases stage' <;> first | rfl | exact absurd h (by decide)

/-- A warning that starts with the name of a stage's variable is about that stage. -/
theorem opens_environmentLead {warning : Warning} {rest : String} (stage stage' : Stage)
    (h : warning.message = "Invalid " ++ (stage.environmentName ++ (": " ++ rest))) :
    warning.opens stage'.environmentLead = decide (stage = stage') := by
  have hlead : stage'.environmentLead.toList =
      "Invalid ".toList ++ (stage'.environmentName.toList ++ ':' :: [' ']) := by
    rw [Stage.environmentLead, String.toList_append, String.toList_append, List.append_assoc]
    rfl
  have hmessage : warning.message.toList =
      "Invalid ".toList ++ (stage.environmentName.toList ++ ':' :: ([' '] ++ rest.toList)) := by
    rw [h, String.toList_append, String.toList_append, String.toList_append]
    rfl
  rw [Bool.eq_iff_iff, decide_eq_true_iff, Warning.opens, hlead, hmessage,
    startsWith_name (environmentName_plain stage) (environmentName_plain stage')
      (List.prefix_append [' '] rest.toList), String.toList_inj]
  exact ⟨environmentName_inj, congrArg _⟩

theorem opens_notANumber (stage stage' : Stage) (raw fallback : String) :
    (Warning.notANumber stage.environmentName raw fallback).opens stage'.environmentLead =
      decide (stage = stage') := by
  refine @opens_environmentLead _ (quotedText raw ++
    (" is not a number, using default " ++ fallback)) stage stage' ?_
  rw [← String.append_assoc, ← String.append_assoc, ← String.append_assoc, ← String.append_assoc]
  rfl

theorem opens_outOfRange (stage stage' : Stage) (raw requirement fallback : String) :
    (Warning.outOfRange stage.environmentName raw requirement fallback).opens
      stage'.environmentLead = decide (stage = stage') := by
  refine @opens_environmentLead _ (quotedText raw ++ (" must be a " ++ (requirement ++
    (" number, using default " ++ fallback)))) stage stage' ?_
  rw [← String.append_assoc, ← String.append_assoc, ← String.append_assoc, ← String.append_assoc,
    ← String.append_assoc, ← String.append_assoc]
  rfl

theorem setting?_eq_some_iff {setting : String} : env.setting? setting = some raw ↔
    env.get? setting = some raw ∧ ∃ c ∈ raw.toList, isBlank c = false := by
  have hfilled : (!(trim raw.toList).isEmpty) = true ↔ ∃ c ∈ raw.toList, isBlank c = false := by
    rw [Bool.not_eq_true', Bool.eq_false_iff, Ne, List.isEmpty_iff, trim_eq_nil_iff]
    simp
  rw [Environment.setting?, Option.filter_eq_some_iff, hfilled]

/-- **A variable spells a budget, or is left aside**, with a warning unless it is blank. -/
theorem budgetFrom_cases (stage : Stage) (env : Environment) :
    (stage.budgetFrom env = (stage.fallbackMs, []) ∧
        ∀ raw, env.get? stage.environmentName = some raw → ∀ c ∈ raw.toList, isBlank c = true) ∨
      (∃ x, stage.Spelled env x ∧ IsBudget x ∧ stage.budgetFrom env = (x, [])) ∨
      (stage.Misspelled env ∧ ∃ w, stage.budgetFrom env = (stage.fallbackMs, [w]) ∧
        ∀ stage', w.opens stage'.environmentLead = decide (stage = stage')) := by
  cases hset : env.setting? stage.environmentName with
  | none =>
    refine Or.inl ⟨by rw [Stage.budgetFrom, hset]; rfl, fun raw hraw c hc => ?_⟩
    by_contra hblank
    rw [setting?_eq_some_iff.mpr ⟨hraw, c, hc, Bool.eq_false_iff.mpr hblank⟩] at hset
    exact absurd hset (by simp)
  | some raw =>
    obtain ⟨hraw, hfilled⟩ := setting?_eq_some_iff.mp hset
    cases hspelled : spelled? raw with
    | none =>
      refine Or.inr (Or.inr ⟨⟨raw, hraw, hfilled, fun x hx => ?_⟩, ?_⟩)
      · rw [spelled?_eq_some_iff.mpr hx] at hspelled
        exact absurd hspelled (by simp)
      · refine ⟨.notANumber stage.environmentName raw (toString stage.fallback ++ "ms"), ?_,
          fun stage' => opens_notANumber stage stage' raw _⟩
        rw [Stage.budgetFrom, hset]
        dsimp only
        rw [hspelled]
        rfl
    | some x =>
      have hx := spelled?_eq_some_iff.mp hspelled
      by_cases husable : isUsable x = true
      · refine Or.inr (Or.inl ⟨x, ⟨raw, hraw, hx⟩, isUsable_iff.mp husable, ?_⟩)
        rw [Stage.budgetFrom, hset]
        dsimp only
        rw [hspelled]
        dsimp only
        rw [if_pos husable]
      · refine Or.inr (Or.inr ⟨⟨raw, hraw, hfilled, fun y hy => ?_⟩, ?_⟩)
        · rw [spelled?_eq_some_iff.mpr hy] at hspelled
          obtain rfl := Option.some.inj hspelled
          exact mt isUsable_iff.mpr husable
        · refine ⟨.outOfRange stage.environmentName raw "positive"
            (toString stage.fallback ++ "ms"), ?_,
            fun stage' => opens_outOfRange stage stage' raw _ _⟩
          rw [Stage.budgetFrom, hset]
          dsimp only
          rw [hspelled]
          dsimp only
          rw [if_neg husable]
          rfl

/-- A variable that spells something is not blank. -/
theorem Stage.Spelled.filled (h : stage.Spelled env x) :
    ∃ raw, env.get? stage.environmentName = some raw ∧ ∃ c ∈ raw.toList, isBlank c = false := by
  obtain ⟨raw, hraw, hspells⟩ := h
  exact ⟨raw, hraw, filled_of_spells hspells⟩

theorem budgetFrom_of_spelled (h : stage.Spelled env x) (hbudget : IsBudget x) :
    stage.budgetFrom env = (x, []) := by
  rcases budgetFrom_cases stage env with
    ⟨-, hblank⟩ | ⟨y, hy, -, hfrom⟩ | ⟨⟨raw, hraw, -, hnone⟩, -⟩
  · obtain ⟨raw, hraw, c, hc, hfilled⟩ := h.filled
    rw [hblank raw hraw c hc] at hfilled
    exact absurd hfilled (by simp)
  · rw [hfrom, h.unique hy]
  · obtain ⟨raw', hraw', hspells⟩ := h
    obtain rfl := Option.some.inj (hraw.symm.trans hraw')
    exact absurd hbudget (hnone x hspells)

theorem budgetFrom_of_misspelled (h : stage.Misspelled env) :
    ∃ w, stage.budgetFrom env = (stage.fallbackMs, [w]) := by
  obtain ⟨raw, hraw, ⟨c, hc, hfilled⟩, hnone⟩ := h
  rcases budgetFrom_cases stage env with
    ⟨-, hblank⟩ | ⟨y, ⟨raw', hraw', hspells⟩, hbudget, -⟩ | ⟨-, w, hfrom, -⟩
  · rw [hblank raw hraw c hc] at hfilled
    exact absurd hfilled (by simp)
  · obtain rfl := Option.some.inj (hraw.symm.trans hraw')
    exact absurd hbudget (hnone y hspells)
  · exact ⟨w, hfrom⟩

theorem isBudget_budgetFrom (stage : Stage) (env : Environment) :
    IsBudget (stage.budgetFrom env).1 := by
  rcases budgetFrom_cases stage env with ⟨hfrom, -⟩ | ⟨x, -, hbudget, hfrom⟩ | ⟨-, w, hfrom, -⟩
  · rw [hfrom]
    exact stage.isBudget_fallbackMs
  · rw [hfrom]
    exact hbudget
  · rw [hfrom]
    exact stage.isBudget_fallbackMs

theorem opens_budgetFrom (env : Environment) (stage stage' : Stage) :
    ∀ w ∈ (stage.budgetFrom env).2, w.opens stage'.environmentLead = decide (stage = stage') := by
  intro w hw
  rcases budgetFrom_cases stage env with ⟨hfrom, -⟩ | ⟨x, -, -, hfrom⟩ | ⟨-, w', hfrom, hopens⟩
  · rw [hfrom] at hw
    exact absurd hw List.not_mem_nil
  · rw [hfrom] at hw
    exact absurd hw List.not_mem_nil
  · rw [hfrom] at hw
    rw [List.mem_singleton.mp hw]
    exact hopens stage'

/-! ## What is read, proposed again -/

/-- What is read from the stage's variable: the number it spells if that can be a budget, else the
stage's default, which is a whole number. -/
def Stage.parsed (stage : Stage) (env : Environment) : Json :=
  match (env.setting? stage.environmentName).bind spelled? with
  | some x => if isUsable x then .float x else .int stage.fallback
  | none => .int stage.fallback

/-- What is read from the environment, by the names of the budgets. -/
def parsedBudgets (env : Environment) : Table Json :=
  Stage.all.map fun stage => (stage.budgetName, stage.parsed env)

theorem get?_parsedBudgets (stage : Stage) (env : Environment) :
    (parsedBudgets env).get? stage.budgetName = some (stage.parsed env) := by
  cases stage <;> rfl

theorem denotes_fallback (stage : Stage) : Denotes (.int stage.fallback) stage.fallbackMs := by
  have hrange : (stage.fallback : Int).natAbs < overflow :=
    Decimal.lt_overflow (by cases stage <;> decide)
  have h := Denotes.int hrange
  rwa [decide_eq_false (Int.not_lt.mpr (Int.natCast_nonneg _)), Int.natAbs_natCast] at h

theorem denotes_parsed (stage : Stage) (env : Environment) :
    Denotes (stage.parsed env) (stage.budgetFrom env).1 := by
  unfold Stage.parsed Stage.budgetFrom
  cases env.setting? stage.environmentName with
  | none => exact denotes_fallback stage
  | some raw =>
    dsimp only [Option.bind_some]
    cases spelled? raw with
    | none => exact denotes_fallback stage
    | some x =>
      dsimp only
      by_cases husable : isUsable x = true
      · rw [if_pos husable, if_pos husable]
        exact .float x
      · rw [if_neg husable, if_neg husable]
        exact denotes_fallback stage

/-- **What is read passes the second check as it is.** -/
theorem propose_parsed (env : Environment) :
    Budgets.propose (parsedBudgets env) = .ok ((Budgets.load env).1, []) := by
  have hstage (stage : Stage) : stage.budgetOf ((parsedBudgets env).get? stage.budgetName) =
      .ok ((stage.budgetFrom env).1, []) := by
    rw [get?_parsedBudgets]
    have hparsed := denotes_parsed stage env
    rcases budgetOf_cases stage (some (stage.parsed env)) with
      ⟨⟨value, hvalue, hbeyond⟩, -⟩ | ⟨-, ms, warnings, hbudget, hchosen⟩
    · obtain rfl := Option.some.inj hvalue
      exact absurd hbeyond hparsed.not_beyond
    · obtain ⟨rfl, rfl⟩ := hchosen.eq_of_denotes hparsed (isBudget_budgetFrom stage env)
      exact hbudget
  rw [propose_eq_ok hstage]
  rfl

/-! ## The whole environment -/

theorem filter_load (env : Environment) (stage : Stage) :
    (Budgets.load env).2.filter (·.opens stage.environmentLead) = (stage.budgetFrom env).2 :=
  filter_stages (opens_budgetFrom env) stage

/-- **What becomes of an environment.**  Every stage has a finite budget above zero.  It is the
number that the stage's variable spells, if that can be a budget, else the stage's default.  There
is one warning about the stage if its variable is misspelled and none if not, and no warning about
anything else.  A variable is no concern of the other stages.  Proposing what was read changes
nothing more. -/
theorem load_budgets (env : Environment) :
    (∀ stage : Stage,
      IsBudget ((Budgets.load env).1.ms stage) ∧
      (∀ x, stage.Spelled env x → IsBudget x → (Budgets.load env).1.ms stage = x) ∧
      ((∀ x, stage.Spelled env x → ¬IsBudget x) →
        (Budgets.load env).1.ms stage = stage.fallbackMs) ∧
      (stage.Misspelled env →
        ∃ w, (Budgets.load env).2.filter (·.opens stage.environmentLead) = [w]) ∧
      (¬stage.Misspelled env →
        (Budgets.load env).2.filter (·.opens stage.environmentLead) = []) ∧
      ∀ (changed : Stage) (env' : Environment),
        (∀ setting, setting ≠ changed.environmentName → env'.get? setting = env.get? setting) →
        stage ≠ changed → (Budgets.load env').1.ms stage = (Budgets.load env).1.ms stage) ∧
    (∀ w ∈ (Budgets.load env).2, ∃ stage : Stage, w.opens stage.environmentLead = true) ∧
    Budgets.propose (parsedBudgets env) = .ok ((Budgets.load env).1, []) := by
  refine ⟨fun stage => ⟨isBudget_budgetFrom stage env, ?_, ?_, ?_, ?_, ?_⟩, ?_, propose_parsed env⟩
  · intro x hx hbudget
    exact congrArg Prod.fst (budgetFrom_of_spelled hx hbudget)
  · intro hnone
    rcases budgetFrom_cases stage env with ⟨hfrom, -⟩ | ⟨x, hx, hbudget, -⟩ | ⟨-, w, hfrom, -⟩
    · exact congrArg Prod.fst hfrom
    · exact absurd hbudget (hnone x hx)
    · exact congrArg Prod.fst hfrom
  · intro hmisspelled
    obtain ⟨w, hfrom⟩ := budgetFrom_of_misspelled hmisspelled
    exact ⟨w, by rw [filter_load, hfrom]⟩
  · intro hnot
    rw [filter_load]
    rcases budgetFrom_cases stage env with ⟨hfrom, -⟩ | ⟨x, -, -, hfrom⟩ | ⟨hmisspelled, -⟩
    · rw [hfrom]
    · rw [hfrom]
    · exact absurd hmisspelled hnot
  · intro changed env' hsame hne
    have hget := hsame stage.environmentName fun heq => hne (environmentName_inj heq)
    show (stage.budgetFrom env').1 = (stage.budgetFrom env).1
    rw [Stage.budgetFrom, Stage.budgetFrom, Environment.setting?, Environment.setting?, hget]
  · intro w hw
    obtain ⟨stage, -, hw⟩ := List.mem_flatMap.mp hw
    exact ⟨stage, by rw [opens_budgetFrom env stage stage w hw]; exact decide_eq_true rfl⟩

/-- A number in any spelling is taken, one too large for a budget is replaced, and a blank variable
is as good as none. -/
theorem load_budgets_mixed :
    ∃ budgets warnings,
      Budgets.load [("ANCHORS_PROBE_TIMEOUT_MS", " 1_0.5e1"), ("ANCHORS_ATTR_TIMEOUT_MS", "1e400"),
        ("ANCHORS_FULL_SCAN_TIMEOUT_MS", " ")] = (budgets, warnings) ∧
      budgets.ms .probe = nearest false 105 1 ∧
      budgets.ms .attributeMatch = nearest false 600 1 ∧
      (∃ w, warnings.filter (·.opens "Invalid ANCHORS_ATTR_TIMEOUT_MS: ") = [w]) ∧
      warnings.filter (·.opens "Invalid ANCHORS_FULL_SCAN_TIMEOUT_MS: ") = [] := by
  obtain ⟨hstages, -⟩ := load_budgets [("ANCHORS_PROBE_TIMEOUT_MS", " 1_0.5e1"),
    ("ANCHORS_ATTR_TIMEOUT_MS", "1e400"), ("ANCHORS_FULL_SCAN_TIMEOUT_MS", " ")]
  have hprobe : spelled? " 1_0.5e1" = some (nearest false 105 1) := by decide +kernel
  have hattribute : spelled? "1e400" = some (infinity false) := by decide +kernel
  have hlarge {x : Float} (hx : Spells (trim "1e400".toList) x) : ¬IsBudget x := by
    rw [← spelled?_eq_some_iff, hattribute] at hx
    obtain rfl := Option.some.inj hx
    exact mt isUsable_iff.mpr (by decide +kernel)
  refine ⟨_, _, Prod.mk.eta.symm, ?_, ?_, ?_, ?_⟩
  · exact (hstages .probe).2.1 _ ⟨_, rfl, spelled?_eq_some_iff.mp hprobe⟩
      (isUsable_iff.mp (by decide))
  · refine (hstages .attributeMatch).2.2.1 fun x => ?_
    rintro ⟨raw, hraw, hx⟩
    obtain rfl := Option.some.inj (show some "1e400" = some raw from hraw)
    exact hlarge hx
  · exact (hstages .attributeMatch).2.2.2.1
      ⟨"1e400", rfl, ⟨'1', List.mem_cons_self, by decide⟩, fun x hx => hlarge hx⟩
  · refine (hstages .fullScan).2.2.2.2.1 ?_
    rintro ⟨raw, hraw, ⟨c, hc, hfilled⟩, -⟩
    obtain rfl := Option.some.inj (show some " " = some raw from hraw)
    obtain rfl := List.mem_singleton.mp hc
    exact absurd hfilled (by decide)

end Mooring.Settings
