import Mooring.Proofs.Fragment.Comparison
import Mooring.Proofs.Fragment.Stored
import Mooring.Proofs.Resolution.Lasting

/-!
# What counts as a matched snippet

The rating of a candidate says whether its snippet matched, one or zero.  It is meant to say that
the fragment has the stored hash.  What it says is that the candidate scores one, and there are
three ways to do that (`PassesFor`): the fragment has the stored hash; it is the stored fragment up
to layout; or no fragment is stored, and the element has all the features that the tier goes by.
So an anchor with neither hash nor fragment has candidates whose snippets count as matched
(`matched_without_hash`).

Every candidate keeps the score that its tier gave it (`scored_resolve`), so this is settled where
scores are made (`round_matchScore_eq_one`).  If the stored fragment has the stored hash, as
that of a captured anchor does, then the three ways are one, and the rating says what it is meant
to say (`resolve_matched`).
-/

namespace Mooring.Resolution

open Mooring.Decimal Mooring.Fragment Mooring.Markup Mooring.Text

/-! ## Passing for the stored element -/

/-- A hash is stored, and the fragment has it. -/
def HasStoredHash (anchor : Anchor) (fragment : String) : Prop :=
  ∃ hash, anchor.snippetHash = some hash ∧ hashMatches fragment hash = true

/-- The element passes for the stored one: its fragment has the stored hash, or is the stored
fragment up to layout, or no fragment is stored and it has all of some features. -/
def PassesFor (anchor : Anchor) (features : List Feature) (node : Node) : Prop :=
  HasStoredHash anchor node.fragment ∨
    match nonEmpty anchor.snippet with
    | some snippet => canonical snippet = canonical node.fragment
    | none => features ≠ [] ∧ ∀ feature ∈ features, feature.holds node = true

/-- There are fewer than so many features, and characters in the canonical forms of the stored
fragment and of the element's. -/
structure FewerThan (limit : Nat) (anchor : Anchor) (features : List Feature) (node : Node) :
    Prop where
  features : features.length < limit
  fragment : (canonical node.fragment).length < limit
  snippet : ∀ snippet, anchor.snippet = some snippet → (canonical snippet).length < limit

variable {anchor : Anchor} {features : List Feature} {node : Node}

theorem hasStoredHash_iff {fragment : String} : HasStoredHash anchor fragment ↔
    (nonEmpty anchor.snippetHash).any (hashMatches fragment ·) = true := by
  rw [nonEmpty, Option.any_filter, Option.any_eq_true, HasStoredHash]
  refine exists_congr fun hash => and_congr_right fun _ => ?_
  -- Nothing matches an empty text, so it makes no difference whether one is stored.
  rw [Bool.and_eq_true_iff, iff_and_self, hashMatches, Bool.and_eq_true_iff]
  exact And.left

/-- Fragments with the same canonical form have the same hashes. -/
theorem hashMatches_of_canonical {first second : String} (h : canonical first = canonical second)
    (stored : String) : hashMatches first stored = hashMatches second stored := by
  rw [hashMatches, hashMatches, Fragment.hash, Fragment.hash, h]

/-- If the stored fragment has the stored hash, what passes is what has the hash. -/
theorem passesFor_iff_hasStoredHash {snippet : String}
    (hsnippet : nonEmpty anchor.snippet = some snippet) (hstored : HasStoredHash anchor snippet) :
    PassesFor anchor features node ↔ HasStoredHash anchor node.fragment := by
  unfold PassesFor
  rw [hsnippet]
  refine or_iff_left_of_imp fun hsame => ?_
  obtain ⟨hash, hhash, hmatches⟩ := hstored
  exact ⟨hash, hhash, by rwa [← hashMatches_of_canonical hsame]⟩

/-! ## Scores of one -/

/-- All features make a share of one; with fewer than 400000 of them nothing else is rounded to
one. -/
theorem round_featureShare_eq_one (features : List Feature) (node : Node) :
    (features ≠ [] ∧ (∀ feature ∈ features, feature.holds node = true) →
      Scalar.round 6 (featureShare features node : Float) = 1) ∧
    (features.length < 400000 → Scalar.round 6 (featureShare features node : Float) = 1 →
      features ≠ [] ∧ ∀ feature ∈ features, feature.holds node = true) := by
  have hone : (Scalar.one : Float) = 1 := by decide
  unfold featureShare
  constructor
  · rintro ⟨hsome, hall⟩
    rw [if_neg (by rwa [List.isEmpty_iff]), List.length_filter_eq_length_iff.mpr hall,
      ratio_self (List.length_pos_iff.mpr hsome), Decimal.round_one, hone]
  · intro hfew h
    split at h
    next => exact absurd h (by decide +kernel)
    next hsome =>
      refine ⟨mt List.isEmpty_iff.mpr hsome, ?_⟩
      by_contra hall
      have hlt : (features.filter (·.holds node)).length < features.length :=
        List.length_filter_lt_length_iff_exists.mpr (by simpa using hall)
      exact round_ratio_ne_one hlt hfew h

/-- **What passes for the stored element scores one**, and within the limits nothing else does. -/
theorem round_matchScore_eq_one (anchor : Anchor) (features : List Feature) (node : Node) :
    (PassesFor anchor features node →
      Scalar.round 6 (matchScore anchor features node : Float) = 1) ∧
    (FewerThan 400000 anchor features node →
      Scalar.round 6 (matchScore anchor features node : Float) = 1 →
      PassesFor anchor features node) := by
  have hone : (Scalar.one : Float) = 1 := by decide
  by_cases hhash : HasStoredHash anchor node.fragment
  · have hscore : (matchScore anchor features node : Float) = Scalar.one :=
      if_pos (hasStoredHash_iff.mp hhash)
    rw [hscore, Decimal.round_one]
    exact ⟨fun _ => hone, fun _ _ => .inl hhash⟩
  · unfold PassesFor matchScore
    rw [if_neg (mt hasStoredHash_iff.mpr hhash), or_iff_right hhash]
    cases hsnippet : nonEmpty anchor.snippet with
    | none =>
      obtain ⟨hall, hback⟩ := round_featureShare_eq_one features node
      exact ⟨hall, fun hfew h => hback hfew.features h⟩
    | some snippet =>
      dsimp only
      rw [round_similarity]
      refine ⟨fun hsame => by rw [similarity_of_eq hsame, hone], fun hfew h => ?_⟩
      have hstored := hfew.snippet snippet (Option.filter_eq_some_iff.mp hsnippet).1
      exact (similarity_eq_one_iff hstored hfew.fragment).mp h

/-! ## The scores of candidates -/

/-- The features that a tier goes by where no fragment is stored. -/
def wanted (anchor : Anchor) : Tier → List Feature
  | .fastStructural => shapeFeatures (.ofSelector anchor.selector)
  | .attributeMatch =>
    (stablePairs (.ofSelector anchor.selector) none anchor.hint).map fun (name, value) =>
      .valued name value
  | _ => []

section

variable {α : Type} [Scalar α] {task : Task α}

/-- The candidate is the stored selector, or it has the score of an element of what its tier looks
through. -/
def Task.Scored (task : Task α) (c : Candidate α) : Prop :=
  c.tier = .storedSelector ∨ ∃ index node, task.ReadsFor c.tier index ∧ node ∈ index.nodes ∧
    c.snippet = some node.fragment ∧
    c.score = Scalar.round 6 (matchScore task.anchor (wanted task.anchor c.tier) node)

theorem lasting_scored (task : Task α) : Lasting task.Scored :=
  fun _ _ _ _ _ h => h

/-- Features only count where no fragment is stored. -/
theorem matchScore_congr {features' : List Feature}
    (h : nonEmpty anchor.snippet = none → features = features') (node : Node) :
    (matchScore anchor features node : α) = matchScore anchor features' node := by
  unfold matchScore
  cases hsnippet : nonEmpty anchor.snippet with
  | none => rw [h hsnippet]
  | some snippet => rfl

theorem Task.Makes.scored {tier : Tier} {c : Candidate α} (h : task.Makes features tier c)
    (hwanted : nonEmpty task.anchor.snippet = none → features = wanted task.anchor tier) :
    task.Scored c := by
  obtain ⟨index, hread, node, hmem, selector, rfl⟩ := h
  exact .inr ⟨index, node, hread, hmem, rfl,
    congrArg (Scalar.round 6) (matchScore_congr hwanted node)⟩

theorem scored_turns (task : Task α) : ∀ turn ∈ task.turns, turn.Yields task.Scored := by
  intro turn hturn found hfound c hc
  rcases mem_turns hturn with rfl | rfl | rfl
  · exact (makes_fastStructural hfound c hc).scored fun _ => rfl
  · refine (makes_attributeMatch hfound c hc).scored fun hnone => ?_
    have hparsed : task.parsed = none := by
      rw [Task.parsed, parseStep, hnone]
      rfl
    rw [hparsed]
    rfl
  · exact (makes_fullStructural (fun _ => reads_matchTurn) hfound c hc).scored fun _ => rfl

/-- **Every candidate of a resolution is the stored selector, or it keeps the score that its tier
gave it.** -/
theorem scored_resolve (task : Task α) (deadline : Option Float) :
    ∀ c ∈ (resolve task deadline).trace.candidates, task.Scored c :=
  holds_resolve (lasting_scored task) (.inl rfl) (scored_turns task) deadline

/-! ## The rating -/

/-- A resolution that is not cut off ends as the run does. -/
theorem resolve_of_not_timedOut {deadline : Option Float}
    (h : (resolve task deadline).timedOut = false) : resolve task deadline = task.run.outcome := by
  unfold resolve Run.within at h ⊢
  cases deadline with
  | none => rfl
  | some d =>
    dsimp only at h ⊢
    split
    next hover => rw [if_pos hover] at h; exact absurd h (by simp [Outcome.expired])
    next hover =>
      rw [if_neg hover] at h
      split
      next t hcut => rw [hcut] at h; exact absurd h (by simp [Outcome.expired])
      next => rfl

end

/-- The part of a rating that is about the snippet: one for a score of one, else zero. -/
theorem snippetMatch_evidence {c : Candidate Float} (htier : c.tier ≠ .storedSelector)
    (hscore : IsShare c.score) (prefer : List String) :
    ((c.evidence prefer).parts : Settings.Blend Float).snippetMatch =
      if c.score = 1 then 1 else 0 := by
  have hone : (Scalar.one : Float) = 1 := by decide
  have hreach : Scalar.atMost Scalar.one c.score = true ↔ c.score = 1 := by
    have hle : Scalar.atMost Scalar.one c.score = true ↔ Scalar.one ≤ c.score := decide_eq_true_iff
    rw [hle, isShare_one.le_iff hscore, hone]
    exact ⟨fun h => eq_of_toBits (Nat.le_antisymm hscore h), fun h => by rw [h]⟩
  have hmatched : (c.evidence prefer).snippetMatched =
      some (Scalar.atMost Scalar.one c.score) := if_neg htier
  unfold Stability.Evidence.parts
  dsimp only
  rw [hmatched]
  by_cases hfull : c.score = 1
  · rw [if_pos hfull, hreach.mpr hfull]
    decide
  · rw [if_neg hfull, Bool.eq_false_iff.mpr (mt hreach.mp hfull)]
    decide

/-- **When a snippet counts as matched**, in a resolution that is not cut off.  For each candidate
of a searching tier the rating says one or zero.  It says one if the element passes for the stored
one, and with fewer than 400000 features and characters only then.  If moreover the stored fragment
has the stored hash, then it says one just if the fragment of the element has that hash. -/
theorem resolve_matched {task : Task Float} {deadline : Option Float}
    (hended : (resolve task deadline).timedOut = false) :
    ∀ c ∈ (resolve task deadline).trace.candidates, c.tier ≠ .storedSelector →
      ∃ index node stability, task.ReadsFor c.tier index ∧ node ∈ index.nodes ∧
        c.snippet = some node.fragment ∧ c.stability = some stability ∧
        (stability.parts.snippetMatch = 1 ∨ stability.parts.snippetMatch = 0) ∧
        (PassesFor task.anchor (wanted task.anchor c.tier) node →
          stability.parts.snippetMatch = 1) ∧
        (FewerThan 400000 task.anchor (wanted task.anchor c.tier) node →
          (stability.parts.snippetMatch = 1 →
            PassesFor task.anchor (wanted task.anchor c.tier) node) ∧
          ((∃ snippet, nonEmpty task.anchor.snippet = some snippet ∧
              HasStoredHash task.anchor snippet) →
            (stability.parts.snippetMatch = 1 ↔ HasStoredHash task.anchor node.fragment))) := by
  intro c hc htier
  rcases scored_resolve task deadline c hc with
    hstored | ⟨index, node, hread, hnode, hsnippet, hscore⟩
  · exact absurd hstored htier
  rw [resolve_of_not_timedOut hended] at hc
  have hstability : c.stability =
      some (Stability.rate task.weights (c.evidence task.prefer)) := by
    obtain ⟨d, rfl⟩ := rated_outcome task c hc
    rfl
  have hshare : IsShare c.score := by
    rw [hscore]
    exact (isShare_matchScore _ _ node).round 6
  have hpart : (Stability.rate task.weights (c.evidence task.prefer)).parts.snippetMatch =
      if c.score = 1 then 1 else 0 := snippetMatch_evidence htier hshare task.prefer
  have hiff : (Stability.rate task.weights (c.evidence task.prefer)).parts.snippetMatch = 1 ↔
      c.score = 1 := by
    rw [hpart]
    split
    next hfull => exact iff_of_true rfl hfull
    next hless => exact iff_of_false (by decide) hless
  obtain ⟨hpasses, hback⟩ :=
    round_matchScore_eq_one task.anchor (wanted task.anchor c.tier) node
  rw [← hscore] at hpasses hback
  refine ⟨index, node, _, hread, hnode, hsnippet, hstability, ?_,
    fun h => hiff.mpr (hpasses h), fun hfew => ⟨fun h => hback hfew (hiff.mp h), ?_⟩⟩
  · rw [hpart]
    exact ite_eq_or_eq _ _ _
  · rintro ⟨snippet, hsome, hhash⟩
    rw [hiff, ← passesFor_iff_hasStoredHash hsome hhash]
    exact ⟨hback hfew, hpasses⟩

/-- A paragraph on the recorded line.  The page denies everything, and no full scan is done in
time. -/
def Task.oneParagraph (snippet hash : Option String) : Task Float :=
  { anchor :=
      { id := "a", selector := "p", updatedAt := "", snippet, snippetHash := hash
        range := some ⟨1, 1, [], Int.one_pos, Int.one_pos⟩ }
    source := "<p id=\"a\">x</p>"
    page := fun _ => ⟨0, .answer false none⟩
    budgets := ⟨fun _ => 1⟩
    weights := Settings.Blend.defaultWeights
    clockCost := 2 }

/-- The paragraph with its fragment and its hash stored. -/
def Task.sameParagraph : Task Float :=
  let fragment := "<p id=\"a\">x</p>"
  .oneParagraph (some fragment) (some (Fragment.hash {} fragment))

/-- Fast structural finds the paragraph, and its snippet counts as matched because it has the stored
hash. -/
theorem resolve_matched_sameParagraph :
    (resolve Task.sameParagraph none).timedOut = false ∧
    ∃ c ∈ (resolve Task.sameParagraph none).trace.candidates, c.tier = .fastStructural ∧
      HasStoredHash Task.sameParagraph.anchor "<p id=\"a\">x</p>" ∧
      ∃ stability, c.stability = some stability ∧ stability.parts.snippetMatch = 1 := by
  have hended : (resolve Task.sameParagraph none).timedOut = false := by decide +kernel
  have hlist : (resolve Task.sameParagraph none).trace.candidates.map
        (fun c => (c.tier, c.snippet)) =
      [(.storedSelector, none), (.fastStructural, some "<p id=\"a\">x</p>")] := by
    decide +kernel
  have hmem : (Tier.fastStructural, some "<p id=\"a\">x</p>") ∈
      (resolve Task.sameParagraph none).trace.candidates.map fun c => (c.tier, c.snippet) := by
    rw [hlist]
    decide
  obtain ⟨c, hc, heq⟩ := List.mem_map.mp hmem
  obtain ⟨htier, hsnippet⟩ := Prod.mk.inj heq
  obtain ⟨index, node, stability, -, -, hquoted, hrated, -, -, hlimits⟩ :=
    resolve_matched hended c hc (by rw [htier]; decide)
  have hfragment : "<p id=\"a\">x</p>" = node.fragment :=
    Option.some.inj (hsnippet.symm.trans hquoted)
  have hstored : HasStoredHash Task.sameParagraph.anchor "<p id=\"a\">x</p>" :=
    ⟨_, rfl, hashMatches_hash _ _⟩
  have hshort : (canonical "<p id=\"a\">x</p>").length < 400000 := by decide +kernel
  have hfew : FewerThan 400000 Task.sameParagraph.anchor
      (wanted Task.sameParagraph.anchor c.tier) node := by
    refine ⟨?_, hfragment ▸ hshort, fun snippet hsome => ?_⟩
    · rw [htier]
      decide +kernel
    · rw [← Option.some.inj hsome]
      exact hshort
  have hmatched := (hlimits hfew).2 ⟨"<p id=\"a\">x</p>", rfl, hstored⟩
  exact ⟨hended, c, hc, htier, hstored, stability, hrated, hmatched.mpr (hfragment ▸ hstored)⟩

/-- Nothing is stored of the paragraph but its selector and its line, and its snippet counts as
matched although there is no hash. -/
theorem matched_without_hash :
    (resolve (Task.oneParagraph none none) none).timedOut = false ∧
    ∃ c ∈ (resolve (Task.oneParagraph none none) none).trace.candidates,
      c.tier = .fastStructural ∧ c.snippet = some "<p id=\"a\">x</p>" ∧
      ∃ stability, c.stability = some stability ∧
        ¬(stability.parts.snippetMatch = 1 ↔
          HasStoredHash (Task.oneParagraph none none).anchor "<p id=\"a\">x</p>") := by
  have hlist : (resolve (Task.oneParagraph none none) none).trace.candidates.map
        (fun c => (c.tier, c.snippet, c.stability.map (·.parts.snippetMatch))) =
      [(.storedSelector, none, some 0),
        (.fastStructural, some "<p id=\"a\">x</p>", some 1)] := by
    decide +kernel
  have hmem : (Tier.fastStructural, some "<p id=\"a\">x</p>", some (1 : Float)) ∈
      (resolve (Task.oneParagraph none none) none).trace.candidates.map
        fun c => (c.tier, c.snippet, c.stability.map (·.parts.snippetMatch)) := by
    rw [hlist]
    exact List.mem_cons_of_mem _ (List.mem_singleton.mpr rfl)
  obtain ⟨c, hc, heq⟩ := List.mem_map.mp hmem
  obtain ⟨htier, hrest⟩ := Prod.mk.inj heq
  obtain ⟨hsnippet, hrated⟩ := Prod.mk.inj hrest
  obtain ⟨stability, hstability, hone⟩ := Option.map_eq_some_iff.mp hrated
  refine ⟨by decide +kernel, c, hc, htier, hsnippet, stability, hstability, fun hiff => ?_⟩
  obtain ⟨hash, hnone, -⟩ := hiff.mp hone
  exact absurd hnone (by simp [Task.oneParagraph])

end Mooring.Resolution
