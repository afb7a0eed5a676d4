import Mathlib.Data.List.MinMax
import Mooring.Proofs.Fragment.Comparison
import Mooring.Proofs.Resolution.Listing
import Mooring.Proofs.Selector.Reading

/-!
# Ties between elements with the same attribute

Attribute match makes one candidate for each durable attribute that some element carries, and of
those that carry it an element that scores best.  An element is compared with the candidate made of
an earlier one, and a candidate has its score rounded.  That does no harm to elements of different
scores: shares of at most sixteen attributes are too far apart (`separated_matchScore`).  But it
decides ties.  The first of the best elements is taken if their score is not rounded down; if it is
rounded down, each of them replaces the one before, and the last one is taken
(`exists_foldl_improve`).  With a stored fragment scores have six places, so that nothing is rounded
and the first one is taken always.
-/

namespace Mooring.Resolution

open Mooring.Decimal Mooring.Markup Mooring.Selector Mooring.Text

/-! ## Selectors tell attributes apart -/

/-- **A selector tells its attribute and the value**, if no equals sign is in the name. -/
theorem attributeSelector_inj {name name' value value' : String} (hname : '=' ∉ name.toList)
    (hname' : '=' ∉ name'.toList)
    (h : attributeSelector name value = attributeSelector name' value') :
    name = name' ∧ value = value' := by
  have hchars := congrArg String.toList h
  rw [toList_attributeSelector, toList_attributeSelector] at hchars
  have hcut := (List.cons.inj hchars).2
  -- The names end where the first equals sign stands.
  have htake (cs rest : List Char) (hcs : '=' ∉ cs) :
      (cs ++ '=' :: rest).takeWhile (· != '=') = cs := by
    have hall : ∀ c ∈ cs, (c != '=') = true :=
      fun c hc => bne_iff_ne.mpr fun he : c = '=' => hcs (he ▸ hc)
    rw [List.takeWhile_append_of_pos hall]
    simp
  have hnames : name.toList = name'.toList := by
    have hsame := congrArg (List.takeWhile (· != '=')) hcut
    rwa [htake _ _ hname, htake _ _ hname'] at hsame
  rw [hnames] at hcut
  have hvalues := (List.cons.inj (List.cons.inj (List.append_cancel_left hcut)).2).2
  exact ⟨String.toList_inj.mp hnames,
    String.toList_inj.mp (escaped_inj (List.append_cancel_right hvalues))⟩

/-! ## The durable attributes -/

theorem distinct_sublist (pairs : List (String × String)) : (distinct pairs).Sublist pairs := by
  induction pairs with
  | nil => exact List.Sublist.refl _
  | cons pair rest ih => exact (List.filter_sublist.trans ih).cons_cons pair

theorem mem_distinct {pair : String × String} {pairs : List (String × String)} :
    pair ∈ distinct pairs ↔ pair ∈ pairs := by
  refine ⟨fun h => (distinct_sublist pairs).subset h, fun h => ?_⟩
  induction pairs with
  | nil => exact h
  | cons first rest ih =>
    rw [distinct]
    by_cases heq : pair = first
    · exact heq ▸ List.mem_cons_self
    · have hrest := ih ((List.mem_cons.mp h).resolve_left heq)
      exact List.mem_cons_of_mem _ (List.mem_filter.mpr ⟨hrest, by simpa using heq⟩)

theorem nodup_distinct (pairs : List (String × String)) : (distinct pairs).Nodup := by
  induction pairs with
  | nil => exact List.nodup_nil
  | cons pair rest ih =>
    refine List.nodup_cons.mpr ⟨fun hmem => ?_, ih.filter _⟩
    exact absurd (List.mem_filter.mp hmem).2 (by simp)

theorem length_named_le (name : String) (value : Option String) :
    (named name value).length ≤ 1 := by
  unfold named
  cases nonEmpty value <;> simp

theorem mem_named {name : String} {value : Option String} {pair : String × String} :
    pair ∈ named name value ↔ pair.1 = name ∧ value = some pair.2 ∧ pair.2 ≠ "" := by
  unfold named nonEmpty
  simp only [List.mem_map, Option.mem_toList, Option.filter_eq_some_iff]
  constructor
  · rintro ⟨found, ⟨rfl, hne⟩, rfl⟩
    exact ⟨rfl, rfl, by simpa using hne⟩
  · rintro ⟨rfl, rfl, hne⟩
    exact ⟨pair.2, ⟨rfl, by simpa using hne⟩, rfl⟩

theorem length_flatMap_named_le (names : List String) (value : String → Option String) :
    (names.flatMap fun name => named name (value name)).length ≤ names.length := by
  induction names with
  | nil => exact Nat.le_refl _
  | cons name rest ih =>
    have := length_named_le name (value name)
    rw [List.flatMap_cons, List.length_append, List.length_cons]
    omega

section Stable

variable {shape : Shape} {stored : Option Node} {hint : Option Hint} {pair : String × String}

/-- There are at most sixteen: seven from the selector, seven from the stored fragment and two from
the hints. -/
theorem length_stablePairs_le (shape : Shape) (stored : Option Node) (hint : Option Hint) :
    (stablePairs shape stored hint).length ≤ 16 := by
  have hshape := length_flatMap_named_le stableAttributeNames fun name =>
    (shape.attrs.get? name).join
  have hstored : (stored.toList.flatMap fun node => stableAttributes node.attrs).length ≤ 7 := by
    cases stored with
    | none => exact Nat.zero_le _
    | some node =>
      rw [Option.toList_some, List.flatMap_singleton]
      exact List.length_filterMap_le _ _
  have htestid := length_named_le "data-testid" (hint.bind (·.testid))
  have hlabel := length_named_le "aria-label" (hint.bind (·.label))
  have hnames : stableAttributeNames.length = 7 := by decide
  refine (distinct_sublist _).length_le.trans ?_
  simp only [List.length_append]
  omega

theorem name_of_mem_stablePairs (h : pair ∈ stablePairs shape stored hint) :
    pair.1 ∈ stableAttributeNames := by
  have hmem := mem_distinct.mp h
  simp only [List.mem_append] at hmem
  rcases hmem with ((hshape | hstored) | htestid) | hlabel
  · obtain ⟨name, hname, hpair⟩ := List.mem_flatMap.mp hshape
    rwa [(mem_named.mp hpair).1]
  · obtain ⟨node, -, hpair⟩ := List.mem_flatMap.mp hstored
    obtain ⟨name, hname, hfound⟩ := List.mem_filterMap.mp hpair
    obtain ⟨value, -, rfl⟩ := Option.map_eq_some_iff.mp hfound
    exact hname
  · rw [(mem_named.mp htestid).1]
    decide
  · rw [(mem_named.mp hlabel).1]
    decide

/-- **Different attributes have different selectors.** -/
theorem attributeSelector_inj_of_mem {other : String × String}
    (hpair : pair ∈ stablePairs shape stored hint) (hother : other ∈ stablePairs shape stored hint)
    (h : attributeSelector pair.1 pair.2 = attributeSelector other.1 other.2) : pair = other := by
  have hplain : ∀ name ∈ stableAttributeNames, '=' ∉ name.toList := by decide
  obtain ⟨hname, hvalue⟩ := attributeSelector_inj (hplain _ (name_of_mem_stablePairs hpair))
    (hplain _ (name_of_mem_stablePairs hother)) h
  exact Prod.ext hname hvalue

end Stable

/-! ## Scores that rounding keeps apart -/

/-- Rounding does not bring different scores together. -/
def Separated (score : Node → Rat) : Prop :=
  ∀ a b, score a < score b →
    Scalar.round 6 (score a) < score b ∧ score a ≤ Scalar.round 6 (score b)

section Scores

variable {anchor : Anchor} {features : List Feature}

/-- Against a stored fragment, a score has six places. -/
theorem round_matchScore (h : (nonEmpty anchor.snippet).isSome) (node : Node) :
    Scalar.round 6 (matchScore anchor features node : Rat) = matchScore anchor features node := by
  obtain ⟨snippet, hsnippet⟩ := Option.isSome_iff_exists.mp h
  unfold matchScore
  rw [hsnippet]
  split
  · exact round_one_exact 6
  · exact Fragment.round_similarity_exact snippet node.fragment

/-- Without one, a score is a share of the attributes. -/
theorem matchScore_share (hfeatures : features ≠ []) (h : nonEmpty anchor.snippet = none)
    (node : Node) : ∃ k : Nat, (matchScore anchor features node : Rat) = k / features.length := by
  have hlength : (features.length : Rat) ≠ 0 := by
    exact_mod_cast (List.length_pos_iff.mpr hfeatures).ne'
  unfold matchScore
  rw [h]
  split
  · exact ⟨features.length, by rw [one_eq, div_self hlength]⟩
  · refine ⟨(features.filter (·.holds node)).length, ?_⟩
    rw [featureShare, if_neg (by rwa [List.isEmpty_iff]), ratio_eq_div]

/-- **Scores are separated**, with sixteen attributes at most. -/
theorem separated_matchScore (hfeatures : features ≠ []) (hfew : features.length ≤ 16) :
    Separated (matchScore anchor features) := by
  intro a b hless
  cases hsnippet : nonEmpty anchor.snippet with
  | some snippet =>
    have hsome : (nonEmpty anchor.snippet).isSome := by rw [hsnippet]; rfl
    rw [round_matchScore hsome, round_matchScore hsome]
    exact ⟨hless, hless.le⟩
  | none =>
    obtain ⟨k, hk⟩ := matchScore_share hfeatures hsnippet a
    obtain ⟨m, hm⟩ := matchScore_share hfeatures hsnippet b
    have hlength : (0 : Rat) < features.length := by
      exact_mod_cast List.length_pos_iff.mpr hfeatures
    have hstep : (1 : Rat) / 16 ≤ matchScore anchor features b - matchScore anchor features a := by
      rw [hk, hm, div_lt_div_iff_of_pos_right hlength] at hless
      have hnext : (1 : Rat) ≤ m - k := by
        have : k + 1 ≤ m := by exact_mod_cast hless
        have : (k : Rat) + 1 ≤ m := by exact_mod_cast this
        linarith
      have hfew : (features.length : Rat) ≤ 16 := by exact_mod_cast hfew
      rw [hk, hm, ← sub_div]
      exact div_le_div₀ (by linarith) hnext hlength hfew
    have ha := abs_le.mp (abs_round_sub_le (matchScore anchor features a) 6)
    have hb := abs_le.mp (abs_round_sub_le (matchScore anchor features b) 6)
    constructor <;> norm_num at ha hb <;> linarith

end Scores

/-! ## The element that is taken -/

section Chosen

variable {anchor : Anchor} {features : List Feature} {selector : String} {nodes : List Node}
  {score : Node → Rat}

/-- The element that ties are resolved to: the first of the best ones, or the last of them if their
score is rounded down. -/
structure Chosen (score : Node → Rat) (nodes : List Node) (chosen : Node) : Prop where
  best : ∀ node ∈ nodes, score node ≤ score chosen
  first : score chosen ≤ Scalar.round 6 (score chosen) → nodes.argmax score = some chosen
  last : Scalar.round 6 (score chosen) < score chosen → nodes.reverse.argmax score = some chosen

theorem Chosen.singleton (score : Node → Rat) (node : Node) : Chosen score [node] node where
  best _ hmem := (List.mem_singleton.mp hmem ▸ le_refl _)
  first _ := rfl
  last _ := rfl

/-- A later element replaces the chosen one if it scores more than that is rounded to. -/
theorem Chosen.replaced {chosen node : Node} (hscore : Separated score)
    (h : Chosen score nodes chosen) (hmore : Scalar.round 6 (score chosen) < score node) :
    Chosen score (nodes ++ [node]) node := by
  have hle : score chosen ≤ score node :=
    not_lt.mp fun hless => not_le_of_gt hmore (hscore _ _ hless).2
  have hbest : ∀ other ∈ nodes, score other ≤ score node :=
    fun other hmem => (h.best other hmem).trans hle
  refine ⟨fun other hmem => ?_, fun hup => ?_, fun hdown => ?_⟩
  · rcases List.mem_append.mp hmem with hmem | hmem
    · exact hbest other hmem
    · rw [List.mem_singleton.mp hmem]
  · -- It is not rounded down, so it scores more than the chosen one does.
    have hless : score chosen < score node :=
      lt_of_le_of_ne hle fun hsame => not_le_of_gt hmore (hsame ▸ hup)
    rw [List.argmax_concat]
    cases hfirst : nodes.argmax score with
    | none => rfl
    | some first => exact if_pos ((h.best first (List.argmax_mem hfirst)).trans_lt hless)
  · rw [List.reverse_append, List.reverse_singleton, List.singleton_append, List.argmax_cons]
    cases hlast : nodes.reverse.argmax score with
    | none => rfl
    | some last =>
      exact if_neg (not_lt.mpr (hbest last (List.mem_reverse.mp (List.argmax_mem hlast))))

/-- Else the chosen one stays. -/
theorem Chosen.stays {chosen node : Node} (hscore : Separated score)
    (h : Chosen score nodes chosen) (hmore : ¬Scalar.round 6 (score chosen) < score node) :
    Chosen score (nodes ++ [node]) chosen := by
  have hle : score node ≤ score chosen := not_lt.mp fun hless => hmore (hscore _ _ hless).1
  refine ⟨fun other hmem => ?_, fun hup => ?_, fun hdown => ?_⟩
  · rcases List.mem_append.mp hmem with hmem | hmem
    · exact h.best other hmem
    · rwa [List.mem_singleton.mp hmem]
  · rw [List.argmax_concat, h.first hup]
    exact if_neg (not_lt.mpr hle)
  · rw [List.reverse_append, List.reverse_singleton, List.singleton_append, List.argmax_cons,
      h.last hdown]
    exact if_pos ((not_lt.mp hmore).trans_lt hdown)

/-- **The candidate is made of the chosen element.** -/
theorem exists_foldl_improve (hscore : Separated (matchScore anchor features)) (hne : nodes ≠ []) :
    ∃ chosen, Chosen (matchScore anchor features) nodes chosen ∧
      nodes.foldl (improve anchor features selector) none = some (candidateFor anchor selector
        .attributeMatch (matchScore anchor features chosen : Rat) chosen) := by
  induction nodes using List.reverseRecOn with
  | nil => exact absurd rfl hne
  | append_singleton nodes node ih =>
    rw [List.foldl_append, List.foldl_cons, List.foldl_nil]
    rcases eq_or_ne nodes [] with rfl | hnodes
    · exact ⟨node, Chosen.singleton _ node, rfl⟩
    · obtain ⟨chosen, hchosen, hfold⟩ := ih hnodes
      rw [hfold]
      by_cases hmore : Scalar.round 6 (matchScore anchor features chosen) <
          (matchScore anchor features node : Rat)
      · exact ⟨node, hchosen.replaced hscore hmore, if_pos (decide_eq_true hmore)⟩
      · exact ⟨chosen, hchosen.stays hscore hmore, if_neg (mt of_decide_eq_true hmore)⟩

end Chosen

/-! ## The tier -/

section Tier

variable {anchor : Anchor} {features : List Feature} {index : Index} {pair : String × String}

/-- An attribute that is carried has a candidate, made of the chosen element. -/
theorem exists_attributeCandidate (hscore : Separated (matchScore anchor features))
    (hcarried : index.findByAttribute pair.1 pair.2 ≠ []) :
    ∃ chosen, Chosen (matchScore anchor features) (index.findByAttribute pair.1 pair.2) chosen ∧
      attributeCandidate? anchor features index pair = some (candidateFor anchor
        (attributeSelector pair.1 pair.2) .attributeMatch
        (matchScore anchor features chosen : Rat) chosen) :=
  exists_foldl_improve hscore hcarried

theorem selector_of_attributeCandidate (hscore : Separated (matchScore anchor features))
    {c : Candidate Rat} (h : attributeCandidate? anchor features index pair = some c) :
    c.selector = attributeSelector pair.1 pair.2 := by
  rcases eq_or_ne (index.findByAttribute pair.1 pair.2) [] with hnone | hcarried
  · rw [attributeCandidate?, hnone] at h
    exact absurd h (by simp)
  · obtain ⟨chosen, -, hchosen⟩ := exists_attributeCandidate hscore hcarried
    rw [← Option.some.inj (hchosen.symm.trans h)]
    rfl

/-- One of several things, each of which there is once, is found by its mark alone. -/
theorem filter_filterMap_eq {β γ : Type} {f : β → Option γ} {p : γ → Bool} {items : List β}
    {item : β} {value : γ} (hnodup : items.Nodup) (hmem : item ∈ items)
    (hitem : f item = some value) (hvalue : p value = true)
    (hothers : ∀ other ∈ items, ∀ c, f other = some c → p c = true → other = item) :
    (items.filterMap f).filter p = [value] := by
  obtain ⟨front, back, rfl⟩ := List.append_of_mem hmem
  have hmark : ∀ other ∈ front ++ back, (f other).filter p = none := by
    intro other hother
    refine Option.filter_eq_none_iff.mpr fun c hc hp => ?_
    have hsame := hothers other (by simp only [List.mem_append, List.mem_cons] at hother ⊢; tauto)
      c hc hp
    rw [hsame] at hother
    exact (List.nodup_cons.mp (List.nodup_middle.mp hnodup)).1 hother
  have hnone : ∀ part : List β, (∀ other ∈ part, other ∈ front ++ back) →
      part.filterMap (fun other => (f other).filter p) = [] :=
    fun part hpart => List.filterMap_eq_nil_iff.mpr fun other hmem => hmark other (hpart other hmem)
  rw [List.filter_filterMap, List.filterMap_append, List.filterMap_cons,
    hnone front fun _ => List.mem_append_left _, hnone back fun _ => List.mem_append_right _, hitem,
    Option.filter_some, if_pos hvalue]
  rfl

/-- **An attribute that is carried has exactly one candidate, and ties go by document order**, to
the first of the best elements, if their score is not rounded down.  If it is, they go to the last
one.  With a stored fragment they always go to the first. -/
theorem attributeMatch_resolves_ties (task : Task Rat) (shape : Shape) (stored : Option Node)
    (earlier : Nat) (hindex : (task.indexer earlier task.source 0).result = .ok index)
    (hpair : pair ∈ stablePairs shape stored task.anchor.hint)
    (hcarried : index.findByAttribute pair.1 pair.2 ≠ []) :
    let features := (stablePairs shape stored task.anchor.hint).map fun (name, value) =>
      Feature.valued name value
    let score : Node → Rat := matchScore task.anchor features
    let selector := attributeSelector pair.1 pair.2
    let carriers := index.findByAttribute pair.1 pair.2
    ∃ found chosen, (attributeMatch task shape stored earlier).result = .ok found ∧
      found.candidates.filter (·.selector == selector) =
        [candidateFor task.anchor selector .attributeMatch (score chosen) chosen] ∧
      Chosen score carriers chosen ∧
      ((nonEmpty task.anchor.snippet).isSome → carriers.argmax score = some chosen) := by
  intro features score selector carriers
  have hpairs : stablePairs shape stored task.anchor.hint ≠ [] := List.ne_nil_of_mem hpair
  have hfew : features.length ≤ 16 :=
    (List.length_map _).trans_le (length_stablePairs_le shape stored task.anchor.hint)
  have hscore : Separated score :=
    separated_matchScore (mt List.map_eq_nil_iff.mp hpairs) hfew
  obtain ⟨chosen, hchosen, hcandidate⟩ := exists_attributeCandidate hscore hcarried
  have hyield : (attributeMatch task shape stored earlier).result =
      .ok (attributeYield task.anchor (stablePairs shape stored task.anchor.hint) index) := by
    unfold attributeMatch
    rw [if_neg (by rwa [List.isEmpty_iff])]
    dsimp only
    rw [hindex]
    rfl
  refine ⟨_, chosen, hyield, ?_, hchosen, fun hsnippet => hchosen.first ?_⟩
  · rw [candidates_attributeYield]
    refine filter_filterMap_eq (nodup_distinct _) hpair hcandidate (beq_self_eq_true _) ?_
    intro other hother c hc hselector
    rw [selector_of_attributeCandidate hscore hc, beq_iff_eq] at hselector
    exact attributeSelector_inj_of_mem hother hpair hselector
  · exact (round_matchScore hsnippet chosen).ge

/-- Two elements with the same test id, which is one of three attributes that are looked for. -/
def Task.sameTestId : Task Rat :=
  { anchor :=
      { id := "a", selector := "[data-testid=\"a\"][name=\"b\"]", updatedAt := ""
        hint := some { label := some "c" } }
    source := "<p data-testid=\"a\">x</p>\n<b data-testid=\"a\">y</b>"
    page := fun _ => ⟨0, .answer false none⟩
    budgets := ⟨fun _ => 1⟩
    weights := Settings.Blend.defaultWeights }

/-- The shape of its stored selector. -/
def sameTestIdShape : Shape :=
  Shape.ofSelector Task.sameTestId.anchor.selector

/-- How the elements score. -/
def sameTestIdScore : Node → Rat :=
  matchScore Task.sameTestId.anchor
    ((stablePairs sameTestIdShape none Task.sameTestId.anchor.hint).map fun (name, value) =>
      Feature.valued name value)

/-- The test id has one candidate, made of one of the best elements. -/
theorem attributeMatch_resolves_ties_testid :
    let carriers := (Index.ofSource Task.sameTestId.source).findByAttribute "data-testid" "a"
    ("data-testid", "a") ∈ stablePairs sameTestIdShape none Task.sameTestId.anchor.hint ∧
    carriers ≠ [] ∧
    ∃ found chosen, (attributeMatch Task.sameTestId sameTestIdShape none 0).result = .ok found ∧
      found.candidates.filter (·.selector == attributeSelector "data-testid" "a") =
        [candidateFor Task.sameTestId.anchor (attributeSelector "data-testid" "a") .attributeMatch
          (sameTestIdScore chosen) chosen] ∧
      Chosen sameTestIdScore carriers chosen := by
  intro carriers
  have hpair : ("data-testid", "a") ∈
      stablePairs sameTestIdShape none Task.sameTestId.anchor.hint := by decide +kernel
  have hlength : carriers.length = 2 := by decide +kernel
  have hcarried : carriers ≠ [] := by
    intro hnone
    rw [hnone] at hlength
    exact absurd hlength (by decide)
  obtain ⟨found, chosen, hfound, hone, hchosen, -⟩ :=
    attributeMatch_resolves_ties Task.sameTestId sameTestIdShape none 0 rfl hpair hcarried
  exact ⟨hpair, hcarried, found, chosen, hfound, hone, hchosen⟩

/-- Both elements have one of three attributes, and one third is rounded down: the second element is
taken although the first one is as good. -/
theorem attributeMatch_takes_last : ∃ found,
    (attributeMatch Task.sameTestId sameTestIdShape none 0).result = .ok found ∧
      found.candidates.map (fun c => (c.selector, c.snippet)) =
        [("[data-testid=\"a\"]", some "<b data-testid=\"a\">y</b>")] ∧
      ((Index.ofSource Task.sameTestId.source).findByAttribute "data-testid" "a").map (fun node =>
          (node.fragment, sameTestIdScore node)) =
        [("<p data-testid=\"a\">x</p>", 1 / 3), ("<b data-testid=\"a\">y</b>", 1 / 3)] :=
  ⟨_, rfl, by decide +kernel, by decide +kernel⟩

end Tier

end Mooring.Resolution
