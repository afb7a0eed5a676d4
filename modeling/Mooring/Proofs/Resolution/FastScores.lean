import Mooring.Proofs.Resolution.Matched
import Mooring.Proofs.Selector.Demands

/-!
# Fast structural scores what it finds

Fast structural looks for the elements that a shape demands, and scores each of them by the share of
the shape's features that it has.  Both are read off the same shape, in different ways: the search
from one table of demands, the score from a list of features in which the names `tag` and `class`
mean the tag and a class.  They agree on every shape none of whose attributes is taken for something
else by the score (`Unmistaken`): what was found has all the features (`holds_of_met`).

So where nothing else is stored the candidate scores one, and if it is alive nothing goes before it:
the stored selector is not alive, and all others come from later tiers (`fastStructural_wins`).  The
exception is a shape that demands a text and nothing else.  A text is no feature, a share of no
features is zero, and the candidate never wins, be it alive or not.
-/

namespace Mooring.Resolution

open Mooring.Decimal Mooring.Markup Mooring.Text

/-! ## Features of what was found -/

/-- No attribute of the shape is mistaken for something else when elements are scored: none is
called `tag`; and what is demanded of `class` is a value of one word, which is a class of the shape
if it has classes. -/
structure Unmistaken (shape : Selector.Shape) : Prop where
  tag : ∀ pair ∈ shape.attrs, pair.1 ≠ "tag"
  classes : ∀ value, ("class", value) ∈ shape.attrs →
    ∃ word, value = some word ∧ words word.toList = [word.toList] ∧
      (shape.classes ≠ [] → word ∈ shape.classes)

/-- The shape demands a text at most. -/
def DemandsText (shape : Selector.Shape) : Prop :=
  { shape with text := none }.isEmpty = true

instance (shape : Selector.Shape) : Decidable (DemandsText shape) :=
  inferInstanceAs (Decidable (_ = true))

section

variable {shape : Selector.Shape} {node : Node}

theorem mem_valued {name : String} {value : Option String} {feature : Feature} :
    feature ∈ (nonEmpty value).toList.map (Feature.valued name) ↔
      ∃ text, value = some text ∧ text ≠ "" ∧ feature = .valued name text := by
  simp only [List.mem_map, Option.mem_toList, nonEmpty, Option.filter_eq_some_iff, bne_iff_ne]
  constructor
  · rintro ⟨text, ⟨hsome, hne⟩, rfl⟩
    exact ⟨text, hsome, by simpa using hne, rfl⟩
  · rintro ⟨text, hsome, hne, rfl⟩
    exact ⟨text, ⟨hsome, by simpa using hne⟩, rfl⟩

/-- A feature that is an attribute with a value. -/
theorem holds_valued {name value : String} (htag : name ≠ "tag") (hclass : name ≠ "class") :
    (Feature.valued name value).holds node = true ↔ node.attrs.get? name = some value := by
  unfold Feature.holds Feature.valued
  dsimp only
  rw [if_neg htag, if_neg hclass, beq_iff_eq]

/-- A demanded value of the class attribute is a class of what was found: it is one word, and the
word is a class of the shape, or is demanded by itself. -/
theorem mem_classes_of_met {value : String} (hplain : Unmistaken shape)
    (hmet : shape.kept.Met node) (hmem : ("class", some value) ∈ shape.attrs) :
    value ∈ node.classes := by
  obtain ⟨word, hword, hone, hknown⟩ := hplain.classes _ hmem
  obtain rfl := Option.some.inj hword
  by_cases hnone : shape.classes = []
  · have hkept : ("class", some value) ∈ shape.kept.attrs :=
      Selector.Shape.mem_kept.mpr ⟨hmem, fun h => h.2 hnone⟩
    have hin := hmet.words value hkept value.toList (hone ▸ List.mem_singleton_self _)
    rwa [String.ofList_toList] at hin
  · exact hmet.classes value (hknown hnone)

/-- A demanded value, the identifier and the role included, is a feature of what was found. -/
theorem holds_required_of_met (hread : shape.WellRead) (hplain : Unmistaken shape)
    (hmet : shape.kept.Met node) {name value : String} (hpair : (name, value) ∈ shape.requiredAttrs) :
    (Feature.valued name value).holds node = true := by
  have hget := Table.get?_of_mem (Selector.Shape.nodup_requiredAttrs hread.nodup) hpair
  rw [Selector.Shape.get?_requiredAttrs hread.nodup] at hget
  split_ifs at hget with hrole hid
  · obtain ⟨rfl, hhas⟩ := hrole
    rw [holds_valued (by decide) (by decide)]
    refine hmet.role value (Option.filter_eq_some_iff.mpr ⟨hget, ?_⟩)
    rwa [hget] at hhas
  · obtain ⟨rfl, hhas⟩ := hid
    rw [holds_valued (by decide) (by decide)]
    refine hmet.elementId value (Option.filter_eq_some_iff.mpr ⟨hget, ?_⟩)
    rwa [hget] at hhas
  · have hmem : (name, some value) ∈ shape.attrs :=
      Table.mem_of_get? (Option.join_eq_some_iff.mp hget)
    by_cases hclass : name = "class"
    · subst hclass
      simp [Feature.holds, Feature.valued, mem_classes_of_met hplain hmet hmem]
    · rw [holds_valued (hplain.tag _ hmem) hclass]
      exact hmet.valued name value
        (Selector.Shape.mem_kept.mpr ⟨hmem, fun h => hclass h.1⟩) hclass

/-- An attribute demanded without a value is a feature of what was found. -/
theorem holds_present_of_met (hplain : Unmistaken shape) (hmet : shape.kept.Met node)
    {name : String} (hmem : (name, none) ∈ shape.attrs) :
    (Feature.mk name none).holds node = true := by
  have htag : name ≠ "tag" := hplain.tag _ hmem
  have hclass : name ≠ "class" := by
    rintro rfl
    obtain ⟨word, hword, -⟩ := hplain.classes _ hmem
    exact absurd hword (by simp)
  unfold Feature.holds
  dsimp only
  rw [if_neg htag, if_neg hclass]
  exact hmet.present name none (Selector.Shape.mem_kept.mpr ⟨hmem, fun h => hclass h.1⟩)

/-- **What meets the part of a shape that a search looks at has all the features of the shape.** -/
theorem holds_of_met (hread : shape.WellRead) (hplain : Unmistaken shape)
    (hmet : shape.kept.Met node) : ∀ feature ∈ shapeFeatures shape, feature.holds node = true := by
  intro feature hfeature
  unfold shapeFeatures at hfeature
  rcases List.mem_append.mp hfeature with hfeature | hclass
  rcases List.mem_append.mp hfeature with hfeature | hpresent
  rcases List.mem_append.mp hfeature with htag | hrequired
  · obtain ⟨tag, hsome, -, rfl⟩ := mem_valued.mp htag
    simp [Feature.holds, Feature.valued, hmet.tag tag hsome]
  · obtain ⟨⟨name, value⟩, hpair, rfl⟩ := List.mem_map.mp hrequired
    exact holds_required_of_met hread hplain hmet hpair
  · obtain ⟨⟨name, value⟩, hpair, rfl⟩ := List.mem_map.mp hpresent
    obtain ⟨hmem, hnone⟩ := List.mem_filter.mp hpair
    obtain rfl : value = none := by simpa using hnone
    exact holds_present_of_met hplain hmet hmem
  · obtain ⟨name, hname, rfl⟩ := List.mem_map.mp hclass
    simp [Feature.holds, Feature.valued, hmet.classes name hname]

theorem put_ne_nil (name value : String) (table : Table String) :
    Table.put name value table ≠ [] := by
  cases table with
  | nil => exact List.cons_ne_nil _ _
  | cons first rest =>
    rw [Table.put]
    split <;> exact List.cons_ne_nil _ _

/-- A shape without attributes, identifier and role requires no values and no names. -/
theorem requires_nothing_iff :
    shape.requiredAttrs = [] ∧ shape.attrs.filter (·.2.isNone) = [] ↔
      shape.attrs = [] ∧ Selector.hasText shape.elementId = false ∧
        Selector.hasText shape.role = false := by
  unfold Selector.Shape.requiredAttrs
  dsimp only
  constructor
  · rintro ⟨hrequired, hpresent⟩
    split at hrequired
    next => exact absurd hrequired (put_ne_nil _ _ _)
    next hrole =>
      split at hrequired
      next => exact absurd hrequired (put_ne_nil _ _ _)
      next hid =>
        refine ⟨List.eq_nil_iff_forall_not_mem.mpr fun pair hpair => ?_, by simpa using hid,
          by simpa using hrole⟩
        obtain ⟨name, value⟩ := pair
        cases value with
        | some value =>
          have hnone := List.filterMap_eq_nil_iff.mp hrequired (name, some value) hpair
          exact absurd hnone (by simp)
        | none =>
          have hmem : (name, none) ∈ shape.attrs.filter (·.2.isNone) :=
            List.mem_filter.mpr ⟨hpair, rfl⟩
          rw [hpresent] at hmem
          exact absurd hmem List.not_mem_nil
  · rintro ⟨hattrs, hid, hrole⟩
    rw [hattrs, hid, hrole]
    exact ⟨rfl, rfl⟩

/-- **Only a shape that demands a text at most has no features.** -/
theorem shapeFeatures_eq_nil_iff : shapeFeatures shape = [] ↔ DemandsText shape := by
  have htag : (nonEmpty shape.tag).toList = [] ↔ Selector.hasText shape.tag = false := by
    cases shape.tag with
    | none => simp [nonEmpty, Selector.hasText]
    | some tag => by_cases h : tag = "" <;> simp [nonEmpty, Selector.hasText, h]
  have hrequires := @requires_nothing_iff shape
  unfold shapeFeatures DemandsText Selector.Shape.isEmpty
  simp only [List.append_eq_nil_iff, List.map_eq_nil_iff, htag, Selector.hasText, Option.any_none,
    Bool.or_false, Bool.not_or, Bool.and_eq_true, Bool.not_eq_true', List.isEmpty_iff,
    Bool.not_not] at hrequires ⊢
  tauto

theorem featureShare_of_met (hread : shape.WellRead) (hplain : Unmistaken shape)
    (hmet : shape.kept.Met node) :
    (featureShare (shapeFeatures shape) node : Float) = if DemandsText shape then 0 else 1 := by
  have hzero : (Scalar.zero : Float) = 0 := by decide
  have hone : (Scalar.one : Float) = 1 := by decide
  unfold featureShare
  by_cases hnone : shapeFeatures shape = []
  · rw [if_pos (List.isEmpty_iff.mpr hnone), if_pos (shapeFeatures_eq_nil_iff.mp hnone), hzero]
  · rw [if_neg (mt List.isEmpty_iff.mp hnone), if_neg (mt shapeFeatures_eq_nil_iff.mpr hnone),
      List.length_filter_eq_length_iff.mpr (holds_of_met hread hplain hmet),
      ratio_self (List.length_pos_iff.mpr hnone), hone]

end

/-! ## The candidate of fast structural -/

section

variable {α : Type} [Scalar α] {task : Task α}

/-- A candidate of fast structural is made of an element of the recorded lines that the search by
the stored selector finds, and it has the element's score. -/
def Task.FoundFast (task : Task α) (c : Candidate α) : Prop :=
  c.tier = .fastStructural → ∃ index node, task.ReadsLines index ∧
    node ∈ index.findByTagAndAttrs (Selector.Shape.ofSelector task.anchor.selector).tag
      (Selector.Shape.ofSelector task.anchor.selector).constraints ∧
    c.snippet = some node.fragment ∧
    c.score = Scalar.round 6 (matchScore task.anchor
      (shapeFeatures (.ofSelector task.anchor.selector)) node)

theorem lasting_foundFast (task : Task α) : Lasting task.FoundFast :=
  fun _ _ _ _ _ h => h

theorem Task.MakesFast.foundFast {c : Candidate α}
    (h : task.MakesFast (.ofSelector task.anchor.selector) c) : task.FoundFast c := by
  obtain ⟨index, hread, node, hfound, selector, rfl⟩ := h
  exact fun _ => ⟨index, node, hread, hfound, rfl, rfl⟩

/-- What another tier makes is no candidate of fast structural. -/
theorem Task.Makes.foundFast {features : List Feature} {tier : Tier} {c : Candidate α}
    (h : task.Makes features tier c) (htier : tier ≠ .fastStructural) : task.FoundFast c := by
  obtain ⟨index, -, node, -, selector, rfl⟩ := h
  exact fun heq => absurd heq htier

/-- **Every candidate of fast structural is an element that the search found.** -/
theorem foundFast_resolve (task : Task α) (deadline : Option Float) :
    ∀ c ∈ (resolve task deadline).trace.candidates, task.FoundFast c := by
  have hstored : task.FoundFast task.stored :=
    fun htier : Tier.storedSelector = .fastStructural => absurd htier (by decide)
  refine holds_resolve (lasting_foundFast task) hstored ?_ deadline
  intro turn hturn found hfound c hc
  rcases mem_turns hturn with rfl | rfl | rfl
  · exact (makesFast_fastStructural hfound c hc).foundFast
  · exact (makes_attributeMatch hfound c hc).foundFast (by decide)
  · exact (makes_fullStructural (fun _ => reads_matchTurn) hfound c hc).foundFast (by decide)

end

/-- The score of a candidate of fast structural where nothing but the selector is stored. -/
theorem score_fast {task : Task Float} {c : Candidate Float} (h : task.FoundFast c)
    (htier : c.tier = .fastStructural) (hsnippet : nonEmpty task.anchor.snippet = none)
    (hhash : nonEmpty task.anchor.snippetHash = none)
    (hplain : Unmistaken (.ofSelector task.anchor.selector)) :
    c.score = if DemandsText (.ofSelector task.anchor.selector) then 0 else 1 := by
  obtain ⟨index, node, -, hnode, -, hscore⟩ := h htier
  have hread := Selector.wellRead_ofSelector task.anchor.selector
  have hmet := (hread.mem_findByTagAndAttrs_iff.mp hnode).2
  have hshare : (matchScore task.anchor
      (shapeFeatures (.ofSelector task.anchor.selector)) node : Float) =
      featureShare (shapeFeatures (.ofSelector task.anchor.selector)) node := by
    unfold matchScore
    rw [hhash, hsnippet]
    rfl
  rw [hscore, hshare, featureShare_of_met hread hplain hmet]
  split
  · decide +kernel
  · decide +kernel

/-! ## Winning -/

namespace Candidate

/-- A candidate that goes before all others, and none of them before it, is the foremost one. -/
theorem foremost?_eq_some {α : Type} [Scalar α] {c : Candidate α} {cs : List (Candidate α)}
    (hmem : c ∈ cs) (h : ∀ d ∈ cs, d = c ∨ c.before d = true ∧ d.before c = false) :
    foremost? cs = some c := by
  induction cs with
  | nil => exact absurd hmem List.not_mem_nil
  | cons d rest ih =>
    obtain ⟨hd, hrest⟩ := List.forall_mem_cons.mp h
    rw [foremost?]
    by_cases hlater : c ∈ rest
    · rw [ih hlater hrest]
      rcases hd with rfl | ⟨hbefore, -⟩
      · dsimp only
        split <;> rfl
      · dsimp only
        rw [if_pos hbefore]
    · obtain rfl : c = d := (List.mem_cons.mp hmem).resolve_right hlater
      cases hbest : foremost? rest with
      | none => rfl
      | some best =>
        have hbest' := foremost?_mem rest best hbest
        obtain ⟨-, hback⟩ := (hrest best hbest').resolve_left fun heq => hlater (heq ▸ hbest')
        dsimp only
        rw [if_neg (by rw [hback]; exact Bool.false_ne_true)]

end Candidate

/-- If the stored selector is not alive, the winner of a run is picked from its list. -/
theorem winner_of_not_alive {α : Type} [Scalar α] {task : Task α}
    (h : task.storedVisit.verdict.liveness ≠ .alive) :
    task.run.outcome.winner = Candidate.winner? task.run.outcome.trace.candidates := by
  obtain ⟨hlist, hwinner⟩ := searchOutcome_eq task (probeStep task task.searched).done
  rw [outcome_of_not_alive h, hlist, hwinner, Candidate.winner?_rated]

section

variable {task : Task Float} {c : Candidate Float}

theorem isShare_score {task : Task Float} {c : Candidate Float} (h : task.Scored c)
    (htier : c.tier ≠ .storedSelector) : IsShare c.score := by
  obtain ⟨index, node, -, -, -, hscore⟩ := h.resolve_left htier
  rw [hscore]
  exact (isShare_matchScore _ _ node).round 6

/-- There is no other candidate of fast structural in a list in order. -/
theorem Arranged.eq_of_fast {candidates : List (Candidate Float)} (h : Arranged candidates)
    {d : Candidate Float} (hc : c ∈ candidates) (hd : d ∈ candidates)
    (hctier : c.tier = .fastStructural) (hdtier : d.tier = .fastStructural) : d = c := by
  by_contra hne
  have hpair : [d, c].Subperm candidates := by
    refine List.subperm_of_subset (by simp [hne]) ?_
    simp [hc, hd]
  have hcount := hpair.countP_le fun e => e.tier == .fastStructural
  have hfast := h.tiers.fast
  rw [List.count, List.countP_map] at hfast
  have htwo : [d, c].countP (fun e => e.tier == .fastStructural) = 2 := by
    simp [hctier, hdtier]
  exact absurd (Nat.le_trans (htwo ▸ hcount) hfast) (by decide)

/-- Where another tier has a candidate, the stored selector is not alive. -/
theorem not_alive_of_mem (hc : c ∈ task.run.outcome.trace.candidates)
    (htier : c.tier ≠ .storedSelector) : task.storedVisit.verdict.liveness ≠ .alive := by
  intro h
  rw [(outcome_of_alive h).1] at hc
  rw [List.mem_singleton.mp hc] at htier
  exact htier rfl

/-- Then no candidate that is alive is the stored selector. -/
theorem tier_of_alive (hstored : task.storedVisit.verdict.liveness ≠ .alive)
    (hc : c ∈ task.run.outcome.trace.candidates) (halive : c.liveness = .alive) :
    c.tier ≠ .storedSelector := by
  intro h
  have hjudged := judged_outcome task c hc
  have hconfirms := hjudged.alive.mp halive
  rw [Task.timeoutOf, if_pos h, hjudged.selector.mp h] at hconfirms
  exact hstored ((visit_alive_iff _ _ _).mpr hconfirms)

/-- No other tier scores more than one. -/
theorem not_one_less (hc : c ∈ task.run.outcome.trace.candidates)
    (htier : c.tier ≠ .storedSelector) : Scalar.less (1 : Float) c.score = false := by
  have hshare := isShare_score (scored_resolve task none c hc) htier
  have hone : (1 : Float) = Scalar.one := by decide
  rw [Bool.eq_false_iff, hone]
  intro hless
  have hlt := (isShare_one.lt_iff hshare).mp (of_decide_eq_true hless)
  have hle : c.score.toBits.toNat ≤ (1 : Float).toBits.toNat := hshare
  rw [hone] at hle
  omega

/-- Of two candidates that are alive, the one of the earlier tier goes before the other, if it scores
no less. -/
theorem before_of_tier {d : Candidate Float} (hc : c.liveness = .alive) (hd : d.liveness = .alive)
    (hscore : Scalar.less c.score d.score = false) (htier : c.tier.rank < d.tier.rank) :
    c.before d = true ∧ d.before c = false := by
  have hconfidence : ∀ {d : Candidate Float}, d.liveness = .alive → d.confidence = d.score := by
    intro d hd
    rw [Candidate.confidence, hd]
  unfold Candidate.before
  rw [hconfidence hc, hconfidence hd, hscore, if_neg Bool.false_ne_true]
  constructor
  · split
    · rfl
    · rw [if_pos (by simpa using Nat.ne_of_lt htier)]
      exact decide_eq_true htier
  · rw [if_neg Bool.false_ne_true]
    split
    · rfl
    · rw [if_pos (by simpa using (Nat.ne_of_lt htier).symm)]
      exact decide_eq_false (Nat.not_lt_of_lt htier)

/-- **A candidate of fast structural that is alive and scores one wins.** -/
theorem fastStructural_wins (hc : c ∈ task.run.outcome.trace.candidates)
    (htier : c.tier = .fastStructural) (hscore : c.score = 1) (halive : c.liveness = .alive) :
    task.run.outcome.winner = some c := by
  have hstored := not_alive_of_mem hc (by rw [htier]; decide)
  have hzero : Scalar.less (Scalar.zero : Float) Scalar.zero = false := by decide
  rw [winner_of_not_alive hstored]
  apply Candidate.foremost?_eq_some
  · refine List.mem_filter.mpr ⟨hc, (Candidate.isContender_iff hzero c).mpr ⟨halive, ?_⟩⟩
    rw [hscore]
    decide
  intro d hd
  obtain ⟨hmem, hcontends⟩ := List.mem_filter.mp hd
  obtain ⟨hdalive, -⟩ := (Candidate.isContender_iff hzero d).mp hcontends
  by_cases hdtier : d.tier = .fastStructural
  · exact .inl ((orderly_outcome task).1.arranged.eq_of_fast hc hmem htier hdtier)
  -- Any other contender is of a later tier, and scores one at most.
  have hdstored := tier_of_alive hstored hmem hdalive
  have hlater : c.tier.rank < d.tier.rank := by
    rw [htier]
    cases h : d.tier with
    | storedSelector => exact absurd h hdstored
    | fastStructural => exact absurd h hdtier
    | attributeMatch => decide
    | fullStructural => decide
  exact .inr (before_of_tier halive hdalive (hscore ▸ not_one_less hmem hdstored) hlater)

/-- A candidate of fast structural that scores nothing does not win. -/
theorem winner_ne_of_zero {deadline : Option Float} (htier : c.tier = .fastStructural)
    (hscore : c.score = 0) : (resolve task deadline).winner ≠ some c := by
  intro hwinner
  rcases resolve_cases task deadline with ⟨-, hnone⟩ | ⟨-, houtcome⟩
  · rw [hnone] at hwinner
    exact absurd hwinner (by simp)
  rw [houtcome] at hwinner
  by_cases hstored : task.storedVisit.verdict.liveness = .alive
  · rw [(outcome_of_alive hstored).2] at hwinner
    rw [← Option.some.inj hwinner] at htier
    have hsame : Tier.storedSelector = .fastStructural := htier
    exact absurd hsame (by decide)
  · rw [winner_of_not_alive hstored] at hwinner
    have hzero : Scalar.less (Scalar.zero : Float) Scalar.zero = false := by decide
    have hcontends := (Candidate.winner?_eq_some hwinner).2
    have hless := ((Candidate.isContender_iff hzero c).mp hcontends).2
    rw [hscore] at hless
    exact absurd hless (by decide)

end

/-- **What fast structural finds scores one and wins if it is alive, unless only a text is
demanded.**  Take a selector none of whose attributes is mistaken for something else by the score.
Every element that the search by its shape finds has all the features, so the share is one; it is
zero if the shape demands nothing but a text.  So if neither a fragment nor a hash is stored, every
candidate of fast structural scores one, and in a resolution that is not cut off it wins if it is
alive; if the selector demands nothing but a text, it scores zero and never wins. -/
theorem fastStructural_scores :
    (∀ (selector : String) (index : Index) (node : Node),
      Unmistaken (.ofSelector selector) →
      node ∈ index.findByTagAndAttrs (Selector.Shape.ofSelector selector).tag
        (Selector.Shape.ofSelector selector).constraints →
      (featureShare (shapeFeatures (.ofSelector selector)) node : Float) =
        if DemandsText (.ofSelector selector) then 0 else 1) ∧
    ∀ (task : Task Float) (deadline : Option Float),
      nonEmpty task.anchor.snippet = none → nonEmpty task.anchor.snippetHash = none →
      Unmistaken (.ofSelector task.anchor.selector) →
      ∀ c ∈ (resolve task deadline).trace.candidates, c.tier = .fastStructural →
        (¬DemandsText (.ofSelector task.anchor.selector) → c.score = 1 ∧
          ((resolve task deadline).timedOut = false → c.liveness = .alive →
            (resolve task deadline).winner = some c)) ∧
        (DemandsText (.ofSelector task.anchor.selector) → c.score = 0 ∧
          (resolve task deadline).winner ≠ some c) := by
  constructor
  · intro selector index node hplain hnode
    have hread := Selector.wellRead_ofSelector selector
    exact featureShare_of_met hread hplain (hread.mem_findByTagAndAttrs_iff.mp hnode).2
  · intro task deadline hsnippet hhash hplain c hc htier
    have hscore := score_fast (foundFast_resolve task deadline c hc) htier hsnippet hhash hplain
    constructor
    · intro hmore
      rw [if_neg hmore] at hscore
      refine ⟨hscore, fun hended halive => ?_⟩
      rw [resolve_of_not_timedOut hended] at hc ⊢
      exact fastStructural_wins hc htier hscore halive
    · intro hnothing
      rw [if_pos hnothing] at hscore
      exact ⟨hscore, winner_ne_of_zero htier hscore⟩

/-- One line of source, of which only a selector is stored; on the page only one selector is
alive. -/
def Task.oneLine (selector source alive : String) : Task Float :=
  { anchor :=
      { id := "a", selector, updatedAt := ""
        range := some ⟨1, 1, [], Int.one_pos, Int.one_pos⟩ }
    source
    page := fun asked => ⟨0, .answer (asked == alive) none⟩
    budgets := ⟨fun _ => 1⟩
    weights := Settings.Blend.defaultWeights
    clockCost := 2 }

/-- A button that is found by its tag, its class and an attribute that it must have. -/
def Task.button : Task Float :=
  .oneLine "button.save[data-testid]" "<button class=\"save\" data-testid=\"go\">x</button>"
    "[data-testid=\"go\"]"

theorem fastStructural_scores_button :
    Unmistaken (.ofSelector Task.button.anchor.selector) ∧
      ¬DemandsText (.ofSelector Task.button.anchor.selector) ∧
      ∃ c ∈ (resolve Task.button none).trace.candidates, c.tier = .fastStructural ∧
        c.liveness = .alive ∧ c.score = 1 ∧ (resolve Task.button none).winner = some c := by
  have hshape : Selector.Shape.ofSelector Task.button.anchor.selector =
      { tag := "button", classes := ["save"], attrs := [("data-testid", none)] } := by
    decide +kernel
  have hplain : Unmistaken (.ofSelector Task.button.anchor.selector) := by
    rw [hshape]
    exact ⟨by simp, by simp⟩
  have hmore : ¬DemandsText (.ofSelector Task.button.anchor.selector) := by
    rw [hshape]
    decide
  have hlist : (resolve Task.button none).trace.candidates.map (fun c => (c.tier, c.liveness)) =
      [(.storedSelector, .dead), (.fastStructural, .alive)] := by
    decide +kernel
  have hmem : (Tier.fastStructural, Liveness.alive) ∈
      (resolve Task.button none).trace.candidates.map fun c => (c.tier, c.liveness) := by
    rw [hlist]
    decide
  obtain ⟨c, hc, heq⟩ := List.mem_map.mp hmem
  obtain ⟨htier, halive⟩ := Prod.mk.inj heq
  obtain ⟨hscore, hwins⟩ :=
    (fastStructural_scores.2 Task.button none rfl rfl hplain c hc htier).1 hmore
  exact ⟨hplain, hmore, c, hc, htier, halive, hscore, hwins (by decide +kernel) halive⟩

/-- A text in bold that only its text is stored of. -/
def Task.boldText : Task Float :=
  .oneLine "text:\"Save\"" "<b id=\"s\">Save</b>" "#s"

/-- The one candidate that is alive has been found by the text that is stored, and it does not
win. -/
theorem fastStructural_loses_text :
    (Selector.Shape.ofSelector Task.boldText.anchor.selector).isEmpty = false ∧
      ∃ c ∈ (resolve Task.boldText none).trace.candidates, c.tier = .fastStructural ∧
        c.liveness = .alive ∧ c.score ≠ 1 ∧ (resolve Task.boldText none).winner = none := by
  have hlist : (resolve Task.boldText none).trace.candidates.map
        (fun c => (c.tier, c.liveness, c.score)) =
      [(.storedSelector, .dead, 1), (.fastStructural, .alive, 0)] := by
    decide +kernel
  have hmem : (Tier.fastStructural, Liveness.alive, (0 : Float)) ∈
      (resolve Task.boldText none).trace.candidates.map fun c => (c.tier, c.liveness, c.score) := by
    rw [hlist]
    exact List.mem_cons_of_mem _ (List.mem_singleton.mpr rfl)
  obtain ⟨c, hc, heq⟩ := List.mem_map.mp hmem
  obtain ⟨htier, hrest⟩ := Prod.mk.inj heq
  obtain ⟨halive, hscore⟩ := Prod.mk.inj hrest
  refine ⟨by decide +kernel, c, hc, htier, halive, ?_, ?_⟩
  · rw [hscore]
    decide
  · have hnone : (resolve Task.boldText none).winner.isSome = false := by decide +kernel
    exact Option.not_isSome_iff_eq_none.mp (by rw [hnone]; exact Bool.false_ne_true)

end Mooring.Resolution
