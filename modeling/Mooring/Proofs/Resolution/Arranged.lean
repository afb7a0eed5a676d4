import Mooring.Proofs.Markup.Ranking
import Mooring.Proofs.Resolution.Soundness

/-!
# The list of candidates is in order

Three searching tiers propose selectors, each may propose the same one again, and each may fail or
run out of time.  The list that comes of it is in order all the same (`Arranged`): every selector
stands in it once, every candidate says its own place, the tiers follow each other, fast structural
has one candidate at most, and every score lies between zero and one.  The page is asked about no
selector twice, and about none but the stored one and those in the list (`resolve_arranged`).

A deadline can strike at any point of a run, so this is said of whatever was recorded up to then.
The invariant of a search is `Task.Searching`.  A tier preserves it (`Searching.tierStep`) because
its candidates come after all of the earlier tiers (`InTiers.append`) and only new selectors are
added (`Arranged.add`).
-/

namespace Mooring.Resolution

open Mooring.Decimal Mooring.Fragment Mooring.Markup

/-! ## Scores -/

theorem isShare_featureShare (features : List Feature) (node : Node) :
    IsShare (featureShare features node) := by
  unfold featureShare
  split
  · exact isShare_zero
  · exact isShare_ratio (List.length_filter_le _ _)

theorem isShare_matchScore (anchor : Anchor) (features : List Feature) (node : Node) :
    IsShare (matchScore anchor features node) := by
  unfold matchScore
  split
  · exact isShare_one
  · split
    · exact isShare_similarity _ _
    · exact isShare_featureShare features node

/-- **What a tier makes has the tier's name and a score between zero and one.** -/
theorem Task.Makes.tier_score {task : Task Float} {features : List Feature} {tier : Tier}
    {c : Candidate Float} (h : task.Makes features tier c) :
    c.tier = tier ∧ 0 ≤ c.score ∧ c.score ≤ 1 := by
  obtain ⟨index, -, node, -, selector, rfl⟩ := h
  exact ⟨rfl, ((isShare_matchScore _ features node).round 6).bounds⟩

/-! ## Lists in order -/

/-- The tiers of some candidates follow each other, and fast structural has one at most. -/
structure InTiers (tiers : List Tier) : Prop where
  ascending : tiers.Pairwise fun a b => a.rank ≤ b.rank
  fast : tiers.count .fastStructural ≤ 1

theorem InTiers.sublist {tiers tiers' : List Tier} (h : InTiers tiers)
    (hsub : tiers'.Sublist tiers) : InTiers tiers' :=
  ⟨h.ascending.sublist hsub, Nat.le_trans (hsub.count_le _) h.fast⟩

/-- A later tier goes to the end. -/
theorem InTiers.append {tiers : List Tier} (h : InTiers tiers) {tier : Tier} {n : Nat}
    (hbefore : ∀ t ∈ tiers, t.rank < tier.rank) (hn : tier = .fastStructural → n ≤ 1) :
    InTiers (tiers ++ List.replicate n tier) := by
  refine ⟨List.pairwise_append.mpr ⟨h.ascending, List.pairwise_replicate.mpr (Or.inr
    (Nat.le_refl _)), fun t ht u hu => ?_⟩, ?_⟩
  · rw [List.eq_of_mem_replicate hu]
    exact Nat.le_of_lt (hbefore t ht)
  · rw [List.count_append, List.count_replicate]
    by_cases hfast : tier = .fastStructural
    · -- Then no earlier tier is fast structural.
      subst hfast
      have hnone : tiers.count .fastStructural = 0 :=
        List.count_eq_zero.mpr fun hmem => Nat.lt_irrefl _ (hbefore _ hmem)
      rw [hnone, if_pos (by decide), Nat.zero_add]
      exact hn rfl
    · rw [if_neg (by simpa using hfast)]
      exact h.fast

/-- A list of candidates in order: each selector stands in it once, each candidate says its own
place, the tiers follow each other, and the scores lie between zero and one. -/
structure Arranged (candidates : List (Candidate Float)) : Prop where
  distinct : (candidates.map (·.selector)).Nodup
  order : ∀ (i : Nat) (c : Candidate Float), candidates[i]? = some c → c.order = i
  tiers : InTiers (candidates.map (·.tier))
  score : ∀ c ∈ candidates, 0 ≤ c.score ∧ c.score ≤ 1

theorem tiers_addCandidates {α : Type} : ∀ new known : List (Candidate α),
    ((addCandidates known new).map (·.tier)).Sublist ((known ++ new).map (·.tier)) := by
  intro new
  induction new with
  | nil => intro known; rw [addCandidates, List.append_nil]
  | cons c rest ih =>
    intro known
    rw [addCandidates]
    split
    · refine (ih known).trans ?_
      rw [List.map_append, List.map_append, List.map_cons]
      exact (List.sublist_cons_self _ _).append_left _
    · refine (ih _).trans ?_
      rw [List.append_assoc, List.map_append, List.map_append, List.map_append]
      exact List.Sublist.refl _

theorem addCandidates_prefix {α : Type} : ∀ new known : List (Candidate α),
    known <+: addCandidates known new := by
  intro new
  induction new with
  | nil => intro known; exact List.prefix_rfl
  | cons c rest ih =>
    intro known
    rw [addCandidates]
    split
    · exact ih known
    · exact (List.prefix_append _ _).trans (ih _)

theorem Arranged.push {known : List (Candidate Float)} {c : Candidate Float} (h : Arranged known)
    (hfresh : ¬known.any (·.selector == c.selector) = true)
    (htiers : InTiers ((known ++ [c]).map (·.tier))) (hscore : 0 ≤ c.score ∧ c.score ≤ 1) :
    Arranged (known ++ [{ c with order := known.length }]) := by
  refine ⟨nodup_concat h.distinct hfresh rfl, fun i d hd => ?_, ?_, fun d hd => ?_⟩
  · rcases Nat.lt_trichotomy i known.length with hlt | rfl | hgt
    · rw [List.getElem?_append_left hlt] at hd
      exact h.order i d hd
    · rw [List.getElem?_concat_length] at hd
      rw [← Option.some.inj hd]
    · rw [List.getElem?_eq_none (by rw [List.length_append]; exact hgt)] at hd
      exact absurd hd (by simp)
  · rw [List.map_append] at htiers ⊢
    exact htiers
  · rcases List.mem_append.mp hd with hd | hd
    · exact h.score d hd
    · rw [List.mem_singleton.mp hd]
      exact hscore

/-- **Adding candidates of later tiers keeps a list in order.** -/
theorem Arranged.add : ∀ new known : List (Candidate Float), Arranged known →
    InTiers ((known ++ new).map (·.tier)) → (∀ c ∈ new, 0 ≤ c.score ∧ c.score ≤ 1) →
    Arranged (addCandidates known new) := by
  intro new
  induction new with
  | nil => intro known h _ _; exact h
  | cons c rest ih =>
    intro known h htiers hscore
    have hrest := fun d hd => hscore d (List.mem_cons_of_mem c hd)
    rw [List.map_append, List.map_cons] at htiers
    rw [addCandidates]
    split
    next =>
      refine ih known h (htiers.sublist ?_) hrest
      rw [List.map_append]
      exact (List.sublist_cons_self _ _).append_left _
    next hfresh =>
      refine ih _ (h.push hfresh (htiers.sublist ?_) (hscore c (List.mem_cons_self ..))) ?_ hrest
      · rw [List.map_append]
        exact ((List.nil_sublist _).cons_cons _).append_left _
      · rw [List.append_assoc, List.map_append, List.map_append]
        exact htiers

/-- A change to candidates that their order does not depend on. -/
structure KeepsPlace (f : Candidate Float → Candidate Float) : Prop where
  selector : ∀ c, (f c).selector = c.selector
  order : ∀ c, (f c).order = c.order
  tier : ∀ c, (f c).tier = c.tier
  score : ∀ c, (f c).score = c.score

theorem KeepsPlace.selectors {f : Candidate Float → Candidate Float} (hf : KeepsPlace f)
    (candidates : List (Candidate Float)) :
    (candidates.map f).map (·.selector) = candidates.map (·.selector) := by
  rw [List.map_map]
  exact List.map_congr_left fun c _ => hf.selector c

theorem Arranged.map {candidates : List (Candidate Float)} (h : Arranged candidates)
    {f : Candidate Float → Candidate Float} (hf : KeepsPlace f) : Arranged (candidates.map f) := by
  have htiers : (candidates.map f).map (·.tier) = candidates.map (·.tier) := by
    rw [List.map_map]
    exact List.map_congr_left fun c _ => hf.tier c
  refine ⟨hf.selectors candidates ▸ h.distinct, fun i d hd => ?_, htiers ▸ h.tiers,
    fun d hd => ?_⟩
  · rw [List.getElem?_map] at hd
    obtain ⟨c, hc, rfl⟩ := Option.map_eq_some_iff.mp hd
    rw [hf.order]
    exact h.order i c hc
  · obtain ⟨c, hc, rfl⟩ := List.mem_map.mp hd
    rw [hf.score]
    exact h.score c hc

theorem keepsPlace_probed (task : Task Float) : KeepsPlace task.probed := by
  have hcases : ∀ c, task.probed c = c ∨ ∃ liveness probeError,
      task.probed c = { c with liveness, probeError } := by
    intro c
    unfold Task.probed
    split
    · exact Or.inl rfl
    · exact Or.inr ⟨_, _, rfl⟩
  constructor <;> intro c <;> rcases hcases c with h | ⟨_, _, h⟩ <;> rw [h]

theorem keepsPlace_rated (weights : Settings.Blend Float) (prefer : List String) :
    KeepsPlace (·.rated weights prefer) :=
  ⟨fun _ => rfl, fun _ => rfl, fun _ => rfl, fun _ => rfl⟩

/-! ## The invariant of a search -/

/-- The record of a search whose tiers up to one are done: the list begins with the stored selector
and is in order, and the page has only been asked about the stored selector. -/
structure Task.Searching (task : Task Float) (tier : Tier) (t : Trace Float) : Prop where
  head : t.candidates.head? = some task.stored
  arranged : Arranged t.candidates
  upTo : ∀ c ∈ t.candidates, c.tier.rank ≤ tier.rank
  probed : t.probed = heard task.anchor.selector task.storedTimeout task.storedVisit

namespace Task.Searching

variable {task : Task Float} {tier : Tier} {t t' : Trace Float}

theorem congr (h : task.Searching tier t) (hcandidates : t'.candidates = t.candidates)
    (hprobed : t'.probed = t.probed) : task.Searching tier t' :=
  ⟨hcandidates ▸ h.head, hcandidates ▸ h.arranged, hcandidates ▸ h.upTo, hprobed.trans h.probed⟩

/-- While a tier is under way the record stays as it is. -/
theorem tierStep_during (h : task.Searching tier t) (next : Tier) (work : Work Float) :
    task.Searching tier (Resolution.tierStep task next t work).during := by
  unfold Resolution.tierStep
  dsimp only
  split
  · exact h.congr rfl rfl
  · exact h.congr rfl rfl

/-- **A tier continues a search**, whether it yields something, fails, or runs out of time. -/
theorem tierStep (h : task.Searching tier t) (next : Tier) (work : Work Float)
    (hnext : tier.rank < next.rank)
    {features : List Feature}
    (hwork : ∀ found, work.result = .ok found → ∀ c ∈ found.candidates, task.Makes features next c)
    (hfast : next = .fastStructural → ∀ found, work.result = .ok found →
      found.candidates.length ≤ 1) :
    task.Searching next (Resolution.tierStep task next t work).done := by
  have hearlier : ∀ c ∈ t.candidates, c.tier.rank < next.rank :=
    fun c hc => Nat.lt_of_le_of_lt (h.upTo c hc) hnext
  have hidle : task.Searching next t :=
    ⟨h.head, h.arranged, fun c hc => Nat.le_of_lt (hearlier c hc), h.probed⟩
  unfold Resolution.tierStep
  dsimp only
  split
  · cases hresult : work.result with
    | error e => exact hidle.congr rfl rfl
    | ok found =>
      have hmakes := fun c hc => (hwork found hresult c hc).tier_score
      have hnew : found.candidates.map (·.tier) =
          List.replicate found.candidates.length next := by
        rw [← List.length_map (·.tier)]
        refine List.eq_replicate_length.mpr fun u hu => ?_
        obtain ⟨c, hc, rfl⟩ := List.mem_map.mp hu
        exact (hmakes c hc).1
      have htiers : InTiers ((t.candidates ++ found.candidates).map (·.tier)) := by
        rw [List.map_append, hnew]
        refine h.arranged.tiers.append (fun u hu => ?_) fun he => hfast he found hresult
        obtain ⟨c, hc, rfl⟩ := List.mem_map.mp hu
        exact hearlier c hc
      refine ⟨?_, h.arranged.add _ _ htiers fun c hc => (hmakes c hc).2, fun c hc => ?_, h.probed⟩
      · obtain ⟨added, hadded⟩ := addCandidates_prefix found.candidates t.candidates
        show (addCandidates t.candidates found.candidates).head? = _
        rw [← hadded, List.head?_append, h.head]
        rfl
      · have hmem := (tiers_addCandidates _ _).subset (List.mem_map_of_mem hc)
        rw [List.map_append, hnew] at hmem
        rcases List.mem_append.mp hmem with hmem | hmem
        · obtain ⟨d, hd, hdc⟩ := List.mem_map.mp hmem
          rw [← hdc]
          exact Nat.le_of_lt (hearlier d hd)
        · rw [List.eq_of_mem_replicate hmem]
  · exact hidle.congr rfl rfl

theorem fastStep (h : task.Searching .storedSelector t) (shape : Selector.Shape) (earlier : Nat) :
    task.Searching .fastStructural
      (Resolution.tierStep task .fastStructural t (fastStructural task shape earlier)).done := by
  refine h.tierStep _ _ (by decide) (fun _ => makes_fastStructural) fun _ found hfound => ?_
  rcases fastStructural_cases hfound with hnone | ⟨c, hc, -⟩
  · rw [hnone]
    exact Nat.zero_le 1
  · rw [hc]
    exact Nat.le_refl 1

theorem attributeStep (h : task.Searching .fastStructural t) (shape : Selector.Shape)
    (node : Option Node) (earlier : Nat) :
    task.Searching .attributeMatch
      (Resolution.tierStep task .attributeMatch t (attributeMatch task shape node earlier)).done :=
  h.tierStep _ _ (by decide) (fun _ => makes_attributeMatch) fun he => absurd he (by decide)

theorem fullStep (h : task.Searching .attributeMatch t) (shape : Selector.Shape)
    {cached : Option Index} (hcached : ∀ index, cached = some index → task.ReadsWhole index)
    (earlier : Nat) :
    task.Searching .fullStructural (Resolution.tierStep task .fullStructural t
      (fullStructural task shape cached earlier)).done :=
  h.tierStep _ _ (by decide) (fun _ => makes_fullStructural hcached) fun he => absurd he (by decide)

/-- **The three searching tiers, one after the other**, and what is recorded while each is under
way. -/
theorem searchSteps (h : task.Searching .storedSelector t) (node : Option Node) :
    task.Searching .fullStructural (lastTrace t (Resolution.searchSteps task node t)) ∧
      ∀ step ∈ Resolution.searchSteps task node t, ∃ tier, task.Searching tier step.during := by
  have hfast := h.fastStep (.ofSelector task.anchor.selector) t.indexed.length
  have hmatch := hfast.attributeStep (.ofSelector task.anchor.selector) node
  refine ⟨(hmatch _).fullStep _ reads_cached _, fun step hstep => ?_⟩
  simp only [Resolution.searchSteps, List.mem_cons, List.not_mem_nil, or_false] at hstep
  rcases hstep with rfl | rfl | rfl
  · exact ⟨_, h.tierStep_during _ _⟩
  · exact ⟨_, hfast.tierStep_during _ _⟩
  · exact ⟨_, (hmatch _).tierStep_during _ _⟩

/-- Indexing the stored fragment continues a search. -/
theorem parseStep (h : task.Searching tier t) {step : Step Float} {node : Option Node}
    (hstep : Resolution.parseStep task t = some (step, node)) :
    task.Searching tier step.during ∧ task.Searching tier step.done := by
  obtain ⟨snippet, -, hparsed⟩ := Option.map_eq_some_iff.mp hstep
  obtain rfl : _ = step := congrArg Prod.fst hparsed
  dsimp only
  split
  · exact ⟨h.congr rfl rfl, h.congr rfl rfl⟩
  · split
    · exact ⟨h.congr rfl rfl, h.congr rfl rfl⟩
    · split <;> exact ⟨h.congr rfl rfl, h.congr rfl rfl⟩

end Task.Searching

/-- Asking about the stored selector begins a search. -/
theorem searching_storedStep (task : Task Float) :
    task.Searching .storedSelector (storedStep task).done := by
  have hlist := storedStep_candidates task
  have hscore : 0 ≤ task.stored.score ∧ task.stored.score ≤ 1 := isShare_one.bounds
  refine ⟨by rw [hlist]; rfl, ?_, fun c hc => ?_, ?_⟩
  · rw [hlist]
    refine ⟨by simp, fun i c hc => ?_, ⟨by simp, by simp [Task.stored, storedCandidate]⟩,
      fun c hc => ?_⟩
    · obtain ⟨rfl, rfl⟩ : i = 0 ∧ task.stored = c := by
        rw [List.getElem?_singleton] at hc
        split at hc
        · exact ⟨‹_›, Option.some.inj hc⟩
        · exact absurd hc (by simp)
      rfl
    · rw [List.mem_singleton.mp hc]
      exact hscore
  · rw [hlist] at hc
    rw [List.mem_singleton.mp hc]
    exact Nat.le_refl _
  · unfold storedStep
    dsimp only
    split <;> rfl

/-- Indexing the stored fragment, or having none, continues a search. -/
theorem searching_parsed (task : Task Float) :
    task.Searching .storedSelector (lastTrace (storedStep task).done
      ((parseStep task (storedStep task).done).map (·.1)).toList) := by
  have hfirst := searching_storedStep task
  cases hstep : parseStep task (storedStep task).done with
  | none => exact hfirst
  | some parsed => exact (hfirst.parseStep hstep).2

/-- A run before the page is asked about all candidates. -/
theorem searching_searched (task : Task Float) : task.Searching .fullStructural task.searched :=
  ((searching_parsed task).searchSteps _).1

/-! ## Asking about all candidates -/

/-- What is said of any record of a run: its list is in order, and the page was asked about no
selector twice, and about none but the stored one and those in the list. -/
structure Task.Orderly (task : Task Float) (candidates : List (Candidate Float))
    (probed : List ProbeCall) : Prop where
  arranged : Arranged candidates
  once : (probed.map (·.selector)).Nodup
  known : ∀ call ∈ probed,
    call.selector = task.anchor.selector ∨ call.selector ∈ candidates.map (·.selector)

/-- The list begins with the stored selector. -/
def Task.Headed (task : Task Float) (candidates : List (Candidate Float)) : Prop :=
  ∃ c, candidates.head? = some c ∧ c.selector = task.anchor.selector ∧ c.tier = .storedSelector

theorem Task.Orderly.map {task : Task Float} {candidates : List (Candidate Float)}
    {probed : List ProbeCall} (h : task.Orderly candidates probed)
    {f : Candidate Float → Candidate Float} (hf : KeepsPlace f) :
    task.Orderly (candidates.map f) probed :=
  ⟨h.arranged.map hf, h.once, hf.selectors candidates ▸ h.known⟩

theorem Task.Headed.map {task : Task Float} {candidates : List (Candidate Float)}
    (h : task.Headed candidates) {f : Candidate Float → Candidate Float} (hf : KeepsPlace f) :
    task.Headed (candidates.map f) := by
  obtain ⟨c, hhead, hselector, htier⟩ := h
  refine ⟨f c, ?_, (hf.selector c).trans hselector, (hf.tier c).trans htier⟩
  rw [List.head?_map, hhead]
  rfl

theorem selectors_heard (selector : String) (timeout : Float) (visit : Visit) :
    ((heard selector timeout visit).map (·.selector)).Sublist [selector] := by
  unfold heard
  split
  · exact List.Sublist.refl _
  · exact List.nil_sublist _

/-- Of the questions to a page about some selectors it heard some, in order. -/
theorem selectors_flatMap_heard (timeout : Float) (visit : String → Visit) :
    ∀ selectors : List String, ((selectors.flatMap fun selector =>
      heard selector timeout (visit selector)).map (·.selector)).Sublist selectors := by
  intro selectors
  induction selectors with
  | nil => exact List.Sublist.refl _
  | cons selector rest ih =>
    rw [List.flatMap_cons, List.map_append]
    exact (selectors_heard selector timeout (visit selector)).append ih

section

variable {task : Task Float} {tier : Tier} {t : Trace Float}

theorem Task.Searching.headed (h : task.Searching tier t) : task.Headed t.candidates :=
  ⟨task.stored, h.head, rfl, rfl⟩

/-- A search asked the page about the stored selector, if at all. -/
theorem Task.Searching.selectors_probed (h : task.Searching tier t) :
    (t.probed.map (·.selector)).Sublist [task.anchor.selector] :=
  h.probed ▸ selectors_heard _ _ _

theorem Task.Searching.orderly (h : task.Searching tier t) :
    task.Orderly t.candidates t.probed := by
  refine ⟨h.arranged, h.selectors_probed.nodup (by simp), fun call hcall => Or.inl ?_⟩
  exact List.mem_singleton.mp (h.selectors_probed.subset (List.mem_map_of_mem hcall))

/-- **Asking about all candidates asks about each listed selector once**, and not about the stored
selector again. -/
theorem Task.Searching.orderly_probeStep (h : task.Searching tier t) :
    task.Orderly t.candidates (probeStep task t).during.probed := by
  have hprobed : (probeStep task t).during.probed = t.probed ++
      ((t.candidates.map (·.selector)).filter (· != task.anchor.selector)).flatMap fun selector =>
        heard selector (task.budgets.ms .probe)
          ((task.page selector).visit (task.budgets.ms .probe)) := by
    unfold probeStep
    dsimp only
    rw [List.flatMap_map]
  have hpending := selectors_flatMap_heard (task.budgets.ms .probe)
    (fun selector => (task.page selector).visit (task.budgets.ms .probe))
    ((t.candidates.map (·.selector)).filter (· != task.anchor.selector))
  rw [hprobed]
  refine ⟨h.arranged, ?_, fun call hcall => ?_⟩
  · rw [List.map_append]
    refine List.nodup_append.mpr ⟨h.orderly.once,
      hpending.nodup (h.arranged.distinct.sublist (List.filter_sublist ..)), ?_⟩
    intro a ha b hb hab
    have hstored := List.mem_singleton.mp (h.selectors_probed.subset ha)
    have hother := (List.mem_filter.mp (hpending.subset hb)).2
    rw [← hab, hstored] at hother
    exact absurd hother (by simp)
  · rcases List.mem_append.mp hcall with hcall | hcall
    · exact h.orderly.known call hcall
    · have hmem := hpending.subset (List.mem_map_of_mem hcall)
      exact Or.inr (List.mem_filter.mp hmem).1

end

/-! ## The whole run -/

theorem probed_searchOutcome (task : Task Float) (t : Trace Float) :
    (searchOutcome task t).trace.probed = t.probed := by
  unfold searchOutcome
  dsimp only
  split <;> rfl

theorem probeStep_probed (task : Task Float) (t : Trace Float) :
    (probeStep task t).done.probed = (probeStep task t).during.probed := by
  unfold probeStep
  dsimp only
  split <;> rfl

/-- **A run that nothing cuts off** ends with a list in order. -/
theorem orderly_outcome (task : Task Float) :
    task.Orderly task.run.outcome.trace.candidates task.run.outcome.trace.probed ∧
      task.Headed task.run.outcome.trace.candidates := by
  have hrated := keepsPlace_rated task.weights task.prefer
  by_cases halive : task.storedVisit.verdict.liveness = .alive
  · have hfirst := searching_storedStep task
    rw [outcome_eq_storedOutcome halive]
    exact ⟨hfirst.orderly.map hrated, hfirst.headed.map hrated⟩
  · have hsearched := searching_searched task
    have hprobed := keepsPlace_probed task
    rw [outcome_of_not_alive halive, (searchOutcome_eq task _).1, probed_searchOutcome,
      probeStep_candidates, probeStep_probed]
    exact ⟨(hsearched.orderly_probeStep.map hprobed).map hrated,
      (hsearched.headed.map hprobed).map hrated⟩

/-- What is recorded while a step after the first one is under way is in order. -/
theorem orderly_during (task : Task Float) :
    ∃ rest, task.run.steps = storedStep task :: rest ∧ ∀ step ∈ rest,
      task.Orderly step.during.candidates step.during.probed ∧
        task.Headed step.during.candidates := by
  have hfirst := searching_storedStep task
  have hsearching : ∀ {tier : Tier} {t : Trace Float}, task.Searching tier t →
      task.Orderly t.candidates t.probed ∧ task.Headed t.candidates :=
    fun h => ⟨h.orderly, h.headed⟩
  unfold Task.run
  dsimp only
  split
  · exact ⟨[], rfl, fun step hstep => absurd hstep (by simp)⟩
  · refine ⟨_, rfl, fun step hstep => ?_⟩
    rcases List.mem_append.mp hstep with hstep | hlast
    · rcases List.mem_append.mp hstep with hparse | htier
      · obtain ⟨parsed, hparsed, rfl⟩ := Option.map_eq_some_iff.mp (Option.mem_toList.mp hparse)
        exact hsearching (hfirst.parseStep hparsed).1
      · obtain ⟨tier, htier⟩ := ((searching_parsed task).searchSteps _).2 step htier
        exact hsearching htier
    · have hsearched := searching_searched task
      rw [List.mem_singleton.mp hlast]
      exact ⟨hsearched.orderly_probeStep, hsearched.headed⟩

/-- A deadline that strikes in a run leaves what was recorded while some step was under way. -/
theorem exists_of_cutOff? {α : Type} {t : Trace α} : ∀ (steps : List (Step α)) (left : Rat),
    cutOff? left steps = some t →
    ∃ step ∈ steps, t.candidates = step.during.candidates ∧ t.probed = step.during.probed := by
  intro steps
  induction steps with
  | nil => intro left h; exact absurd h (by simp [cutOff?])
  | cons step rest ih =>
    intro left h
    rw [cutOff?] at h
    split at h
    · refine ⟨step, List.mem_cons_self .., ?_⟩
      rw [← Option.some.inj h, Step.cutAfter]
      split <;> exact ⟨rfl, rfl⟩
    · obtain ⟨other, hmem, heq⟩ := ih _ h
      exact ⟨other, List.mem_cons_of_mem _ hmem, heq⟩

/-- The first tier comes to its end before the deadline. -/
def Task.FirstTierCompletes {α : Type} (task : Task α) (deadline : Option Float) : Prop :=
  ∀ d, deadline = some d → 0 < millis d ∧ task.storedVisit.cost ≤ millis d

theorem orderly_nil (task : Task Float) {probed : List ProbeCall}
    (h : (probed.map (·.selector)).Sublist [task.anchor.selector]) : task.Orderly [] probed :=
  ⟨⟨by simp, by simp, ⟨by simp, by simp⟩, by simp⟩, h.nodup (by simp), fun call hcall =>
    Or.inl (List.mem_singleton.mp (h.subset (List.mem_map_of_mem hcall)))⟩

theorem not_headed_nil (task : Task Float) : ¬task.Headed [] := by
  rintro ⟨c, hc, -⟩
  exact absurd hc (by simp)

/-- **Whatever a resolution returns is in order**, and its list begins with the stored selector just
if the first tier completes. -/
theorem orderly_resolve (task : Task Float) (deadline : Option Float) :
    task.Orderly (resolve task deadline).trace.candidates (resolve task deadline).trace.probed ∧
      (task.FirstTierCompletes deadline ↔
        task.Headed (resolve task deadline).trace.candidates) := by
  obtain ⟨horderly, hheaded⟩ := orderly_outcome task
  obtain ⟨rest, hsteps, hduring⟩ := orderly_during task
  unfold resolve Run.within
  cases deadline with
  | none => exact ⟨horderly, iff_of_true (fun d hd => absurd hd (by simp)) hheaded⟩
  | some d =>
    have hcompletes : task.FirstTierCompletes (some d) ↔
        0 < millis d ∧ task.storedVisit.cost ≤ millis d := by
      simp [Task.FirstTierCompletes]
    rw [hcompletes]
    dsimp only
    split
    next hpast =>
      exact ⟨orderly_nil task (List.nil_sublist _),
        iff_of_false (fun h => absurd h.1 (not_lt.mpr hpast)) (not_headed_nil task)⟩
    next hahead =>
      rw [hsteps, cutOff?]
      by_cases hcut : millis d < (storedStep task).cost
      · rw [if_pos hcut]
        exact ⟨orderly_nil task (selectors_heard _ _ _),
          iff_of_false (fun h => absurd h.2 (not_le.mpr hcut)) (not_headed_nil task)⟩
      · rw [if_neg hcut]
        have hdone : 0 < millis d ∧ task.storedVisit.cost ≤ millis d :=
          ⟨not_le.mp hahead, not_lt.mp hcut⟩
        cases hrest : cutOff? (millis d - (storedStep task).cost) rest with
        | none => exact ⟨horderly, iff_of_true hdone hheaded⟩
        | some t =>
          obtain ⟨step, hmem, hcandidates, hprobed⟩ := exists_of_cutOff? _ _ hrest
          obtain ⟨hthere, hhead⟩ := hduring step hmem
          rw [← hcandidates, ← hprobed] at hthere
          rw [← hcandidates] at hhead
          exact ⟨hthere, iff_of_true hdone hhead⟩

/-- A resolution whose second tier proposes the stored selector again, and another one; the page
denies both. -/
def Task.proposingTwice : Task Float :=
  { anchor :=
      { id := "a", selector := "[data-testid=\"x\"]", updatedAt := ""
        hint := some { testid := some "x", label := some "go" } }
    source := ""
    page := fun _ => ⟨0, .answer false none⟩
    budgets := ⟨fun _ => 1⟩
    weights := Settings.Blend.defaultWeights
    indexer := fun _ _ _ => ⟨0, .ok { nodes := [
      { tag := "p", attrs := [("data-testid", "x"), ("aria-label", "go")], text := ""
        fragment := "", line := 1, endLine := 1, order := 0, hasChildren := false }] }⟩ }

end Mooring.Resolution
