import Mooring.Proofs.Resolution.Offers
import Mooring.Resolution.Resolve

/-!
# What stands in the list of candidates

A run fills its list of candidates in one place per tier.  The first entry is the stored selector;
every later one was found by a searching tier, quotes an element of an index that the indexer handed
out (`Task.Quotes`), and has a selector that no earlier entry has.  That is `Listed`.  A step of a
tier preserves it (`Listed.tierStep`), so the whole search does (`Listed.searchSteps`).
-/

namespace Mooring.Resolution

open Mooring.Decimal Mooring.Markup Mooring.Text

variable {α : Type}

/-! ## Quoting an element -/

/-- The indexer hands out this index of the source, or of the recorded lines of it. -/
def Task.Reads (task : Task α) (index : Index) : Prop :=
  ∃ earlier text lineOffset, (task.indexer earlier text lineOffset).result = .ok index ∧
    ((text = task.source ∧ lineOffset = 0) ∨
      ∃ range, task.anchor.range = some range ∧
        (text, lineOffset) = sliceLines task.source range.first range.last)

/-- The indexer hands out this index of the whole source. -/
def Task.ReadsWhole (task : Task α) (index : Index) : Prop :=
  ∃ earlier, (task.indexer earlier task.source 0).result = .ok index

/-- The indexer hands out this index of the recorded lines. -/
def Task.ReadsLines (task : Task α) (index : Index) : Prop :=
  ∃ range earlier, task.anchor.range = some range ∧
    (task.indexer earlier (sliceLines task.source range.first range.last).1
      (sliceLines task.source range.first range.last).2).result = .ok index

/-- What a tier looks through: fast structural the recorded lines, any other the whole source. -/
def Task.ReadsFor (task : Task α) : Tier → Index → Prop
  | .fastStructural => task.ReadsLines
  | _ => task.ReadsWhole

theorem Task.ReadsWhole.reads {task : Task α} {index : Index} (h : task.ReadsWhole index) :
    task.Reads index := by
  obtain ⟨earlier, hindex⟩ := h
  exact ⟨earlier, _, _, hindex, Or.inl ⟨rfl, rfl⟩⟩

theorem Task.ReadsFor.reads {task : Task α} {tier : Tier} {index : Index}
    (h : task.ReadsFor tier index) : task.Reads index := by
  cases tier with
  | fastStructural =>
    obtain ⟨range, earlier, hrange, hindex⟩ := h
    exact ⟨earlier, _, _, hindex, Or.inr ⟨range, hrange, rfl⟩⟩
  | storedSelector => exact Task.ReadsWhole.reads h
  | attributeMatch => exact Task.ReadsWhole.reads h
  | fullStructural => exact Task.ReadsWhole.reads h

/-- A candidate quotes an element: its fragment, its lines, and the hash of the fragment in the
format of the anchor's hash. -/
structure Task.Quotes (task : Task α) (node : Node) (c : Candidate α) : Prop where
  tier : c.tier ≠ .storedSelector
  hash : c.hash = some (Fragment.hash (.ofStored (task.anchor.snippetHash.getD "")) node.fragment)
  lines : c.lines = some (node.line, node.endLine)
  snippet : c.snippet = some node.fragment

/-- A searching tier can have found the candidate. -/
def Task.Found (task : Task α) (c : Candidate α) : Prop :=
  ∃ index node, task.Reads index ∧ node ∈ index.nodes ∧ task.Quotes node c

/-- What is known of a candidate's place and of the page's answer has no part in what it quotes. -/
theorem Task.Found.congr {task : Task α} {c d : Candidate α} (h : task.Found c)
    (htier : d.tier = c.tier) (hhash : d.hash = c.hash) (hlines : d.lines = c.lines)
    (hsnippet : d.snippet = c.snippet) : task.Found d := by
  obtain ⟨index, node, hread, hmem, hquotes⟩ := h
  exact ⟨index, node, hread, hmem, by rw [htier]; exact hquotes.tier, hhash.trans hquotes.hash,
    hlines.trans hquotes.lines, hsnippet.trans hquotes.snippet⟩

/-! ## The list -/

/-- A list of candidates that begins with the stored selector and goes on with what was found. -/
structure Task.Listed (task : Task α) (stored : Candidate α) (candidates : List (Candidate α)) :
    Prop where
  head : candidates.head? = some stored
  found : ∀ c ∈ candidates.tail, task.Found c
  distinct : (candidates.map (·.selector)).Nodup

/-- A candidate with a new selector goes to the end. -/
theorem nodup_concat {known : List (Candidate α)} {c d : Candidate α}
    (h : (known.map (·.selector)).Nodup)
    (hfresh : ¬known.any (·.selector == c.selector) = true) (hd : d.selector = c.selector) :
    ((known ++ [d]).map (·.selector)).Nodup := by
  rw [List.map_append]
  refine List.nodup_append.mpr ⟨h, by simp, fun a ha b hb hab => hfresh ?_⟩
  obtain rfl : b = d.selector := List.mem_singleton.mp hb
  obtain ⟨e, he, hea⟩ := List.mem_map.mp ha
  exact List.any_eq_true.mpr ⟨e, he, beq_iff_eq.mpr ((hea.trans hab).trans hd)⟩

namespace Task.Listed

variable {task : Task α} {stored : Candidate α}

/-- Adding what was found keeps a list in order. -/
theorem add : ∀ (new known : List (Candidate α)), task.Listed stored known →
    (∀ c ∈ new, task.Found c) → task.Listed stored (addCandidates known new) := by
  intro new
  induction new with
  | nil => intro known h _; exact h
  | cons c rest ih =>
    intro known h hnew
    have hrest := fun d hd => hnew d (List.mem_cons_of_mem c hd)
    rw [addCandidates]
    split
    next => exact ih known h hrest
    next hfresh =>
      -- A new selector goes to the end, and no entry before it has the same one.
      refine ih _ ?_ hrest
      cases known with
      | nil => exact absurd h.head (by simp)
      | cons first more =>
        refine ⟨h.head, fun d hd => ?_, nodup_concat h.distinct hfresh rfl⟩
        rcases List.mem_append.mp hd with hd | hd
        · exact h.found d hd
        · obtain rfl := List.mem_singleton.mp hd
          exact (hnew c (List.mem_cons_self ..)).congr rfl rfl rfl rfl

/-- A searching tier keeps the list in order. -/
theorem tierStep {before : Trace α} (h : task.Listed stored before.candidates) (tier : Tier)
    {work : Work α}
    (hwork : ∀ found, work.result = .ok found → ∀ c ∈ found.candidates, task.Found c) :
    task.Listed stored (tierStep task tier before work).done.candidates := by
  unfold Resolution.tierStep
  dsimp only
  split
  · cases hresult : work.result with
    | error e => exact h
    | ok found => exact h.add found.candidates _ (hwork found hresult)
  · exact h

end Task.Listed

/-! ## What a tier yields -/

variable [Scalar α]

theorem quotes_candidateFor (task : Task α) (selector : String) {tier : Tier}
    (htier : tier ≠ .storedSelector) (score : α) (node : Node) :
    task.Quotes node (candidateFor task.anchor selector tier score node) :=
  ⟨htier, rfl, rfl, rfl⟩

/-- What passes a test that may fail was there before. -/
theorem mem_of_filterAuxM {ε β : Type} {p : β → Except ε Bool} {b : β} :
    ∀ (xs acc ys : List β), xs.filterAuxM p acc = .ok ys → b ∈ ys → b ∈ xs ∨ b ∈ acc := by
  intro xs
  induction xs with
  | nil =>
    intro acc ys h hb
    obtain rfl : acc = ys := Except.ok.inj h
    exact Or.inr hb
  | cons x xs ih =>
    intro acc ys h hb
    rw [List.filterAuxM] at h
    cases hx : p x with
    | error e => rw [hx] at h; exact absurd h (by simp [bind, Except.bind])
    | ok keep =>
      rw [hx] at h
      rcases ih _ ys h hb with hmem | hmem
      · exact Or.inl (List.mem_cons_of_mem _ hmem)
      · cases keep with
        | false => exact Or.inr hmem
        | true =>
          rcases List.mem_cons.mp hmem with rfl | hmem
          · exact Or.inl (List.mem_cons_self ..)
          · exact Or.inr hmem

theorem mem_of_filterM {ε β : Type} {p : β → Except ε Bool} {xs ys : List β}
    (h : xs.filterM p = .ok ys) {b : β} (hb : b ∈ ys) : b ∈ xs := by
  rw [List.filterM] at h
  cases haux : xs.filterAuxM p [] with
  | error e => rw [haux] at h; exact absurd h (by simp [bind, Except.bind])
  | ok kept =>
    rw [haux] at h
    obtain rfl : kept.reverse = ys := Except.ok.inj h
    rcases mem_of_filterAuxM xs [] kept haux (List.mem_reverse.mp hb) with hmem | hmem
    · exact hmem
    · exact absurd hmem (by simp)

theorem bestScored?_mem : ∀ (rs : List (Ranked α)) (r : Ranked α),
    bestScored? rs = some r → r ∈ rs := by
  intro rs
  induction rs with
  | nil => intro r h; simp [bestScored?] at h
  | cons d rest ih =>
    intro r h
    simp only [bestScored?] at h
    split at h
    next best hbest =>
      split at h
      · exact List.mem_cons_of_mem _ (ih r (by rw [hbest]; exact h))
      · rw [Option.some.inj h]
        exact List.mem_cons_self ..
    next =>
      rw [Option.some.inj h]
      exact List.mem_cons_self ..

/-- A ranking scores an element as one is scored of which no features are wanted. -/
theorem score_soughtBy (anchor : Anchor) (node : Node) :
    ((soughtBy anchor).score node : α) = matchScore anchor [] node := by
  unfold Sought.score matchScore featureShare
  rfl

/-- The candidate of a tier is made of one of the index's elements for the anchor, and has the score
that the element has for the anchor and some features. -/
def MadeFrom (anchor : Anchor) (features : List Feature) (index : Index) (tier : Tier)
    (c : Candidate α) : Prop :=
  ∃ node ∈ index.nodes, ∃ selector,
    c = candidateFor anchor selector tier (matchScore anchor features node) node

/-- A tier that wants these features can have made the candidate. -/
def Task.Makes (task : Task α) (features : List Feature) (tier : Tier) (c : Candidate α) : Prop :=
  ∃ index, task.ReadsFor tier index ∧ MadeFrom task.anchor features index tier c

theorem Task.Makes.found {task : Task α} {features : List Feature} {tier : Tier} {c : Candidate α}
    (h : task.Makes features tier c) (htier : tier ≠ .storedSelector) : task.Found c := by
  obtain ⟨index, hread, node, hmem, selector, rfl⟩ := h
  exact ⟨index, node, hread.reads, hmem, quotes_candidateFor task selector htier _ node⟩

/-- Fast structural can have made the candidate: of an element of the recorded lines that the search
by the shape finds. -/
def Task.MakesFast (task : Task α) (shape : Selector.Shape) (c : Candidate α) : Prop :=
  ∃ index, task.ReadsLines index ∧
    ∃ node ∈ index.findByTagAndAttrs shape.tag shape.constraints, ∃ selector,
      c = candidateFor task.anchor selector .fastStructural
        (matchScore task.anchor (shapeFeatures shape) node) node

theorem Task.MakesFast.makes {task : Task α} {shape : Selector.Shape} {c : Candidate α}
    (h : task.MakesFast shape c) : task.Makes (shapeFeatures shape) .fastStructural c := by
  obtain ⟨index, hread, node, hfound, selector, hc⟩ := h
  exact ⟨index, hread, node, (List.mem_filter.mp hfound).1, selector, hc⟩

/-- Fast structural comes up with one candidate at most. -/
theorem fastYield_cases {anchor : Anchor} {shape : Selector.Shape} {range : SourceRange}
    {index : Index} {found : Yield α} (h : fastYield anchor shape range index = .ok found) :
    found.candidates = [] ∨
      ∃ c, found.candidates = [c] ∧
        ∃ node ∈ index.findByTagAndAttrs shape.tag shape.constraints, ∃ selector,
          c = candidateFor anchor selector .fastStructural
            (matchScore anchor (shapeFeatures shape) node) node := by
  unfold fastYield at h
  cases hnodes : (index.findByTagAndAttrs shape.tag shape.constraints).filterM
      fun node => expectedHolds shape.text node.text with
  | error e => rw [hnodes] at h; exact absurd h (by simp [bind, Except.bind])
  | ok nodes =>
    rw [hnodes] at h
    simp only [bind, Except.bind] at h
    split at h
    next => exact Or.inl (by rw [← Except.ok.inj h])
    next best hbest =>
      obtain ⟨node, hnode, rfl⟩ := List.mem_map.mp (bestScored?_mem _ best hbest)
      exact Or.inr ⟨_, by rw [← Except.ok.inj h], node, mem_of_filterM hnodes hnode, _, rfl⟩

/-- The best element so far stays one of the elements. -/
theorem madeFrom_improve {anchor : Anchor} {features : List Feature} {index : Index}
    {selector : String} : ∀ (nodes : List Node) (best : Option (Candidate α)),
      (∀ node ∈ nodes, node ∈ index.nodes) →
      (∀ c, best = some c → MadeFrom anchor features index .attributeMatch c) →
      ∀ c, nodes.foldl (improve anchor features selector) best = some c →
        MadeFrom anchor features index .attributeMatch c := by
  intro nodes
  induction nodes with
  | nil => intro best _ hbest c h; exact hbest c h
  | cons node rest ih =>
    intro best hnodes hbest c h
    -- The best element so far is the old one or this one, and both are in the index.
    refine ih _ (fun d hd => hnodes d (List.mem_cons_of_mem _ hd)) (fun d hd => ?_) c h
    have hnew : MadeFrom anchor features index .attributeMatch
        (candidateFor anchor selector .attributeMatch
          (matchScore (α := α) anchor features node) node) :=
      ⟨node, hnodes node (List.mem_cons_self ..), _, rfl⟩
    unfold improve at hd
    dsimp only at hd
    split at hd
    next before =>
      split at hd
      · rw [← Option.some.inj hd]
        exact hnew
      · exact hbest d hd
    next =>
      rw [← Option.some.inj hd]
      exact hnew

/-- What is found is one candidate for each attribute that has one. -/
theorem candidates_attributeYield (anchor : Anchor) (pairs : List (String × String))
    (index : Index) : (attributeYield (α := α) anchor pairs index).candidates =
      pairs.filterMap (attributeCandidate? anchor
        (pairs.map fun (name, value) => Feature.valued name value) index) := by
  unfold attributeYield
  dsimp only
  split
  next hempty => exact (List.isEmpty_iff.mp hempty).symm
  next => rfl

theorem madeFrom_attributeYield {anchor : Anchor} {pairs : List (String × String)} {index : Index} :
    ∀ c ∈ (attributeYield (α := α) anchor pairs index).candidates,
      MadeFrom anchor (pairs.map fun (name, value) => .valued name value) index
        .attributeMatch c := by
  intro c hc
  rw [candidates_attributeYield] at hc
  obtain ⟨pair, -, hpair⟩ := List.mem_filterMap.mp hc
  exact madeFrom_improve _ none (fun node hnode => (List.mem_filter.mp hnode).1)
    (fun d hd => absurd hd (by simp)) c hpair

theorem madeFrom_keepSimilar {anchor : Anchor} {features : List Feature} {index : Index}
    {expected : Option String} :
    ∀ (ranked : List (Ranked α)) (seen : List String) (kept : List (Candidate α)),
      (∀ r ∈ ranked, r.node ∈ index.nodes ∧ r.score = matchScore anchor features r.node) →
      keepSimilar anchor expected seen ranked = .ok kept →
      ∀ c ∈ kept, MadeFrom anchor features index .fullStructural c := by
  intro ranked
  induction ranked with
  | nil =>
    intro seen kept _ h c hc
    rw [← Except.ok.inj h] at hc
    exact absurd hc (by simp)
  | cons r rest ih =>
    intro seen kept hranked h c hc
    have hrest := fun d hd => hranked d (List.mem_cons_of_mem r hd)
    rcases kept_cases h with rfl | hkept | ⟨selector, more, hmore, rfl⟩
    · exact absurd hc (by simp)
    · exact ih seen kept hrest hkept c hc
    · rcases List.mem_cons.mp hc with rfl | hc
      · obtain ⟨hmem, hscore⟩ := hranked r (List.mem_cons_self ..)
        exact ⟨r.node, hmem, selector, by rw [proposal, hscore]⟩
      · exact ih _ more hrest hmore c hc

theorem madeFrom_fullYield {anchor : Anchor} {features : List Feature} {shape : Selector.Shape}
    {index : Index} {ranked : List (Ranked α)} {found : Yield α}
    (hranked : ∀ r ∈ ranked, r.node ∈ index.nodes ∧ r.score = matchScore anchor features r.node)
    (h : fullYield anchor shape ranked = .ok found) :
    ∀ c ∈ found.candidates, MadeFrom anchor features index .fullStructural c := by
  have hkept := candidates_fullYield anchor shape ranked
  rw [h] at hkept
  exact madeFrom_keepSimilar ranked [] _ hranked hkept.symm

theorem mem_findSimilar {index : Index} {sought : Sought} {reached : Option Nat} :
    ∀ r ∈ (index.findSimilar sought reached : List (Ranked α)),
      r.node ∈ index.nodes ∧ r.score = sought.score r.node := by
  intro r hr
  obtain ⟨node, hnode, rfl⟩ := List.mem_map.mp (List.mem_mergeSort.mp hr)
  cases reached with
  | none => exact ⟨hnode, rfl⟩
  | some n => exact ⟨List.mem_of_mem_take hnode, rfl⟩

/-! ## The searching tiers -/

variable {task : Task α} {shape : Selector.Shape}

theorem fastStructural_cases {earlier : Nat} {found : Yield α}
    (h : (fastStructural task shape earlier).result = .ok found) :
    found.candidates = [] ∨
      ∃ c, found.candidates = [c] ∧ task.MakesFast shape c := by
  unfold fastStructural at h
  split at h
  next => exact Or.inl (by rw [← Except.ok.inj h])
  next range hrange =>
    split at h
    · exact Or.inl (by rw [← Except.ok.inj h])
    · dsimp only at h
      split at h
      · exact Or.inl (by rw [← Except.ok.inj h])
      · cases hindex : (task.indexer earlier (sliceLines task.source range.first range.last).1
            (sliceLines task.source range.first range.last).2).result with
        | error e => rw [hindex] at h; exact absurd h (by simp [Except.bind])
        | ok index =>
          rw [hindex] at h
          have hread : task.ReadsLines index := ⟨range, earlier, hrange, hindex⟩
          rcases fastYield_cases h with hnone | ⟨c, hc, hmade⟩
          · exact Or.inl hnone
          · exact Or.inr ⟨c, hc, index, hread, hmade⟩

theorem makesFast_fastStructural {earlier : Nat} {found : Yield α}
    (h : (fastStructural task shape earlier).result = .ok found) :
    ∀ c ∈ found.candidates, task.MakesFast shape c := by
  intro d hd
  rcases fastStructural_cases h with hnone | ⟨c, hc, hmakes⟩
  · rw [hnone] at hd
    exact absurd hd (by simp)
  · rw [hc] at hd
    rw [List.mem_singleton.mp hd]
    exact hmakes

theorem makes_fastStructural {earlier : Nat} {found : Yield α}
    (h : (fastStructural task shape earlier).result = .ok found) :
    ∀ c ∈ found.candidates, task.Makes (shapeFeatures shape) .fastStructural c :=
  fun c hc => (makesFast_fastStructural h c hc).makes

theorem makes_attributeMatch {node : Option Node} {earlier : Nat} {found : Yield α}
    (h : (attributeMatch task shape node earlier).result = .ok found) :
    ∀ c ∈ found.candidates, task.Makes
      ((stablePairs shape node task.anchor.hint).map fun (name, value) => .valued name value)
      .attributeMatch c := by
  unfold attributeMatch at h
  dsimp only at h
  split at h
  · rw [← Except.ok.inj h]; intro c hc; exact absurd hc (by simp)
  · dsimp only at h
    cases hindex : (task.indexer earlier task.source 0).result with
    | error e => rw [hindex] at h; exact absurd h (by simp [Except.map])
    | ok index =>
      rw [hindex] at h
      obtain rfl := Except.ok.inj h
      intro c hc
      exact ⟨index, ⟨earlier, hindex⟩, madeFrom_attributeYield c hc⟩

theorem reads_attributeMatch {node : Option Node} {earlier : Nat} {index : Index}
    (h : (attributeMatch task shape node earlier).index = some index) : task.ReadsWhole index := by
  unfold attributeMatch at h
  dsimp only at h
  split at h
  · exact absurd h (by simp [Work.idle])
  · dsimp only at h
    cases hindex : (task.indexer earlier task.source 0).result with
    | error e => rw [hindex] at h; exact absurd h (by simp [Except.toOption])
    | ok found =>
      rw [hindex] at h
      obtain rfl := Option.some.inj h
      exact ⟨earlier, hindex⟩

theorem makes_fullStructural {cached : Option Index} {earlier : Nat} {found : Yield α}
    (hcached : ∀ index, cached = some index → task.ReadsWhole index)
    (h : (fullStructural task shape cached earlier).result = .ok found) :
    ∀ c ∈ found.candidates, task.Makes [] .fullStructural c := by
  have hscan : ∀ {index : Index} {reached : Option Nat}, task.ReadsWhole index →
      fullYield task.anchor shape (index.findSimilar (soughtBy task.anchor) reached) = .ok found →
      ∀ c ∈ found.candidates, task.Makes [] .fullStructural c := by
    intro index reached hread hyield c hc
    refine ⟨_, hread, madeFrom_fullYield (fun r hr => ?_) hyield c hc⟩
    obtain ⟨hmem, hscore⟩ := mem_findSimilar r hr
    exact ⟨hmem, hscore.trans (score_soughtBy task.anchor r.node)⟩
  have hidle : ∀ {message : String},
      (Except.ok ⟨[], message⟩ : Except Failure (Yield α)) = .ok found →
      ∀ c ∈ found.candidates, task.Makes [] .fullStructural c := by
    intro message he c hc
    rw [← Except.ok.inj he] at hc
    exact absurd hc (by simp)
  unfold fullStructural at h
  split at h
  · exact hidle h
  · -- The index is the one that attribute match left, or it is made here.
    cases cached with
    | some index =>
      dsimp only at h
      split at h
      · exact hidle h
      · exact hscan (hcached index rfl) h
    | none =>
      dsimp only at h
      cases hindex : (task.indexer earlier task.source 0).result with
      | error e => rw [hindex] at h; exact absurd h (by simp)
      | ok index =>
        rw [hindex] at h
        dsimp only at h
        split at h
        · exact hidle h
        · exact hscan ⟨earlier, hindex⟩ h

/-- The index that attribute match leaves is used only if it came in time. -/
theorem reads_cached {node : Option Node} {earlier : Nat} (index : Index)
    (h : (if (attributeMatch task shape node earlier).inTime task .attributeMatch then
      (attributeMatch task shape node earlier).index else none) = some index) :
    task.ReadsWhole index := by
  split at h
  · exact reads_attributeMatch h
  · exact absurd h (by simp)

/-- **The three tiers keep the list in order.** -/
theorem Task.Listed.searchSteps {stored : Candidate α} {before : Trace α}
    (h : task.Listed stored before.candidates) (node : Option Node) :
    task.Listed stored (lastTrace before (searchSteps task node before)).candidates := by
  refine Task.Listed.tierStep (Task.Listed.tierStep (h.tierStep .fastStructural ?_)
    .attributeMatch ?_) .fullStructural ?_
  · exact fun found h c hc => (makes_fastStructural h c hc).found (by decide)
  · exact fun found h c hc => (makes_attributeMatch h c hc).found (by decide)
  · exact fun found h c hc => (makes_fullStructural reads_cached h c hc).found (by decide)

end Mooring.Resolution
