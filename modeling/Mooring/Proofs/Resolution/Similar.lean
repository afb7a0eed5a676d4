import Mooring.Proofs.Fragment.Similarity
import Mooring.Proofs.Markup.Ranking
import Mooring.Proofs.Pattern.Expected
import Mooring.Proofs.Resolution.Offers

/-!
# Full structural keeps the best

Full structural goes through a ranking from the top and decides for each element whether to stop, to
pass it over or to keep it.  What comes of it is a simple thing (`KeepsBest`): first all elements
with a perfect score, then so many of the similar ones with the expected text as are missing to
five, each with a selector that none before it has.  A ranking descends, so its elements with a
perfect score are in front of all others; the two parts are gone through one after the other
(`keepSimilar_exact`, `keepSimilar_similar`).

There is one exception (`Stuck`).  An expected text that goes beyond a limit of the patterns makes
the tier fail as soon as it is looked for, and the elements with a perfect score, of which no text
is asked, are lost with it.
-/

namespace Mooring.Resolution

open Mooring.Decimal Mooring.Markup Mooring.Text

/-! ## Descending rankings -/

/-- Scores are shares of six places, and no later one is greater. -/
structure Descends (ranked : List (Ranked Float)) : Prop where
  shares : ∀ r ∈ ranked, IsShare r.score
  places : ∀ r ∈ ranked, Scalar.round 6 r.score = r.score
  sorted : ranked.Pairwise fun a b => b.score ≤ a.score

theorem Descends.sublist {ranked ranked' : List (Ranked Float)} (h : Descends ranked)
    (hsub : ranked'.Sublist ranked) : Descends ranked' where
  shares r hr := h.shares r (hsub.subset hr)
  places r hr := h.places r (hsub.subset hr)
  sorted := h.sorted.sublist hsub

theorem Descends.tail {r : Ranked Float} {rest : List (Ranked Float)} (h : Descends (r :: rest)) :
    Descends rest :=
  h.sublist (List.sublist_cons_self r rest)

theorem Descends.le_first {r s : Ranked Float} {rest : List (Ranked Float)}
    (h : Descends (r :: rest)) (hs : s ∈ r :: rest) : s.score ≤ r.score := by
  rcases List.mem_cons.mp hs with rfl | hmem
  · exact (h.shares s List.mem_cons_self).le_refl
  · exact (List.pairwise_cons.mp h.sorted).1 s hmem

theorem descends_rank (sought : Sought) (nodes : List Node) : Descends (sought.rank nodes) where
  shares _ hr := sought.isShare_of_mem_rank nodes hr
  places _ hr := by
    rw [(sought.eq_scored nodes hr).1]
    exact round_sought sought _
  sorted := sought.pairwise_score_rank nodes

/-- What scores no less than something above a bound is above it. -/
theorem atMost_of_le {least x y : Float} (hleast : IsShare least) (hx : IsShare x) (hy : IsShare y)
    (hle : x ≤ y) (h : Scalar.atMost least x = true) : Scalar.atMost least y = true :=
  decide_eq_true (hleast.le_trans hx hy (of_decide_eq_true h) hle)

section First

variable {anchor : Anchor} {selector : String}

/-- A new selector is offered, by an element that scores no less. -/
theorem exists_offer {r : Ranked Float} {ranked : List (Ranked Float)} (taken : List String)
    (hdescends : Descends ranked) (hr : r ∈ ranked)
    (hselector : selectorFor? anchor r.node = some selector) (htaken : selector ∉ taken) :
    ∃ first, (selector, first) ∈ offers anchor taken ranked ∧ r.score ≤ first.score := by
  induction ranked generalizing taken with
  | nil => exact absurd hr List.not_mem_nil
  | cons s rest ih =>
    have hrest := hdescends.tail
    cases hnew : newSelector? anchor taken s with
    | none =>
      rw [offers_old hnew]
      refine ih taken hrest (List.mem_of_ne_of_mem ?_ hr) htaken
      rintro rfl
      rw [newSelector?_eq_some.mpr ⟨hselector, htaken⟩] at hnew
      exact absurd hnew (by simp)
    | some other =>
      rw [offers_new hnew]
      rcases eq_or_ne other selector with rfl | hne
      · exact ⟨s, List.mem_cons_self, hdescends.le_first hr⟩
      · have hlater : r ≠ s := by
          rintro rfl
          exact hne (Option.some.inj ((newSelector?_eq_some.mp hnew).1.symm.trans hselector))
        obtain ⟨first, hfirst, hscore⟩ := ih (other :: taken) hrest
          (List.mem_of_ne_of_mem hlater hr) (by simp [hne.symm, htaken])
        exact ⟨first, List.mem_cons_of_mem _ hfirst, hscore⟩

end First

/-! ## Elements that are similar -/

section Similar

variable {anchor : Anchor} {expected : Option String} {seen : List String}
  {r : Ranked Float} {back ranking : List (Ranked Float)}

/-- The element is similar enough. -/
def isSimilar (r : Ranked Float) : Bool :=
  Scalar.atMost (Scalar.hundredths minSimilarity) r.score

/-- The text has what is expected; no text has what cannot be looked for. -/
def hasExpected (expected : Option String) (text : String) : Bool :=
  match expectedHolds expected text with
  | .ok found => found
  | .error _ => false

/-- The element is worth keeping: its score is perfect, or it is similar and has the expected
text. -/
def isAdmissible (expected : Option String) (r : Ranked Float) : Bool :=
  isExact r || (isSimilar r && hasExpected expected r.node.text)

theorem isShare_least : IsShare (Scalar.hundredths minSimilarity) :=
  isShare_ratio (by decide)

theorem stopsAt_eq (hexact : isExact r = false) (hshare : IsShare r.score) :
    stopsAt seen r = (!isSimilar r || maxSimilar ≤ seen.length) := by
  have hless : Scalar.less r.score (Scalar.hundredths minSimilarity) = !isSimilar r := by
    rw [Bool.eq_iff_iff, Bool.not_eq_true']
    refine decide_eq_true_iff.trans (Iff.trans ?_ decide_eq_false_iff_not.symm)
    rw [hshare.lt_iff isShare_least, isShare_least.le_iff hshare, Nat.not_le]
  rw [stopsAt, hexact, hless]
  rfl

/-- If the tier does not stop at an element, that is similar, and there is not enough yet. -/
theorem similar_of_goes (hexact : isExact r = false) (hshare : IsShare r.score)
    (hgo : stopsAt seen r = false) : isSimilar r = true ∧ seen.length < maxSimilar := by
  rw [stopsAt_eq hexact hshare, Bool.or_eq_false_iff, Bool.not_eq_false',
    decide_eq_false_iff_not] at hgo
  exact ⟨hgo.1, Nat.lt_of_not_le hgo.2⟩

/-- If the tier stops at an element, there is enough already, or no more element is similar. -/
theorem enough_or_dissimilar (hdescends : Descends (r :: back)) (hexact : isExact r = false)
    (hstop : stopsAt seen r = true) :
    maxSimilar ≤ seen.length ∨ ∀ s ∈ r :: back, isSimilar s = false := by
  have hshare := hdescends.shares r List.mem_cons_self
  rw [stopsAt_eq hexact hshare, Bool.or_eq_true, Bool.not_eq_true', decide_eq_true_iff] at hstop
  refine hstop.symm.imp_right fun hdissimilar s hs => Bool.eq_false_iff.mpr fun hsimilar => ?_
  have hfirst : isSimilar r = true := atMost_of_le isShare_least (hdescends.shares s hs) hshare
    (hdescends.le_first hs) hsimilar
  rw [hfirst] at hdissimilar
  exact absurd hdissimilar (by simp)

/-- Then nothing more is taken. -/
theorem take_offers_eq_nil {taken : List String} (hinexact : ∀ r ∈ back, isExact r = false)
    (h : maxSimilar ≤ seen.length ∨ ∀ r ∈ back, isSimilar r = false) :
    (offers anchor taken (back.filter (isAdmissible expected))).take
      (maxSimilar - seen.length) = [] := by
  rcases h with henough | hdissimilar
  · rw [Nat.sub_eq_zero_of_le henough, List.take_zero]
  · have hnone : back.filter (isAdmissible expected) = [] := by
      refine List.filter_eq_nil_iff.mpr fun r hr => ?_
      rw [isAdmissible, hinexact r hr, hdissimilar r hr]
      exact Bool.false_ne_true
    rw [hnone]
    exact List.take_nil

/-- Of the elements below a perfect score those are kept that are worth it, until there are
enough. -/
theorem keepSimilar_similar
    (hlooked : ∀ text, expectedHolds expected text = .ok (hasExpected expected text))
    (hdescends : Descends back) (hinexact : ∀ r ∈ back, isExact r = false) (seen : List String) :
    keepSimilar anchor expected seen back =
      .ok (((offers anchor seen (back.filter (isAdmissible expected))).take
        (maxSimilar - seen.length)).map (proposal anchor)) := by
  induction back generalizing seen with
  | nil => rw [List.filter_nil, offers, List.take_nil]; rfl
  | cons r rest ih =>
    have hexact := hinexact r List.mem_cons_self
    have hrest := ih hdescends.tail fun s hs => hinexact s (List.mem_cons_of_mem r hs)
    by_cases hstop : stopsAt seen r = true
    · rw [keepSimilar_stop hstop,
        take_offers_eq_nil hinexact (enough_or_dissimilar hdescends hexact hstop)]
      rfl
    · have hgo := Bool.not_eq_true _ ▸ hstop
      have htext : textAdmits expected r = .ok (hasExpected expected r.node.text) := by
        rw [textAdmits, hexact]
        exact hlooked _
      obtain ⟨hsimilar, hfew⟩ := similar_of_goes hexact (hdescends.shares r List.mem_cons_self) hgo
      have hadmissible : isAdmissible expected r = hasExpected expected r.node.text := by
        rw [isAdmissible, hexact, hsimilar]
        rfl
      rw [List.filter_cons, hadmissible]
      cases hhas : hasExpected expected r.node.text with
      | false => exact (keepSimilar_pass hgo (hhas ▸ htext)).trans (hrest seen)
      | true =>
        rw [hhas] at htext
        cases hnew : newSelector? anchor seen r with
        | none =>
          rw [if_pos rfl, offers_old hnew]
          exact (keepSimilar_old hgo htext hnew).trans (hrest seen)
        | some selector =>
          have hroom : maxSimilar - seen.length = maxSimilar - (selector :: seen).length + 1 := by
            rw [List.length_cons]
            omega
          rw [keepSimilar_new hgo htext hnew, if_pos rfl, offers_new hnew, hroom,
            List.take_succ_cons, hrest]
          rfl

/-- Nothing is looked at if there is enough already, or if no element is similar. -/
theorem keepSimilar_idle (hdescends : Descends back) (hinexact : ∀ r ∈ back, isExact r = false)
    (h : maxSimilar ≤ seen.length ∨ ∀ r ∈ back, isSimilar r = false) :
    keepSimilar anchor expected seen back = .ok [] := by
  cases back with
  | nil => rfl
  | cons r rest =>
    refine keepSimilar_stop ?_
    rw [stopsAt_eq (hinexact r List.mem_cons_self) (hdescends.shares r List.mem_cons_self),
      Bool.or_eq_true, Bool.not_eq_true', decide_eq_true_iff]
    exact h.symm.imp_left fun hdissimilar => hdissimilar r List.mem_cons_self

/-- **The first similar element asks for the text**, and if that cannot be looked for, nothing is
kept at all. -/
theorem keepSimilar_stuck {e : Failure} (hfails : ∀ text, expectedHolds expected text = .error e)
    (hdescends : Descends back) (hinexact : ∀ r ∈ back, isExact r = false)
    (hfew : seen.length < maxSimilar) (hsimilar : ∃ r ∈ back, isSimilar r = true) :
    keepSimilar anchor expected seen back = .error e := by
  obtain ⟨s, hs, hsimilar⟩ := hsimilar
  cases back with
  | nil => exact absurd hs List.not_mem_nil
  | cons r rest =>
    have hexact := hinexact r List.mem_cons_self
    have hgo : stopsAt seen r = false := by
      refine Bool.eq_false_iff.mpr fun hstop => ?_
      rcases enough_or_dissimilar hdescends hexact hstop with henough | hdissimilar
      · exact Nat.not_le.mpr hfew henough
      · rw [hdissimilar s hs] at hsimilar
        exact absurd hsimilar (by simp)
    have htext : textAdmits expected r = .error e := by
      rw [textAdmits, hexact]
      exact hfails _
    exact keepSimilar_error hgo htext

end Similar

/-! ## What is kept of a ranking -/

section Kept

variable (anchor : Anchor) (expected : Option String) (ranking : List (Ranked Float))

/-- The elements with a perfect score, one for each selector. -/
def perfectOffers : List (String × Ranked Float) :=
  offers anchor [] (ranking.filter isExact)

/-- The other admissible elements, one for each further selector. -/
def contenders : List (String × Ranked Float) :=
  offers anchor ((perfectOffers anchor ranking).map (·.1))
    (ranking.filter fun r => !isExact r && isAdmissible expected r)

/-- The first of them: so many as are missing to five. -/
def otherOffers : List (String × Ranked Float) :=
  (contenders anchor expected ranking).take (maxSimilar - (perfectOffers anchor ranking).length)

/-- Perfect elements first, then others. -/
def bestOffers : List (String × Ranked Float) :=
  perfectOffers anchor ranking ++ otherOffers anchor expected ranking

/-- **The best of a ranking are kept.** -/
structure KeepsBest (kept : List (Candidate Float)) : Prop where
  exactly : kept = (bestOffers anchor expected ranking).map (proposal anchor)
  inOrder : ((bestOffers anchor expected ranking).map (·.2)).Sublist ranking
  distinct : (kept.map (·.selector)).Nodup
  descending : kept.Pairwise fun c d => d.score ≤ c.score
  similar : ∀ c ∈ kept, Scalar.hundredths minSimilarity ≤ c.score
  /-- If an admissible element with a new selector is left out, there is enough that is no worse. -/
  full : ∀ r ∈ ranking, isAdmissible expected r = true → ∀ selector,
    selectorFor? anchor r.node = some selector → selector ∉ kept.map (·.selector) →
    maxSimilar ≤ kept.length ∧ ∀ c ∈ kept, r.score ≤ c.score

/-- The expected text has to be looked for, and cannot be: it goes beyond a limit, there are too few
perfect elements, and another one is similar. -/
structure Stuck (overload : Pattern.Overload) : Prop where
  exceeds : ∃ text, nonEmpty expected = some text ∧ Pattern.Exceeds text overload
  few : (perfectOffers anchor ranking).length < maxSimilar
  similar : ∃ r ∈ ranking, isExact r = false ∧ isSimilar r = true

variable {anchor expected ranking}

theorem expectedHolds_of_exceeds {overload : Pattern.Overload}
    (h : ∃ text, nonEmpty expected = some text ∧ Pattern.Exceeds text overload) (text : String) :
    expectedHolds expected text = .error (.raised overload.message) := by
  obtain ⟨wanted, hwanted, hexceeds⟩ := h
  rw [expectedHolds, hwanted]
  dsimp only
  rw [Pattern.textMatches_of_exceeds hexceeds]
  rfl

theorem expectedHolds_cases (expected : Option String) :
    (∀ text, expectedHolds expected text = .ok (hasExpected expected text)) ∨
      ∃ overload text, nonEmpty expected = some text ∧ Pattern.Exceeds text overload := by
  cases hexpected : nonEmpty expected with
  | none => exact Or.inl fun text => by rw [hasExpected, expectedHolds, hexpected]
  | some wanted =>
    rcases Pattern.textMatches_cases wanted with ⟨holds, hholds⟩ | ⟨overload, hexceeds⟩
    · refine Or.inl fun text => ?_
      rw [hasExpected, expectedHolds, hexpected]
      dsimp only
      rw [hholds]
      rfl
    · exact Or.inr ⟨overload, wanted, rfl, hexceeds⟩

/-- A ranking is its perfect elements and the others behind them. -/
theorem filter_append_filter (hdescends : Descends ranking) :
    ranking.filter isExact ++ ranking.filter (fun r => !isExact r) = ranking := by
  induction ranking with
  | nil => rfl
  | cons r rest ih =>
    have hrest := ih hdescends.tail
    cases hexact : isExact r with
    | true => rw [List.filter_cons_of_pos hexact, List.filter_cons_of_neg (by simp [hexact]),
        List.cons_append, hrest]
    | false =>
      have hnone : (r :: rest).filter isExact = [] := by
        refine List.filter_eq_nil_iff.mpr fun s hs hperfect => ?_
        have hfirst : isExact r = true := atMost_of_le isShare_one (hdescends.shares s hs)
          (hdescends.shares r List.mem_cons_self) (hdescends.le_first hs) hperfect
        rw [hexact] at hfirst
        exact absurd hfirst (by simp)
      rw [hnone, List.nil_append]
      refine List.filter_eq_self.mpr fun s hs => Bool.not_eq_true' _ ▸ ?_
      exact Bool.eq_false_iff.mpr (List.filter_eq_nil_iff.mp hnone s hs)

/-- The elements below a perfect score. -/
theorem inexact_of_mem {r : Ranked Float} (hr : r ∈ ranking.filter fun r => !isExact r) :
    r ∈ ranking ∧ isExact r = false :=
  ⟨(List.mem_filter.mp hr).1, by simpa using (List.mem_filter.mp hr).2⟩

theorem keepSimilar_eq (hdescends : Descends ranking) :
    keepSimilar anchor expected [] ranking =
      (keepSimilar anchor expected ((perfectOffers anchor ranking).map (·.1)).reverse
        (ranking.filter fun r => !isExact r)).map
        ((perfectOffers anchor ranking).map (proposal anchor) ++ ·) := by
  conv => lhs; rw [← filter_append_filter hdescends]
  rw [keepSimilar_exact (fun r hr => (List.mem_filter.mp hr).2), List.append_nil]
  rfl

/-- The otherOffers, as they are found on the way through a ranking. -/
theorem others_eq : otherOffers anchor expected ranking =
    (offers anchor ((perfectOffers anchor ranking).map (·.1)).reverse
      ((ranking.filter fun r => !isExact r).filter (isAdmissible expected))).take
      (maxSimilar - ((perfectOffers anchor ranking).map (·.1)).reverse.length) := by
  have hfilter : (ranking.filter fun r => !isExact r).filter (isAdmissible expected) =
      ranking.filter fun r => !isExact r && isAdmissible expected r := by
    rw [List.filter_filter]
    exact List.filter_congr fun r _ => Bool.and_comm _ _
  rw [otherOffers, contenders, hfilter,
    offers_congr _ ((perfectOffers anchor ranking).map (·.1)).reverse
      (fun selector => List.mem_reverse.symm), List.length_reverse, List.length_map]

/-- **A tier that is not stuck keeps the best.** -/
theorem keepSimilar_eq_best (hdescends : Descends ranking)
    (hfree : ∀ overload, ¬Stuck anchor expected ranking overload) :
    keepSimilar anchor expected [] ranking =
      .ok ((bestOffers anchor expected ranking).map (proposal anchor)) := by
  have hback := hdescends.sublist (List.filter_sublist (p := fun r => !isExact r))
  have hinexact : ∀ r ∈ ranking.filter fun r => !isExact r, isExact r = false :=
    fun r hr => (inexact_of_mem hr).2
  rw [keepSimilar_eq hdescends, bestOffers, List.map_append, others_eq]
  rcases expectedHolds_cases expected with hlooked | ⟨overload, hexceeds⟩
  · rw [keepSimilar_similar hlooked hback hinexact]
    rfl
  · have hidle : maxSimilar ≤ ((perfectOffers anchor ranking).map (·.1)).reverse.length ∨
        ∀ r ∈ ranking.filter fun r => !isExact r, isSimilar r = false := by
      by_contra hstuck
      rw [not_or, Nat.not_le, List.length_reverse, List.length_map] at hstuck
      obtain ⟨hfew, hstuck⟩ := hstuck
      push Not at hstuck
      obtain ⟨r, hr, hsimilar⟩ := hstuck
      exact hfree overload ⟨hexceeds, hfew, r, (inexact_of_mem hr).1, (inexact_of_mem hr).2,
        Bool.not_eq_false _ ▸ hsimilar⟩
    rw [keepSimilar_idle hback hinexact hidle, take_offers_eq_nil hinexact hidle]
    rfl

/-- **A tier that is stuck keeps nothing.** -/
theorem Stuck.keepSimilar {overload : Pattern.Overload} (hdescends : Descends ranking)
    (h : Stuck anchor expected ranking overload) :
    keepSimilar anchor expected [] ranking = .error (.raised overload.message) := by
  obtain ⟨r, hr, hexact, hsimilar⟩ := h.similar
  rw [keepSimilar_eq hdescends, keepSimilar_stuck (expectedHolds_of_exceeds h.exceeds)
    (hdescends.sublist List.filter_sublist) (fun r hr => (inexact_of_mem hr).2)
    (by rw [List.length_reverse, List.length_map]; exact h.few)
    ⟨r, List.mem_filter.mpr ⟨hr, by rw [hexact]; rfl⟩, hsimilar⟩]
  rfl

theorem mem_best {offer : String × Ranked Float} (h : offer ∈ bestOffers anchor expected ranking) :
    offer.2 ∈ ranking ∧ isAdmissible expected offer.2 = true := by
  rcases List.mem_append.mp h with hperfect | hother
  · obtain ⟨hmem, hexact⟩ := List.mem_filter.mp (mem_offers hperfect).1
    exact ⟨hmem, by rw [isAdmissible, hexact]; rfl⟩
  · obtain ⟨hmem, hkeep⟩ := List.mem_filter.mp (mem_offers (List.mem_of_mem_take hother)).1
    exact ⟨hmem, (Bool.and_eq_true_iff.mp hkeep).2⟩

theorem length_perfect_le : (perfectOffers anchor ranking).length ≤ ranking.length := by
  have hsub : ((perfectOffers anchor ranking).map (·.2)).Sublist ranking :=
    (offers_sublist [] _).trans List.filter_sublist
  rw [← List.length_map (·.2)]
  exact hsub.length_le

theorem contenders_sublist (anchor : Anchor) (expected : Option String) :
    ((contenders anchor expected ranking).map (·.2)).Sublist ranking :=
  (offers_sublist _ _).trans List.filter_sublist

theorem best_sublist (anchor : Anchor) (expected : Option String) (hdescends : Descends ranking) :
    ((bestOffers anchor expected ranking).map (·.2)).Sublist ranking := by
  have hothers : ((otherOffers anchor expected ranking).map (·.2)).Sublist
      (ranking.filter fun r => !isExact r) := by
    refine ((List.take_sublist _ _).map _).trans ((offers_sublist _ _).trans ?_)
    exact List.monotone_filter_right _ fun r hkeep => (Bool.and_eq_true_iff.mp hkeep).1
  rw [bestOffers, List.map_append]
  conv => rhs; rw [← filter_append_filter hdescends]
  exact (offers_sublist _ _).append hothers

theorem nodup_best : ((bestOffers anchor expected ranking).map (·.1)).Nodup := by
  rw [bestOffers, List.map_append]
  refine List.nodup_append'.mpr ⟨nodup_offers _ _,
    (nodup_offers _ _).sublist ((List.take_sublist _ _).map _), ?_⟩
  intro selector hperfect hother
  obtain ⟨offer, hoffer, rfl⟩ := List.mem_map.mp hother
  exact (mem_offers (List.mem_of_mem_take hoffer)).2 hperfect

theorem map_score_best (hdescends : Descends ranking) :
    ((bestOffers anchor expected ranking).map (proposal anchor)).map (·.score) =
      (bestOffers anchor expected ranking).map (·.2.score) := by
  rw [List.map_map]
  exact List.map_congr_left fun offer hoffer => hdescends.places _ (mem_best hoffer).1

/-- The selector of a perfect element is kept. -/
theorem mem_perfect (hdescends : Descends ranking) {r : Ranked Float} (hr : r ∈ ranking)
    (hexact : isExact r = true) {selector : String}
    (hselector : selectorFor? anchor r.node = some selector) :
    selector ∈ (perfectOffers anchor ranking).map (·.1) := by
  obtain ⟨first, hfirst, -⟩ := exists_offer [] (hdescends.sublist List.filter_sublist)
    (List.mem_filter.mpr ⟨hr, hexact⟩) hselector List.not_mem_nil
  exact List.mem_map_of_mem (f := (·.1)) hfirst

/-- What is behind the others scores no more than any of them. -/
theorem score_le_of_behind (hdescends : Descends ranking) {offer late : String × Ranked Float}
    (hoffer : offer ∈ otherOffers anchor expected ranking)
    (hlate : late ∈ (contenders anchor expected ranking).drop
      (maxSimilar - (perfectOffers anchor ranking).length)) :
    late.2.score ≤ offer.2.score := by
  have hsorted := (hdescends.sublist (contenders_sublist anchor expected)).sorted
  rw [List.pairwise_map, ← List.take_append_drop
    (maxSimilar - (perfectOffers anchor ranking).length)
    (contenders anchor expected ranking)] at hsorted
  exact (List.pairwise_append.mp hsorted).2.2 offer hoffer late hlate

/-- The selector of an admissible element is kept, or it is offered behind those that are kept, by
an element that scores no less. -/
theorem kept_or_behind (hdescends : Descends ranking) {r : Ranked Float} (hr : r ∈ ranking)
    (hadmissible : isAdmissible expected r = true) {selector : String}
    (hselector : selectorFor? anchor r.node = some selector) :
    selector ∈ (bestOffers anchor expected ranking).map (·.1) ∨
      ∃ late ∈ (contenders anchor expected ranking).drop
        (maxSimilar - (perfectOffers anchor ranking).length), r.score ≤ late.2.score := by
  rw [bestOffers, List.map_append, List.mem_append]
  by_cases hperfect : selector ∈ (perfectOffers anchor ranking).map (·.1)
  · exact Or.inl (Or.inl hperfect)
  · have hinexact : isExact r = false :=
      Bool.eq_false_iff.mpr fun hexact => hperfect (mem_perfect hdescends hr hexact hselector)
    obtain ⟨first, hfirst, hscore⟩ := exists_offer ((perfectOffers anchor ranking).map (·.1))
      (hdescends.sublist
        (List.filter_sublist (p := fun r => !isExact r && isAdmissible expected r)))
      (List.mem_filter.mpr ⟨hr, by rw [hinexact, hadmissible]; rfl⟩) hselector hperfect
    change (selector, first) ∈ contenders anchor expected ranking at hfirst
    rw [← List.take_append_drop (maxSimilar - (perfectOffers anchor ranking).length)
      (contenders anchor expected ranking)] at hfirst
    rcases List.mem_append.mp hfirst with htaken | hbehind
    · exact Or.inl (Or.inr (List.mem_map_of_mem (f := (·.1)) htaken))
    · exact Or.inr ⟨_, hbehind, hscore⟩

/-- An admissible element with a new selector is left out only if there are enough. -/
theorem full_best (hdescends : Descends ranking) {r : Ranked Float} (hr : r ∈ ranking)
    (hadmissible : isAdmissible expected r = true) {selector : String}
    (hselector : selectorFor? anchor r.node = some selector)
    (hnew : selector ∉ (bestOffers anchor expected ranking).map (·.1)) :
    maxSimilar ≤ (bestOffers anchor expected ranking).length ∧
      ∀ offer ∈ bestOffers anchor expected ranking, r.score ≤ offer.2.score := by
  obtain ⟨late, hlate, hscore⟩ :=
    (kept_or_behind hdescends hr hadmissible hselector).resolve_left hnew
  refine ⟨?_, fun offer hoffer => ?_⟩
  · have hmore := List.length_pos_of_mem hlate
    rw [List.length_drop] at hmore
    rw [bestOffers, List.length_append, otherOffers, List.length_take]
    omega
  · have hshare := hdescends.shares r hr
    have hshare' := hdescends.shares _ (mem_best hoffer).1
    rcases List.mem_append.mp hoffer with hperfect | hother
    · exact hshare.le_trans isShare_one hshare' hshare.bounds.2
        (of_decide_eq_true (List.mem_filter.mp (mem_offers hperfect).1).2)
    · have hmem := (List.mem_filter.mp (mem_offers (List.mem_of_mem_drop hlate)).1).1
      exact hshare.le_trans (hdescends.shares _ hmem) hshare' hscore
        (score_le_of_behind hdescends hother hlate)

/-- **The best are kept**: that is what a tier that is not stuck does. -/
theorem keepsBest (hdescends : Descends ranking) :
    KeepsBest anchor expected ranking
      ((bestOffers anchor expected ranking).map (proposal anchor)) where
  exactly := rfl
  inOrder := best_sublist anchor expected hdescends
  distinct := by
    rw [List.map_map]
    exact nodup_best
  descending := by
    have hscores : (((bestOffers anchor expected ranking).map (proposal anchor)).map
        (·.score)).Pairwise fun x y => y ≤ x := by
      have hsorted := (hdescends.sublist (best_sublist anchor expected hdescends)).sorted
      rw [map_score_best hdescends, List.pairwise_map]
      rwa [List.pairwise_map] at hsorted
    rwa [List.pairwise_map] at hscores
  similar c hc := by
    obtain ⟨offer, hoffer, rfl⟩ := List.mem_map.mp hc
    obtain ⟨hmem, hadmissible⟩ := mem_best hoffer
    change Scalar.hundredths minSimilarity ≤ Scalar.round 6 offer.2.score
    rw [hdescends.places _ hmem]
    rw [isAdmissible, Bool.or_eq_true, Bool.and_eq_true] at hadmissible
    rcases hadmissible with hexact | ⟨hsimilar, -⟩
    · exact isShare_least.le_trans isShare_one (hdescends.shares _ hmem) isShare_least.bounds.2
        (of_decide_eq_true hexact)
    · exact of_decide_eq_true hsimilar
  full r hr hadmissible selector hselector hnew := by
    rw [List.map_map] at hnew
    obtain ⟨henough, hscores⟩ := full_best hdescends hr hadmissible hselector hnew
    refine ⟨by rwa [List.length_map], fun c hc => ?_⟩
    obtain ⟨offer, hoffer, rfl⟩ := List.mem_map.mp hc
    exact (hscores offer hoffer).trans_eq (hdescends.places _ (mem_best hoffer).1).symm

end Kept

/-! ## The tier -/

section Tier

variable {task : Task Float} {shape : Selector.Shape} {cached : Option Index} {earlier : Nat}
  {index : Index}

/-- The ranking of the elements of an index, as far as the scan gets. -/
def Task.ranking (task : Task Float) (index : Index) : List (Ranked Float) :=
  index.findSimilar (soughtBy task.anchor)
    (some (scanReach (millis (task.budgets.ms .snippetMatch)) task.clockCost index.nodes.length).1)

theorem descends_ranking (task : Task Float) (index : Index) : Descends (task.ranking index) :=
  descends_rank _ _

theorem fullYield_of_ok {anchor : Anchor} {ranked : List (Ranked Float)}
    {kept : List (Candidate Float)}
    (h : keepSimilar anchor (expectedText anchor shape) [] ranked = .ok kept) :
    ∃ found, fullYield anchor shape ranked = .ok found ∧ found.candidates = kept := by
  rw [← candidates_fullYield] at h
  cases hfound : fullYield anchor shape ranked with
  | error e => rw [hfound] at h; exact absurd h (by simp [Except.map])
  | ok found => rw [hfound] at h; exact ⟨found, rfl, Except.ok.inj h⟩

theorem fullYield_of_error {anchor : Anchor} {ranked : List (Ranked Float)} {e : Failure}
    (h : keepSimilar anchor (expectedText anchor shape) [] ranked = .error e) :
    fullYield anchor shape ranked = .error e := by
  rw [← candidates_fullYield] at h
  cases hfound : fullYield anchor shape ranked with
  | error e' => rw [hfound] at h; exact congrArg Except.error (Except.error.inj h)
  | ok found => rw [hfound] at h; exact absurd h (by simp [Except.map])

/-- With a stored fragment or hash and an index, the tier is about the ranking. -/
theorem fullStructural_result
    (hstored : (nonEmpty task.anchor.snippet).isSome ∨ (nonEmpty task.anchor.snippetHash).isSome)
    (hindex : cached = some index ∨
      cached = none ∧ (task.indexer earlier task.source 0).result = .ok index) :
    (fullStructural task shape cached earlier).result =
      if index.isEmpty then .ok ⟨[], "source produced no nodes"⟩
      else fullYield task.anchor shape (task.ranking index) := by
  have hgo : ¬((nonEmpty task.anchor.snippet).isNone &&
      (nonEmpty task.anchor.snippetHash).isNone) = true := by
    rw [Bool.and_eq_true, Option.isNone_iff_eq_none, Option.isNone_iff_eq_none]
    rintro ⟨hsnippet, hhash⟩
    rw [hsnippet, hhash] at hstored
    exact absurd hstored (by simp)
  unfold fullStructural
  rw [if_neg hgo]
  rcases hindex with rfl | ⟨rfl, hindex⟩
  · dsimp only
    split <;> rfl
  · dsimp only
    rw [hindex]
    dsimp only
    split <;> rfl

/-- **Full structural keeps exactly the best.**  For an anchor with a stored fragment or hash, and
the index of the whole source, the tier keeps the best of the ranking; unless it has to look for an
expected text that is a pattern beyond a limit, then it fails and keeps nothing. -/
theorem fullStructural_keeps_best
    (hstored : (nonEmpty task.anchor.snippet).isSome ∨ (nonEmpty task.anchor.snippetHash).isSome)
    (hindex : cached = some index ∨
      cached = none ∧ (task.indexer earlier task.source 0).result = .ok index) :
    let result := (fullStructural task shape cached earlier).result
    let expected := expectedText task.anchor shape
    ((∀ overload, ¬Stuck task.anchor expected (task.ranking index) overload) →
      ∃ found, result = .ok found ∧
        KeepsBest task.anchor expected (task.ranking index) found.candidates) ∧
    ∀ overload, Stuck task.anchor expected (task.ranking index) overload →
      result = .error (.raised overload.message) := by
  intro result expected
  have hdescends := descends_ranking task index
  have hresult : result = _ := fullStructural_result hstored hindex
  cases hempty : index.isEmpty with
  | true =>
    have hnone : task.ranking index = [] := by
      rw [Task.ranking, Index.findSimilar, List.isEmpty_iff.mp hempty, List.take_nil]
      exact List.perm_nil.mp (Sought.perm_rank _ [])
    rw [hnone]
    refine ⟨fun _ => ⟨_, hresult.trans (if_pos hempty), keepsBest (hnone ▸ hdescends)⟩, ?_⟩
    rintro overload ⟨-, -, r, hr, -⟩
    exact absurd hr List.not_mem_nil
  | false =>
    rw [hresult, if_neg (Bool.eq_false_iff.mp hempty)]
    refine ⟨fun hfree => ?_, fun overload hstuck => ?_⟩
    · obtain ⟨found, hfound, hkept⟩ := fullYield_of_ok (keepSimilar_eq_best hdescends hfree)
      exact ⟨found, hfound, hkept ▸ keepsBest hdescends⟩
    · exact fullYield_of_error (hstuck.keepSimilar hdescends)

/-- A scan that pays nothing for the clock ranks every element. -/
theorem perm_ranking (hclock : task.clockCost ≤ 0) :
    (task.ranking index).Perm (index.nodes.map (soughtBy task.anchor).scored) := by
  rw [Task.ranking, scanReach, if_pos hclock, Index.findSimilar]
  dsimp only
  rw [List.take_length]
  exact Sought.perm_rank _ _

/-- Two paragraphs with the same text; the stored fragment is the first of them. -/
def Task.payments (expectedText : String) : Task Float :=
  { anchor :=
      { id := "a", selector := "#old", updatedAt := "", snippet := some "<p id=\"a\">pay now</p>"
        hint := some { expectedText := some expectedText } }
    source := "<p id=\"a\">pay now</p>\n<p id=\"b\">pay now</p>"
    page := fun _ => ⟨0, .answer false none⟩
    budgets := ⟨fun _ => 1⟩
    weights := Settings.Blend.defaultWeights }

/-- Both are ranked; the first one is perfect and offers its id, the second one is similar. -/
theorem ranking_payments (expectedText : String) :
    let task := Task.payments expectedText
    let ranking := task.ranking (Index.ofSource task.source 0)
    ranking.length = 2 ∧ "#a" ∈ (perfectOffers task.anchor ranking).map (·.1) ∧
      ∃ r ∈ ranking, isExact r = false ∧ isSimilar r = true := by
  intro task ranking
  have hlength : (Index.ofSource (Task.payments "").source 0).nodes.length = 2 := by decide +kernel
  obtain ⟨first, hfirst, hexact, hselector⟩ :
      ∃ node ∈ (Index.ofSource (Task.payments "").source 0).nodes,
        isExact ((soughtBy (Task.payments "").anchor).scored node) = true ∧
        selectorFor? (Task.payments "").anchor node = some "#a" := by decide +kernel
  obtain ⟨second, hsecond, hsimilar⟩ :
      ∃ node ∈ (Index.ofSource (Task.payments "").source 0).nodes,
        isExact ((soughtBy (Task.payments "").anchor).scored node) = false ∧
        isSimilar ((soughtBy (Task.payments "").anchor).scored node) = true := by decide +kernel
  have hclock : task.clockCost ≤ 0 := le_refl (0 : Rat)
  have hperm : ranking.Perm _ := perm_ranking hclock
  have hmem : ∀ node ∈ (Index.ofSource task.source 0).nodes,
      (soughtBy task.anchor).scored node ∈ ranking :=
    fun node hnode => hperm.mem_iff.mpr (List.mem_map_of_mem hnode)
  refine ⟨?_, mem_perfect (descends_ranking _ _) (hmem first hfirst) hexact hselector,
    _, hmem second hsecond, hsimilar⟩
  rw [hperm.length_eq, List.length_map]
  exact hlength

/-- With a text that can be looked for, the stored paragraph is kept. -/
theorem fullStructural_keeps_best_text :
    let task := Task.payments "pay"
    let index := Index.ofSource task.source 0
    (nonEmpty task.anchor.snippet).isSome ∧ ∃ found,
      (fullStructural task {} (some index) 0).result = .ok found ∧
      KeepsBest task.anchor (some "pay") (task.ranking index) found.candidates ∧
      "#a" ∈ found.candidates.map (·.selector) := by
  intro task index
  have hstored : (nonEmpty task.anchor.snippet).isSome := by decide
  have hnone : Pattern.delimited? "pay" = none := by decide
  have hfree : ∀ overload, ¬Stuck task.anchor (some "pay") (task.ranking index) overload := by
    rintro overload ⟨⟨text, htext, body, anyCase, hdelimited, -⟩, -, -⟩
    obtain rfl : "pay" = text := Option.some.inj htext
    rw [hnone] at hdelimited
    exact absurd hdelimited (by simp)
  obtain ⟨found, hfound, hkept⟩ :=
    (fullStructural_keeps_best (.inl hstored) (.inl rfl)).1 hfree
  refine ⟨hstored, found, hfound, hkept, ?_⟩
  rw [hkept.exactly, List.map_map, bestOffers, List.map_append]
  exact List.mem_append_left _ (ranking_payments "pay").2.1

/-- With a pattern beyond a limit, the stored paragraph is lost. -/
theorem fullStructural_loses_perfect :
    let task := Task.payments "/a\x7b4294967295\x7d/"
    let index := Index.ofSource task.source 0
    (fullStructural task {} (some index) 0).result =
        .error (.raised Pattern.Overload.repetition.message) ∧
      "#a" ∈ (perfectOffers task.anchor (task.ranking index)).map (·.1) := by
  intro task index
  obtain ⟨hlength, hperfect, hsimilar⟩ := ranking_payments "/a\x7b4294967295\x7d/"
  have hcompile : (match Pattern.compile {} "a\x7b4294967295\x7d" with
      | .error .repetition => true
      | _ => false) = true := by decide +kernel
  have hexceeds : Pattern.Exceeds "/a\x7b4294967295\x7d/" .repetition := by
    refine ⟨"a\x7b4294967295\x7d", false, by decide, ?_⟩
    split at hcompile
    next hoverload => exact hoverload
    next => exact absurd hcompile (by simp)
  have hfew : (perfectOffers task.anchor (task.ranking index)).length < maxSimilar :=
    Nat.lt_of_le_of_lt (length_perfect_le.trans_eq hlength) (by decide)
  have hstuck : Stuck task.anchor (expectedText task.anchor {}) (task.ranking index) .repetition :=
    ⟨⟨_, rfl, hexceeds⟩, hfew, hsimilar⟩
  refine ⟨?_, hperfect⟩
  rw [fullStructural_result (.inl (by decide)) (.inl rfl), if_neg (by decide +kernel)]
  exact fullYield_of_error (hstuck.keepSimilar (descends_ranking task index))

end Tier

end Mooring.Resolution
