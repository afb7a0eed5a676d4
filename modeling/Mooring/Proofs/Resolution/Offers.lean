import Mooring.Resolution.Tiers

/-!
# What full structural does with an element

Going through a ranking, full structural stops at an element, or passes it over, or keeps it.  It
keeps an element for its selector, if no element before has that one (`newSelector?`).  So what an
admitted element is worth is its offer, and what a list of them is worth is the list of their offers
(`offers`).

The step is stated once for all (`keepSimilar_stop`, `keepSimilar_go`).  From it follows what
becomes of the elements with a perfect score, which are never stopped at and of which no text is
asked (`keepSimilar_exact`).
-/

namespace Mooring.Resolution

open Mooring.Decimal Mooring.Markup Mooring.Text

/-! ## Selectors that none before has -/

section Offers

variable {α : Type} (anchor : Anchor)

/-- The selector of an element, if it is not taken. -/
def newSelector? (taken : List String) (r : Ranked α) : Option String :=
  (selectorFor? anchor r.node).filter fun selector => !taken.contains selector

/-- The elements that have a selector which none before them has, with it; some selectors are taken
already. -/
def offers (taken : List String) : List (Ranked α) → List (String × Ranked α)
  | [] => []
  | r :: rest =>
    match newSelector? anchor taken r with
    | none => offers taken rest
    | some selector => (selector, r) :: offers (selector :: taken) rest

variable {anchor} {taken : List String} {rest ranked : List (Ranked α)} {selector : String}
  {r : Ranked α}

theorem newSelector?_eq_some : newSelector? anchor taken r = some selector ↔
    selectorFor? anchor r.node = some selector ∧ selector ∉ taken := by
  simp [newSelector?, Option.filter_eq_some_iff]

theorem offers_old (h : newSelector? anchor taken r = none) :
    offers anchor taken (r :: rest) = offers anchor taken rest := by
  rw [offers, h]

theorem offers_new (h : newSelector? anchor taken r = some selector) :
    offers anchor taken (r :: rest) = (selector, r) :: offers anchor (selector :: taken) rest := by
  rw [offers, h]

theorem offers_sublist (taken : List String) (ranked : List (Ranked α)) :
    ((offers anchor taken ranked).map (·.2)).Sublist ranked := by
  induction ranked generalizing taken with
  | nil => exact List.Sublist.refl _
  | cons r rest ih =>
    cases hnew : newSelector? anchor taken r with
    | none => rw [offers_old hnew]; exact (ih taken).cons r
    | some selector => rw [offers_new hnew]; exact (ih _).cons_cons r

/-- Which selectors are taken matters, and not in which order. -/
theorem offers_congr (taken taken' : List String)
    (h : ∀ selector, selector ∈ taken ↔ selector ∈ taken') :
    offers anchor taken ranked = offers anchor taken' ranked := by
  induction ranked generalizing taken taken' with
  | nil => rfl
  | cons r rest ih =>
    have hsame : newSelector? anchor taken r = newSelector? anchor taken' r := by
      unfold newSelector?
      congr 1
      funext selector
      rw [Bool.eq_iff_iff]
      simp [h]
    cases hnew : newSelector? anchor taken r with
    | none => rw [offers_old hnew, offers_old (hsame ▸ hnew), ih taken taken' h]
    | some selector =>
      rw [offers_new hnew, offers_new (hsame ▸ hnew), ih (selector :: taken) (selector :: taken')]
      intro other
      simp [h]

theorem mem_offers {offer : String × Ranked α} (h : offer ∈ offers anchor taken ranked) :
    offer.2 ∈ ranked ∧ offer.1 ∉ taken := by
  refine ⟨(offers_sublist taken ranked).subset (List.mem_map_of_mem h), ?_⟩
  induction ranked generalizing taken with
  | nil => exact absurd h List.not_mem_nil
  | cons r rest ih =>
    cases hnew : newSelector? anchor taken r with
    | none => exact ih (offers_old hnew ▸ h)
    | some selector =>
      rw [offers_new hnew] at h
      rcases List.mem_cons.mp h with rfl | hmem
      · exact (newSelector?_eq_some.mp hnew).2
      · exact fun htaken => ih hmem (List.mem_cons_of_mem _ htaken)

/-- No selector is offered twice. -/
theorem nodup_offers (taken : List String) (ranked : List (Ranked α)) :
    ((offers anchor taken ranked).map (·.1)).Nodup := by
  induction ranked generalizing taken with
  | nil => exact List.nodup_nil
  | cons r rest ih =>
    cases hnew : newSelector? anchor taken r with
    | none => rw [offers_old hnew]; exact ih taken
    | some selector =>
      rw [offers_new hnew]
      refine List.nodup_cons.mpr ⟨fun hmem => ?_, ih _⟩
      obtain ⟨offer, hoffer, rfl⟩ := List.mem_map.mp hmem
      exact (mem_offers hoffer).2 List.mem_cons_self

end Offers

/-! ## The way through a ranking -/

section Steps

variable {α : Type} [Scalar α] {anchor : Anchor} {expected : Option String}

/-- The candidate for an offer. -/
def proposal (anchor : Anchor) (offer : String × Ranked α) : Candidate α :=
  candidateFor anchor offer.1 .fullStructural offer.2.score offer.2.node

/-- The tier stops at an element. -/
def stopsAt (seen : List String) (r : Ranked α) : Bool :=
  !isExact r &&
    (Scalar.less r.score (Scalar.hundredths minSimilarity) || maxSimilar ≤ seen.length)

variable {seen : List String} {selector : String} {r : Ranked α} {rest front back : List (Ranked α)}

theorem keepSimilar_stop (h : stopsAt seen r = true) :
    keepSimilar anchor expected seen (r :: rest) = .ok [] := by
  rw [keepSimilar]
  exact if_pos h

/-- If an element is gone on with, its text decides. -/
theorem keepSimilar_go (h : stopsAt seen r = false) :
    keepSimilar anchor expected seen (r :: rest) = (textAdmits expected r).bind fun admitted =>
      if admitted then
        match newSelector? anchor seen r with
        | none => keepSimilar anchor expected seen rest
        | some selector => (keepSimilar anchor expected (selector :: seen) rest).map
            (proposal anchor (selector, r) :: ·)
      else keepSimilar anchor expected seen rest := by
  rw [keepSimilar]
  refine (if_neg (Bool.not_eq_true _ ▸ h)).trans ?_
  cases textAdmits expected r with
  | error e => rfl
  | ok admitted =>
    cases admitted with
    | false => rfl
    | true =>
      unfold newSelector?
      cases selectorFor? anchor r.node with
      | none => rfl
      | some selector =>
        rw [Option.filter_some]
        cases hseen : seen.contains selector with
        | true => exact if_pos hseen
        | false =>
          refine (if_neg (Bool.not_eq_true _ ▸ hseen)).trans ?_
          change _ = (keepSimilar anchor expected (selector :: seen) rest).map _
          cases keepSimilar anchor expected (selector :: seen) rest <;> rfl

theorem keepSimilar_error {e : Failure} (h : stopsAt seen r = false)
    (htext : textAdmits expected r = .error e) :
    keepSimilar anchor expected seen (r :: rest) = .error e := by
  rw [keepSimilar_go h, htext]
  rfl

theorem keepSimilar_pass (h : stopsAt seen r = false) (htext : textAdmits expected r = .ok false) :
    keepSimilar anchor expected seen (r :: rest) = keepSimilar anchor expected seen rest := by
  rw [keepSimilar_go h, htext]
  rfl

theorem keepSimilar_old (h : stopsAt seen r = false) (htext : textAdmits expected r = .ok true)
    (hnew : newSelector? anchor seen r = none) :
    keepSimilar anchor expected seen (r :: rest) = keepSimilar anchor expected seen rest := by
  rw [keepSimilar_go h, htext, hnew]
  rfl

theorem keepSimilar_new (h : stopsAt seen r = false) (htext : textAdmits expected r = .ok true)
    (hnew : newSelector? anchor seen r = some selector) :
    keepSimilar anchor expected seen (r :: rest) =
      (keepSimilar anchor expected (selector :: seen) rest).map
        (proposal anchor (selector, r) :: ·) := by
  rw [keepSimilar_go h, htext, hnew]
  rfl

/-- What is kept of a ranking is nothing, or what is kept of the rest, or that with the candidate
for the first element. -/
theorem kept_cases {kept : List (Candidate α)}
    (h : keepSimilar anchor expected seen (r :: rest) = .ok kept) :
    kept = [] ∨ keepSimilar anchor expected seen rest = .ok kept ∨
      ∃ selector more, keepSimilar anchor expected (selector :: seen) rest = .ok more ∧
        kept = proposal anchor (selector, r) :: more := by
  cases hstop : stopsAt seen r with
  | true =>
    rw [keepSimilar_stop hstop] at h
    exact Or.inl (Except.ok.inj h).symm
  | false =>
    cases htext : textAdmits expected r with
    | error e =>
      rw [keepSimilar_error hstop htext] at h
      exact absurd h (by simp)
    | ok admitted =>
      cases admitted with
      | false => exact Or.inr (Or.inl (keepSimilar_pass hstop htext ▸ h))
      | true =>
        cases hnew : newSelector? anchor seen r with
        | none => exact Or.inr (Or.inl (keepSimilar_old hstop htext hnew ▸ h))
        | some selector =>
          rw [keepSimilar_new hstop htext hnew] at h
          cases hmore : keepSimilar anchor expected (selector :: seen) rest with
          | error e => rw [hmore] at h; exact absurd h (by simp [Except.map])
          | ok more =>
            rw [hmore] at h
            exact Or.inr (Or.inr ⟨selector, more, hmore, (Except.ok.inj h).symm⟩)

/-- **All elements with a perfect score are kept**, whatever their text is. -/
theorem keepSimilar_exact (h : ∀ r ∈ front, isExact r = true) (seen : List String) :
    keepSimilar anchor expected seen (front ++ back) =
      (keepSimilar anchor expected
        (((offers anchor seen front).map (·.1)).reverse ++ seen) back).map
        ((offers anchor seen front).map (proposal anchor) ++ ·) := by
  induction front generalizing seen with
  | nil =>
    rw [List.nil_append]
    change _ = (keepSimilar anchor expected seen back).map _
    cases keepSimilar anchor expected seen back <;> rfl
  | cons r rest ih =>
    have hexact := h r List.mem_cons_self
    have hgo : stopsAt seen r = false := by rw [stopsAt, hexact]; rfl
    have htext : textAdmits expected r = .ok true := if_pos hexact
    have hrest := ih fun r hr => h r (List.mem_cons_of_mem _ hr)
    cases hnew : newSelector? anchor seen r with
    | none =>
      rw [List.cons_append, keepSimilar_old hgo htext hnew, offers_old hnew]
      exact hrest seen
    | some selector =>
      rw [List.cons_append, keepSimilar_new hgo htext hnew, hrest, offers_new hnew, List.map_cons,
        List.map_cons, List.reverse_cons, List.append_assoc, List.singleton_append]
      generalize keepSimilar anchor expected _ back = kept
      cases kept <;> rfl

/-- What is found is what is kept, with a message. -/
theorem candidates_fullYield (anchor : Anchor) (shape : Selector.Shape)
    (ranked : List (Ranked α)) : (fullYield anchor shape ranked).map (·.candidates) =
      keepSimilar anchor (expectedText anchor shape) [] ranked := by
  unfold fullYield
  cases keepSimilar anchor (expectedText anchor shape) [] ranked with
  | error e => rfl
  | ok kept => cases kept <;> rfl

end Steps

end Mooring.Resolution
