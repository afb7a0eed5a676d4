import Mooring.Proofs.Markup.Nodes
import Mooring.Proofs.Markup.Scan

/-!
# Extents and the tree

The elements of an index are nested as the reader says, and their extents are found by a scan of its
own.  Where the two agree about every element of a source and no end tag can be taken for a missing
one (`Harmonious`), the extents are nested like the elements: those inside an element lie inside its
extent, and the extents of two elements side by side have nothing in common
(`extents_follow_tree`).  A source where they disagree, over an end tag in a comment, shows that
this does not hold of every source (`extents_leave_tree`).

The proof goes along the events.  Up to each of them, the finished parts stand one behind the other,
inside each open element those finished in it, and nothing of this reaches beyond the place where
the reader is (`Builder.HeldTo`); the scans for the open elements wait for their end tags
(`Awaits`).
-/

namespace Mooring.Markup

open Mooring.Text

/-! ## Parts that fit in order -/

/-- Some extents are nested like their elements.  An extent that comes later in the document lies
inside one before it, where its element is inside the other's, or begins behind it. -/
structure FollowsTree (masked : List Char) (spans : List Extent) : Prop where
  inside : ∀ a ∈ spans, ∀ d ∈ extentsOf masked a.children, a.start ≤ d.start ∧ d.stop ≤ a.stop
  apart : spans.Pairwise fun a b => b ∈ extentsOf masked a.children ∨ a.stop ≤ b.start

/-- The place behind an element, given the extents inside it. -/
def elementStop (masked : List Char) (e : Element) (inner : List Extent) : Nat :=
  (endOf? masked e).getD
    (inner.foldl (fun stop extent => max stop extent.stop) (startTagStop masked e))

theorem extents_element (masked : List Char) (e : Element) (children : List Tree) :
    extents masked (.element e children) =
      ⟨e, children, e.offset, elementStop masked e (extentsOf masked children)⟩ ::
        extentsOf masked children := by
  rw [extents, elementStop, endOf?]
  cases afterElement? e.name (masked.drop e.offset) with
  | none => rfl
  | some rest => rfl

mutual

/-- The extents of a part stand in order between two places. -/
def Tree.Fits (masked : List Char) (lo hi : Nat) : Tree → Prop
  | .text .. => lo ≤ hi
  | .element e children => lo ≤ e.offset ∧ Fit masked e.offset hi children ∧
      (∀ d ∈ extentsOf masked children, d.stop ≤ elementStop masked e (extentsOf masked children)) ∧
      elementStop masked e (extentsOf masked children) ≤ hi

/-- The extents of some parts stand in order between two places. -/
def Fit (masked : List Char) (lo hi : Nat) : List Tree → Prop
  | [] => lo ≤ hi
  | part :: rest => ∃ mid, part.Fits masked lo mid ∧ Fit masked mid hi rest

end

section Fit

variable {masked : List Char}

mutual

theorem Tree.Fits.le : ∀ {part : Tree} {lo hi : Nat}, part.Fits masked lo hi → lo ≤ hi
  | .text .., _, _, h => by rwa [Tree.Fits] at h
  | .element .., _, _, h => by
    rw [Tree.Fits] at h
    exact Nat.le_trans h.1 h.2.1.le

theorem Fit.le : ∀ {parts : List Tree} {lo hi : Nat}, Fit masked lo hi parts → lo ≤ hi
  | [], _, _, h => by rwa [Fit] at h
  | _ :: _, _, _, h => by
    rw [Fit] at h
    obtain ⟨mid, hpart, hrest⟩ := h
    exact Nat.le_trans hpart.le hrest.le

end

theorem Tree.Fits.mono_left {part : Tree} {lo lo' hi : Nat} (hlo : lo' ≤ lo)
    (h : part.Fits masked lo hi) : part.Fits masked lo' hi := by
  cases part with
  | text owner text =>
    rw [Tree.Fits] at h ⊢
    exact Nat.le_trans hlo h
  | element e children =>
    rw [Tree.Fits] at h ⊢
    exact ⟨Nat.le_trans hlo h.1, h.2⟩

theorem Fit.mono_left {parts : List Tree} {lo lo' hi : Nat} (hlo : lo' ≤ lo)
    (h : Fit masked lo hi parts) : Fit masked lo' hi parts := by
  cases parts with
  | nil =>
    rw [Fit] at h ⊢
    exact Nat.le_trans hlo h
  | cons part rest =>
    rw [Fit] at h ⊢
    obtain ⟨mid, hpart, hrest⟩ := h
    exact ⟨mid, hpart.mono_left hlo, hrest⟩

theorem Fit.concat {part : Tree} {mid hi : Nat} (hpart : part.Fits masked mid hi) :
    ∀ {parts : List Tree} {lo : Nat}, Fit masked lo mid parts → Fit masked lo hi (parts ++ [part])
  | [], lo, h => by
    rw [Fit] at h
    rw [List.nil_append, Fit]
    exact ⟨hi, hpart.mono_left h, by rw [Fit]⟩
  | first :: rest, lo, h => by
    rw [Fit] at h
    rw [List.cons_append, Fit]
    obtain ⟨mid', hfirst, hrest⟩ := h
    exact ⟨mid', hfirst, concat hpart hrest⟩

theorem Fit.mono_right {hi hi' : Nat} (hhi : hi ≤ hi') : ∀ {parts : List Tree} {lo : Nat},
    Fit masked lo hi parts → Fit masked lo hi' parts
  | [], lo, h => by
    rw [Fit] at h ⊢
    exact Nat.le_trans h hhi
  | part :: rest, lo, h => by
    rw [Fit] at h ⊢
    obtain ⟨mid, hpart, hrest⟩ := h
    exact ⟨mid, hpart, mono_right hhi hrest⟩

mutual

/-- Extents in order are nested like their elements. -/
theorem Tree.Fits.followsTree : ∀ {part : Tree} {lo hi : Nat}, part.Fits masked lo hi →
    (∀ a ∈ extents masked part, lo ≤ a.start ∧ a.stop ≤ hi) ∧
      FollowsTree masked (extents masked part)
  | .text .., _, _, _ => by
    rw [extents]
    exact ⟨by simp, by simp, .nil⟩
  | .element e children, lo, hi, h => by
    rw [Tree.Fits] at h
    obtain ⟨hlo, hchildren, hinner, hhi⟩ := h
    obtain ⟨hbounds, hfollows⟩ := hchildren.followsTree
    rw [extents_element]
    refine ⟨List.forall_mem_cons.mpr ⟨⟨hlo, hhi⟩, fun a ha => ?_⟩,
      List.forall_mem_cons.mpr ⟨fun d hd => ⟨(hbounds d hd).1, hinner d hd⟩, hfollows.inside⟩,
      .cons (fun b hb => .inl hb) hfollows.apart⟩
    obtain ⟨hstart, hstop⟩ := hbounds a ha
    exact ⟨Nat.le_trans hlo hstart, hstop⟩

theorem Fit.followsTree : ∀ {parts : List Tree} {lo hi : Nat}, Fit masked lo hi parts →
    (∀ a ∈ extentsOf masked parts, lo ≤ a.start ∧ a.stop ≤ hi) ∧
      FollowsTree masked (extentsOf masked parts)
  | [], _, _, _ => by
    rw [extentsOf]
    exact ⟨by simp, by simp, .nil⟩
  | part :: rest, lo, hi, h => by
    rw [Fit] at h
    obtain ⟨mid, hpart, hrest⟩ := h
    obtain ⟨hpartBounds, hpartFollows⟩ := hpart.followsTree
    obtain ⟨hrestBounds, hrestFollows⟩ := hrest.followsTree
    rw [extentsOf]
    refine ⟨List.forall_mem_append.mpr ⟨fun a ha => ?_, fun a ha => ?_⟩,
      List.forall_mem_append.mpr ⟨hpartFollows.inside, hrestFollows.inside⟩,
      List.pairwise_append.mpr ⟨hpartFollows.apart, hrestFollows.apart, fun a ha b hb => .inr ?_⟩⟩
    · exact ⟨(hpartBounds a ha).1, Nat.le_trans (hpartBounds a ha).2 hrest.le⟩
    · exact ⟨Nat.le_trans hpart.le (hrestBounds a ha).1, (hrestBounds a ha).2⟩
    · exact Nat.le_trans (hpartBounds a ha).2 (hrestBounds b hb).1

end

/-- A finished element fits: one with an end tag up to behind it, one without as far as the parts
inside it. -/
theorem fits_element {e : Element} {children : List Tree} {lo place hi : Nat} (hlo : lo ≤ e.offset)
    (hstart : e.offset ≤ startTagStop masked e)
    (hchildren : Fit masked (startTagStop masked e) place children) (hplace : place ≤ hi)
    (hend : endOf? masked e = none ∨ endOf? masked e = some hi) :
    (Tree.element e children).Fits masked lo hi := by
  have hbounds := hchildren.followsTree.1
  rw [Tree.Fits, elementStop]
  refine ⟨hlo, (hchildren.mono_right hplace).mono_left hstart, ?_⟩
  rcases hend with hnone | hsome
  · rw [hnone, Option.getD_none]
    refine ⟨(foldl_max_le_iff.mp (Nat.le_refl _)).2, foldl_max_le_iff.mpr ⟨?_, fun d hd => ?_⟩⟩
    · exact Nat.le_trans hchildren.le hplace
    · exact Nat.le_trans (hbounds d hd).2 hplace
  · rw [hsome, Option.getD_some]
    exact ⟨fun d hd => Nat.le_trans (hbounds d hd).2 hplace, Nat.le_refl hi⟩

end Fit

/-! ## Construction in order -/

/-- The finished parts stand in order up to a place, those inside each open element behind its
start tag. -/
def StackFits (masked : List Char) (roots : List Tree) : Nat → List OpenElement → Prop
  | place, [] => Fit masked 0 place roots.reverse
  | place, top :: below => ∃ mid, StackFits masked roots mid below ∧ mid ≤ top.element.offset ∧
      top.element.offset ≤ startTagStop masked top.element ∧
      Fit masked (startTagStop masked top.element) place top.parts.reverse

namespace Builder

/-- The open elements, innermost first. -/
def opened (b : Builder) : List Element :=
  b.stack.map (·.element)

theorem opened_add (b : Builder) (part : Tree) : (b.add part).opened = b.opened := by
  obtain ⟨stack, roots, pending, swallowed⟩ := b
  cases stack with
  | nil => rfl
  | cons top rest => rfl

theorem opened_flush (b : Builder) : b.flush.opened = b.opened := by
  unfold flush
  split
  · rfl
  · exact opened_add b _

theorem opened_pop (b : Builder) : b.pop.opened = b.opened.tail := by
  obtain ⟨stack, roots, pending, swallowed⟩ := b
  cases stack with
  | nil => rfl
  | cons top rest => exact opened_add _ _

theorem opened_pops {α : Type} (times : List α) : ∀ b : Builder,
    (times.foldl (fun b _ => b.pop) b).opened = b.opened.drop times.length := by
  induction times with
  | nil => exact fun _ => rfl
  | cons _ rest ih =>
    intro b
    rw [List.foldl_cons, ih, opened_pop, List.drop_tail, List.length_cons]

theorem findIdx?_opened (b : Builder) (name : String) :
    b.stack.findIdx? (·.element.name == name) =
      (b.opened.map (·.name)).findIdx? (· == name) := by
  rw [opened, List.map_map, List.findIdx?_map]
  rfl

theorem close_of_none {b : Builder} {name : String}
    (h : (b.opened.map (·.name)).findIdx? (· == name) = none) : b.close name = b := by
  unfold close
  rw [findIdx?_opened, h]

theorem close_of_some {b : Builder} {name : String} {depth : Nat}
    (h : (b.opened.map (·.name)).findIdx? (· == name) = some depth) :
    b.close name = (List.range (depth + 1)).foldl (fun b _ => b.pop) b := by
  unfold close
  rw [findIdx?_opened, h]

theorem swallowed_add (b : Builder) (part : Tree) : (b.add part).swallowed = b.swallowed := by
  obtain ⟨stack, roots, pending, swallowed⟩ := b
  cases stack with
  | nil => rfl
  | cons top rest => rfl

theorem swallowed_flush (b : Builder) : b.flush.swallowed = b.swallowed := by
  unfold flush
  split
  · rfl
  · exact swallowed_add b _

theorem swallowed_pop (b : Builder) : b.pop.swallowed = b.swallowed := by
  obtain ⟨stack, roots, pending, swallowed⟩ := b
  cases stack with
  | nil => rfl
  | cons top rest => exact swallowed_add _ _

/-- The construction with an element opened. -/
def opening (b : Builder) (tag : ReadTag) (offset : Nat) : Builder :=
  { b.flush with stack := ⟨tag.element offset, []⟩ :: b.flush.stack }

theorem step_start (b : Builder) (tag : ReadTag) (offset : Nat) :
    b.step (.start tag offset) =
      if tag.selfClosing then (b.opening tag offset).pop
      else if voidNames.contains tag.name then
        { (b.opening tag offset).pop with
          swallowed := tag.name :: (b.opening tag offset).swallowed }
      else b.opening tag offset :=
  rfl

theorem opened_opening (b : Builder) (tag : ReadTag) (offset : Nat) :
    (b.opening tag offset).opened = tag.element offset :: b.opened := by
  rw [← opened_flush b]
  rfl

theorem swallowed_opening (b : Builder) (tag : ReadTag) (offset : Nat) :
    (b.opening tag offset).swallowed = b.swallowed :=
  swallowed_flush b

theorem swallowed_pops {α : Type} (times : List α) : ∀ b : Builder,
    (times.foldl (fun b _ => b.pop) b).swallowed = b.swallowed := by
  induction times with
  | nil => exact fun _ => rfl
  | cons _ rest ih => exact fun b => (ih b.pop).trans (swallowed_pop b)

/-- The construction has its parts in order up to a place. -/
def HeldTo (masked : List Char) (b : Builder) (place : Nat) : Prop :=
  StackFits masked b.roots place b.stack

namespace HeldTo

variable {masked : List Char} {b : Builder} {place hi : Nat}

theorem mono (h : b.HeldTo masked place) (hplace : place ≤ hi) : b.HeldTo masked hi := by
  obtain ⟨stack, roots, pending, swallowed⟩ := b
  cases stack with
  | nil => exact Fit.mono_right hplace h
  | cons top below =>
    obtain ⟨mid, hbelow, hmid, hstart, htop⟩ := h
    exact ⟨mid, hbelow, hmid, hstart, htop.mono_right hplace⟩

theorem add {part : Tree} (h : b.HeldTo masked place) (hpart : part.Fits masked place hi) :
    (b.add part).HeldTo masked hi := by
  obtain ⟨stack, roots, pending, swallowed⟩ := b
  cases stack with
  | nil =>
    show Fit masked 0 hi (part :: roots).reverse
    rw [List.reverse_cons]
    exact Fit.concat hpart h
  | cons top below =>
    obtain ⟨mid, hbelow, hmid, hstart, htop⟩ := h
    refine ⟨mid, hbelow, hmid, hstart, ?_⟩
    rw [List.reverse_cons]
    exact htop.concat hpart

theorem addText {owner : Option String} {text : List Char} (h : b.HeldTo masked place) :
    (b.add (.text owner text)).HeldTo masked place :=
  h.add (by rw [Tree.Fits])

theorem flush (h : b.HeldTo masked place) : b.flush.HeldTo masked place := by
  unfold Builder.flush
  split
  · exact h
  · exact h.addText

/-- An element is opened behind what was read before. -/
theorem opening {tag : ReadTag} {offset : Nat} (h : b.HeldTo masked place)
    (hoffset : place ≤ offset) (hstart : offset ≤ hi)
    (hstop : startTagStop masked (tag.element offset) = hi) :
    (b.opening tag offset).HeldTo masked hi := by
  refine ⟨place, h.flush, hoffset, hstop ▸ hstart, ?_⟩
  rw [hstop]
  show Fit masked hi hi []
  rw [Fit]

/-- Finishing the innermost open element keeps the order. -/
theorem pop {e : Element} {outer : List Element} (h : b.HeldTo masked place)
    (hopened : b.opened = e :: outer) (hplace : place ≤ hi)
    (hend : endOf? masked e = none ∨ endOf? masked e = some hi) : b.pop.HeldTo masked hi := by
  obtain ⟨stack, roots, pending, swallowed⟩ := b
  cases stack with
  | nil => exact absurd hopened (by simp [opened])
  | cons top below =>
    obtain ⟨rfl, -⟩ := List.cons.inj hopened
    obtain ⟨mid, hbelow, hmid, hstart, htop⟩ := h
    exact HeldTo.add hbelow (fits_element hmid hstart htop hplace hend)

/-- Finishing open elements without an end tag keeps the order. -/
theorem pops {α : Type} (times : List α) : ∀ {b : Builder}, b.HeldTo masked place →
    (∀ e ∈ b.opened.take times.length, endOf? masked e = none) →
    (times.foldl (fun b _ => b.pop) b).HeldTo masked place := by
  induction times with
  | nil => exact fun h _ => h
  | cons _ rest ih =>
    intro b h hnone
    rw [List.foldl_cons]
    cases hopened : b.opened with
    | nil =>
      -- Nothing is open, and nothing is finished.
      have hpop : b.pop = b := by
        obtain ⟨stack, roots, pending, swallowed⟩ := b
        obtain rfl : stack = [] := List.map_eq_nil_iff.mp hopened
        rfl
      rw [hpop]
      exact ih h (by simp [hopened])
    | cons e outer =>
      rw [hopened, List.length_cons, List.take_succ_cons] at hnone
      obtain ⟨he, houter⟩ := List.forall_mem_cons.mp hnone
      refine ih (h.pop hopened (Nat.le_refl place) (.inl he)) ?_
      rwa [opened_pop, hopened, List.tail_cons]

end HeldTo

theorem contentless_subset_voidNames {name : String} (h : contentless.contains name = true) :
    voidNames.contains name = true :=
  List.contains_iff_mem.mpr ((show contentless ⊆ voidNames by decide)
    (List.contains_iff_mem.mp h))

/-! ## From event to event -/

/-- The construction is in order up to a place, and what is to come suits its open elements. -/
structure Follows (masked : List Char) (b : Builder) (left : List String) (placed : List Placed)
    (place : Nat) : Prop where
  held : b.HeldTo masked place
  awaits : Awaits masked b.opened placed
  orderly : Orderly left (b.opened.map (·.name)) placed
  content : ∀ e ∈ b.opened, contentless.contains e.name = false
  swallowed : ∀ name ∈ b.swallowed, contentless.contains name = true

namespace Follows

variable {masked : List Char} {b b' : Builder} {left : List String} {p : Placed}
  {later : List Placed} {place : Nat}

/-- An event that no open element takes for a tag of its name. -/
theorem quiet (h : Follows masked b left (p :: later) place) (hplace : place ≤ p.stop)
    (hheld : b'.HeldTo masked place) (hopened : b'.opened = b.opened)
    (hswallowed : b'.swallowed ⊆ b.swallowed) (hskip : ∀ e ∈ b.opened, p.tag? e.name = none)
    (horderly : Orderly left (b.opened.map (·.name)) later) :
    Follows masked b' left later p.stop where
  held := hheld.mono hplace
  awaits := hopened ▸ h.awaits.skip hskip
  orderly := hopened ▸ horderly
  content := hopened ▸ h.content
  swallowed := fun name hname => h.swallowed name (hswallowed hname)

/-- An end tag that closes an element. -/
theorem close {inner outer : List Element} {e : Element}
    (h : Follows masked b left (p :: later) place) (hplace : place ≤ p.stop)
    (hevent : p.event = .finish e.name) (hsplit : b.opened = inner ++ e :: outer)
    (hinner : ∀ i ∈ inner, i.name ≠ e.name) (hapart : ∀ i ∈ inner, i.name ∉ outer.map (·.name))
    (horderly : Orderly (inner.map (·.name) ++ left) (outer.map (·.name)) later) :
    Follows masked (((List.range (inner.length + 1)).foldl (fun b _ => b.pop) b.flush))
      (inner.map (·.name) ++ left) later p.stop := by
  have hcontent := h.content
  rw [hsplit] at hcontent
  obtain ⟨hinnerContent, houterContent⟩ := List.forall_mem_append.mp hcontent
  obtain ⟨hend, hnone, hawaits⟩ := Awaits.close (hsplit ▸ h.awaits) hevent hinner hinnerContent
    hapart horderly fun i hi => List.mem_append_left left (List.mem_map_of_mem hi)
  -- The elements on the way are finished first; then the end tag finishes its own.
  have hopened : b.flush.opened = inner ++ e :: outer := (opened_flush b).trans hsplit
  have hway := h.held.flush.pops (List.range inner.length) (by
    rw [hopened, List.length_range, List.take_left]
    exact hnone)
  have hrest : ((List.range inner.length).foldl (fun b _ => b.pop) b.flush).opened = e :: outer := by
    rw [opened_pops, hopened, List.length_range, List.drop_left]
  have hclosed := hway.pop hrest hplace (.inr hend)
  rw [List.range_succ, List.foldl_append]
  have hleft : (((List.range inner.length).foldl (fun b _ => b.pop) b.flush).pop).opened = outer := by
    rw [opened_pop, hrest, List.tail_cons]
  exact {
    held := hclosed
    awaits := hleft ▸ hawaits
    orderly := hleft ▸ horderly
    content := hleft ▸ (List.forall_mem_cons.mp houterContent).2
    swallowed := fun name hname => h.swallowed name (by
      rwa [List.foldl_cons, List.foldl_nil, swallowed_pop, swallowed_pops, swallowed_flush]
        at hname) }

/-- A start tag whose element stays open. -/
theorem start_open {tag : ReadTag} {offset : Nat} (h : Follows masked b left (p :: later) place)
    (hevent : p.event = .start tag offset) (hagrees : Agrees masked tag offset p.stop later)
    (hheld : (b.opening tag offset).HeldTo masked p.stop) (hcontent : hasContent tag = true)
    (horderly : Orderly left (tag.name :: b.opened.map (·.name)) later) :
    Follows masked (b.step (.start tag offset)) left later p.stop := by
  have hkept := hcontent
  rw [hasContent, Bool.not_eq_true', Bool.or_eq_false_iff] at hkept
  have hvoid : ¬voidNames.contains tag.name = true := fun hvoid =>
    absurd (hagrees.void hvoid) (by rw [hcontent]; exact Bool.noConfusion)
  rw [step_start, hkept.1, if_neg Bool.false_ne_true, if_neg hvoid]
  have hopened := opened_opening b tag offset
  exact {
    held := hheld
    awaits := hopened ▸ h.awaits.push hevent hcontent hagrees
    orderly := hopened ▸ horderly
    content := hopened ▸ List.forall_mem_cons.mpr ⟨hkept.2, h.content⟩
    swallowed := swallowed_opening b tag offset ▸ h.swallowed }

/-- A start tag whose element is finished at once. -/
theorem start_alone {tag : ReadTag} {offset : Nat} (h : Follows masked b left (p :: later) place)
    (hevent : p.event = .start tag offset)
    (hend : endOf? masked (tag.element offset) = some p.stop)
    (hheld : (b.opening tag offset).HeldTo masked p.stop) (hcontent : hasContent tag = false)
    (horderly : Orderly left (b.opened.map (·.name)) later) :
    Follows masked (b.step (.start tag offset)) left later p.stop := by
  have hpopped : (b.opening tag offset).pop.opened = b.opened := by
    rw [opened_pop, opened_opening, List.tail_cons]
  have hswallowed : (b.opening tag offset).pop.swallowed = b.swallowed := by
    rw [swallowed_pop, swallowed_opening]
  have hfollows : Follows masked (b.opening tag offset).pop left later p.stop := {
    held := hheld.pop (opened_opening b tag offset) (Nat.le_refl _) (.inr hend)
    awaits := hpopped ▸ h.awaits.alone hevent hcontent h.content
    orderly := hpopped ▸ horderly
    content := hpopped ▸ h.content
    swallowed := hswallowed ▸ h.swallowed }
  rw [step_start]
  split
  · exact hfollows
  next hopens =>
    -- Its end tag, if one comes, is swallowed.
    rw [hasContent, Bool.not_eq_false', Bool.or_eq_true] at hcontent
    have hname := hcontent.resolve_left hopens
    rw [if_pos (contentless_subset_voidNames hname)]
    exact { hfollows with
      swallowed := List.forall_mem_cons.mpr
        ⟨hname, swallowed_opening b tag offset ▸ h.swallowed⟩ }

/-- A start tag, whether its element stays open or not. -/
theorem start {tag : ReadTag} {offset : Nat} (h : Follows masked b left (p :: later) place)
    (hevent : p.event = .start tag offset) (hagrees : Agrees masked tag offset p.stop later)
    (hoffset : place ≤ offset) (hstart : offset ≤ p.stop) (hstop : p.stop ≤ masked.length) :
    Follows masked (b.step (.start tag offset)) left later p.stop := by
  have horderly := h.orderly
  rw [Orderly, hevent] at horderly
  dsimp only at horderly
  have hheld := h.held.opening hoffset hstart (hagrees.startTagStop hstop)
  cases hcontent : hasContent tag with
  | true =>
    rw [hcontent, if_pos rfl] at horderly
    exact h.start_open hevent hagrees hheld hcontent horderly
  | false =>
    rw [hcontent, if_neg Bool.false_ne_true] at horderly
    have hend := hagrees.endOf?_of_contentless hstop hcontent
    exact h.start_alone hevent hend hheld hcontent horderly

/-- An end tag, whether it closes elements, is swallowed or goes unnoticed. -/
theorem finish {name : String} (h : Follows masked b left (p :: later) place)
    (hplace : place ≤ p.stop) (hevent : p.event = .finish name) :
    ∃ left', Follows masked (b.step (.finish name)) left' later p.stop := by
  have horderly := h.orderly
  rw [Orderly, hevent] at horderly
  dsimp only at horderly
  have hquiet : ∀ {b' : Builder}, (∀ e ∈ b.opened, e.name ≠ name) → b'.HeldTo masked place →
      b'.opened = b.opened → b'.swallowed ⊆ b.swallowed →
      Orderly left (b.opened.map (·.name)) later → Follows masked b' left later p.stop :=
    fun hne hheld hopened hswallowed horderly => h.quiet hplace hheld hopened hswallowed
      (fun e he => Placed.tag?_finish_of_ne hevent (hne e he).symm) horderly
  unfold Builder.step
  dsimp only
  split
  next hswallow =>
    have hname := h.swallowed name (List.contains_iff_mem.mp hswallow)
    have hne : ∀ e ∈ b.opened, e.name ≠ name := fun e he heq => by
      have hcontent := h.content e he
      rw [heq, hname] at hcontent
      exact Bool.noConfusion hcontent
    rw [if_pos hname] at horderly
    exact ⟨left, hquiet hne h.held rfl List.erase_subset horderly⟩
  next =>
    cases hfound : (b.opened.map (·.name)).findIdx? (· == name) with
    | none =>
      have hne : ∀ e ∈ b.opened, e.name ≠ name := fun e he heq =>
        absurd (List.findIdx?_eq_none_iff.mp hfound e.name (List.mem_map_of_mem he))
          (by rw [heq, beq_self_eq_true]; exact Bool.noConfusion)
      have hlater : Orderly left (b.opened.map (·.name)) later := by
        rw [hfound] at horderly
        split at horderly
        · exact horderly
        · exact horderly.2
      rw [close_of_none (opened_flush b ▸ hfound)]
      exact ⟨left, hquiet hne h.held.flush (opened_flush b)
        (swallowed_flush b ▸ List.Subset.refl _) hlater⟩
    | some depth =>
      rw [close_of_some (opened_flush b ▸ hfound)]
      rw [hfound] at horderly
      rw [List.findIdx?_map] at hfound
      obtain ⟨inner, e, outer, hsplit, rfl, he, hinner⟩ := exists_of_findIdx? hfound
      obtain rfl : e.name = name := eq_of_beq he
      have hmem : e ∈ b.opened := hsplit ▸ List.mem_append_right inner List.mem_cons_self
      rw [if_neg (by rw [h.content e hmem]; exact Bool.false_ne_true), hsplit] at horderly
      dsimp only at horderly
      rw [← List.map_take, ← List.map_drop, List.take_left, drop_succ_left] at horderly
      exact ⟨_, h.close hplace hevent hsplit (fun i hi => beq_eq_false_iff_ne.mp (hinner i hi))
        (fun i hi => horderly.1 i.name (List.mem_map_of_mem hi)) horderly.2⟩

/-- An event that is no tag. -/
theorem noTag (h : Follows masked b left (p :: later) place) (hplace : place ≤ p.stop)
    (hstart : ∀ tag offset, p.event ≠ .start tag offset) (hfinish : ∀ name, p.event ≠ .finish name) :
    Follows masked (b.step p.event) left later p.stop := by
  have horderly := h.orderly
  rw [Orderly] at horderly
  have hquiet : ∀ {b' : Builder}, b'.HeldTo masked place → b'.opened = b.opened →
      b'.swallowed ⊆ b.swallowed → Orderly left (b.opened.map (·.name)) later →
      Follows masked b' left later p.stop := fun hheld hopened hswallowed =>
    h.quiet hplace hheld hopened hswallowed fun e _ => Placed.tag?_of_text hstart hfinish e.name
  have hflush : b.flush.swallowed ⊆ b.swallowed := swallowed_flush b ▸ List.Subset.refl _
  cases hevent : p.event with
  | start tag offset => exact absurd hevent (hstart tag offset)
  | finish name => exact absurd hevent (hfinish name)
  | text text =>
    rw [hevent] at horderly
    exact hquiet h.held rfl (List.Subset.refl _) horderly
  | cut =>
    rw [hevent] at horderly
    exact hquiet h.held.flush (opened_flush b) hflush horderly
  | separateText text =>
    rw [hevent] at horderly
    unfold Builder.step
    dsimp only
    split
    · exact hquiet h.held.flush (opened_flush b) hflush horderly
    · refine hquiet h.held.flush.addText ?_ ?_ horderly
      · rw [opened_add, opened_flush]
      · rwa [swallowed_add]

/-- **Each event keeps the construction in order.** -/
theorem step (h : Follows masked b left (p :: later) place) (hagree : AllAgree masked (p :: later))
    (hascending : Ascending place (p :: later) masked.length) :
    ∃ left', Follows masked (b.step p.event) left' later p.stop := by
  obtain ⟨hagrees, -⟩ := hagree
  obtain ⟨hbehind, hlater⟩ := hascending
  cases hevent : p.event with
  | start tag offset =>
    rw [hevent] at hagrees
    obtain ⟨hoffset, hstart⟩ := hbehind.start tag offset hevent
    exact ⟨left, h.start hevent hagrees hoffset hstart hlater.le⟩
  | finish name => exact h.finish hbehind.stop hevent
  | text text =>
    exact ⟨left, hevent ▸ h.noTag hbehind.stop (by simp [hevent]) (by simp [hevent])⟩
  | separateText text =>
    exact ⟨left, hevent ▸ h.noTag hbehind.stop (by simp [hevent]) (by simp [hevent])⟩
  | cut => exact ⟨left, hevent ▸ h.noTag hbehind.stop (by simp [hevent]) (by simp [hevent])⟩

/-- A run keeps the construction in order. -/
theorem run : ∀ {placed : List Placed} {b : Builder} {left : List String} {place : Nat},
    Follows masked b left placed place → AllAgree masked placed →
    Ascending place placed masked.length →
    ∃ left', Follows masked ((placed.map Placed.event).foldl Builder.step b) left' [] masked.length
  | [], b, left, place, h, _, hascending =>
    ⟨left, { h with held := h.held.mono hascending }⟩
  | p :: later, b, left, place, h, hagree, hascending => by
    obtain ⟨left', hstep⟩ := h.step hagree hascending
    obtain ⟨last, hrun⟩ := run hstep hagree.2 hascending.2
    exact ⟨last, hrun⟩

end Follows

/-- What is finished at the end stands in order. -/
theorem fit_finish {masked : List Char} {b : Builder} {left : List String} {place : Nat}
    (h : Follows masked b left [] place) : Fit masked 0 place b.finish := by
  have hpops := h.held.flush.pops b.flush.stack fun e he =>
    h.awaits.endOf?_eq_none (opened_flush b ▸ List.mem_of_mem_take he)
  have hstack := stack_pops b.flush.stack b.flush rfl
  unfold HeldTo at hpops
  rw [hstack] at hpops
  exact hpops

end Builder

/-! ## Extents follow the tree -/

/-- The scan sees what the reader reads of a document, and no end tag in it can be taken for a
missing one. -/
def Harmonious (masked : List Char) : Prop :=
  match placedOf masked with
  | .ok placed => AllAgree masked placed ∧ Orderly [] [] placed
  | .error _ => True

instance (masked : List Char) : Decidable (Harmonious masked) :=
  match h : placedOf masked with
  | .ok placed =>
    decidable_of_iff (AllAgree masked placed ∧ Orderly [] [] placed) (by rw [Harmonious, h])
  | .error _ => .isTrue (by rw [Harmonious, h]; trivial)

/-- The parts of a document on which scan and reader agree stand in order. -/
theorem fit_parseTrees {masked : List Char} {trees : List Tree} (h : Harmonious masked)
    (htrees : parseTrees masked = .ok trees) : Fit masked 0 masked.length trees := by
  rw [parseTrees, eventsOf_eq] at htrees
  rw [Harmonious] at h
  cases hplaced : placedOf masked with
  | error error => rw [hplaced] at htrees; exact absurd htrees (by simp [Except.map])
  | ok placed =>
    rw [hplaced] at h htrees
    obtain ⟨hagree, horderly⟩ := h
    have hstart : Builder.Follows masked .empty [] placed 0 := {
      held := Nat.le_refl 0
      awaits := fun inner e outer hsplit => absurd hsplit (by simp [Builder.opened, Builder.empty])
      orderly := horderly
      content := by simp [Builder.opened, Builder.empty]
      swallowed := by simp [Builder.empty] }
    obtain ⟨left, hrun⟩ := hstart.run hagree (ascending_placedOf hplaced)
    rw [← Except.ok.inj htrees]
    exact Builder.fit_finish hrun

/-- The extents of the elements of a source, in document order; none if it cannot be read. -/
def spansOf (source : String) : List Extent :=
  match parseTrees (mask source.toList) with
  | .ok trees => extentsOf (mask source.toList) trees
  | .error _ => []

theorem nodes_ofSource (source : String) (lineOffset : Int) :
    (Index.ofSource source lineOffset).nodes =
      (spansOf source).zipIdx.map fun (e, order) => e.node source.toList lineOffset order := by
  unfold Index.ofSource spansOf
  dsimp only
  cases parseTrees (mask source.toList) with
  | ok trees => rfl
  | error error => rfl

end Mooring.Markup
