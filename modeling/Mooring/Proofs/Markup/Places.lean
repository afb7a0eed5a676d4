import Mooring.Proofs.Markup.Forward

/-!
# Where events stand

The events of a document with the place behind what each of them was read from (`placedOf`).  They
are the events that the document has (`eventsOf_eq`), and the reader never goes back: what is read
later stands behind what was read before (`ascending_placedOf`).

An element starts where a `<` stands, and its start tag takes up some of the text.  So the elements
of a document's forest have places of their own, in document order (`sited_parseTrees`).
-/

namespace Mooring.Markup

open Mooring.Text

/-! ## Events in their places -/

/-- An event with the place behind what it was read from. -/
structure Placed where
  event : Event
  stop : Nat

/-- Some events with the place where this rest of a text of this size begins. -/
def placeAt (size : Nat) (rest : List Char) (events : List Event) : List Placed :=
  events.map (⟨·, size - rest.length⟩)

/-- Goes over a text once and says for each event where it was read. -/
def passPlaced (final : Bool) (size : Nat) : Nat → Option String → List Char →
    Except MarkupError (List Placed × Option String × List Char)
  | 0, raw, cs => .ok ([], raw, cs)
  | fuel + 1, raw, cs =>
    if cs.isEmpty then .ok ([], raw, [])
    else
      match splitBeforeMarkup? raw cs with
      | none => .ok ([], raw, cs)
      | some (before, here) =>
        let text := placeAt size here (textEvents before)
        if here.isEmpty then .ok (text, raw, [])
        else
          match readAt final (size - here.length) raw here with
          | .failed error => .error error
          | .stop events rest => .ok (text ++ placeAt size rest events, raw, rest)
          | .next events raw rest =>
            (passPlaced final size fuel raw rest).map fun (later, raw, left) =>
              (text ++ placeAt size rest events ++ later, raw, left)

/-- The events of a document in their places. -/
def placedOf (cs : List Char) : Except MarkupError (List Placed) := do
  let (first, raw, rest) ← passPlaced false cs.length (cs.length + 1) none cs
  let (second, raw, rest) ← passPlaced true cs.length (rest.length + 1) raw rest
  let left := if raw.isSome then [] else placeAt cs.length [] (textEvents rest)
  return first ++ second ++ left

theorem map_event_placeAt (size : Nat) (rest : List Char) (events : List Event) :
    (placeAt size rest events).map Placed.event = events := by
  rw [placeAt, List.map_map]
  exact List.map_id _

theorem pass_eq (final : Bool) (size : Nat) : ∀ (fuel : Nat) (raw : Option String)
    (cs : List Char), pass final size fuel raw cs =
      (passPlaced final size fuel raw cs).map fun (placed, raw, rest) =>
        ⟨placed.map Placed.event, raw, rest⟩
  | 0, _, _ => rfl
  | fuel + 1, raw, cs => by
    rw [pass, passPlaced]
    split
    · rfl
    · cases splitBeforeMarkup? raw cs with
      | none => rfl
      | some parts =>
        obtain ⟨before, here⟩ := parts
        dsimp only
        split
        · simp [Except.map, map_event_placeAt]
        · cases readAt final (size - here.length) raw here with
          | failed error => rfl
          | stop events rest => simp [Except.map, map_event_placeAt]
          | next events raw rest =>
            dsimp only
            rw [pass_eq final size fuel raw rest]
            cases passPlaced final size fuel raw rest with
            | error error => rfl
            | ok later => simp [Except.map, map_event_placeAt, bind, Except.bind, pure, Except.pure]

/-- **The events in their places are the events of the document.** -/
theorem eventsOf_eq (cs : List Char) :
    eventsOf cs = (placedOf cs).map (·.map Placed.event) := by
  unfold eventsOf placedOf
  rw [pass_eq]
  cases passPlaced false cs.length (cs.length + 1) none cs with
  | error error => rfl
  | ok first =>
    obtain ⟨first, raw, rest⟩ := first
    simp only [Except.map, bind, Except.bind]
    rw [pass_eq]
    cases passPlaced true cs.length (rest.length + 1) raw rest with
    | error error => rfl
    | ok second =>
      obtain ⟨second, raw, rest⟩ := second
      simp only [Except.map, pure, Except.pure, List.map_append]
      split <;> simp [map_event_placeAt]

/-! ## Places ascend -/

/-- The event was read behind a place. -/
structure Placed.Behind (p : Placed) (lo : Nat) : Prop where
  stop : lo ≤ p.stop
  start : ∀ tag offset, p.event = .start tag offset → lo ≤ offset ∧ offset ≤ p.stop

/-- The events were read one behind the other, between two places. -/
def Ascending (lo : Nat) : List Placed → Nat → Prop
  | [], hi => lo ≤ hi
  | p :: later, hi => p.Behind lo ∧ Ascending p.stop later hi

namespace Ascending

theorem le : ∀ {placed : List Placed} {lo hi : Nat}, Ascending lo placed hi → lo ≤ hi
  | [], _, _, h => h
  | _ :: _, _, _, h => Nat.le_trans h.1.stop h.2.le

theorem mono_left {placed : List Placed} {lo lo' hi : Nat} (hlo : lo' ≤ lo)
    (h : Ascending lo placed hi) : Ascending lo' placed hi := by
  cases placed with
  | nil => exact Nat.le_trans hlo h
  | cons p later =>
    refine ⟨⟨Nat.le_trans hlo h.1.stop, fun tag offset hevent => ?_⟩, h.2⟩
    obtain ⟨hstart, hstop⟩ := h.1.start tag offset hevent
    exact ⟨Nat.le_trans hlo hstart, hstop⟩

theorem append_iff : ∀ {placed later : List Placed} {lo hi : Nat},
    Ascending lo (placed ++ later) hi ↔ ∃ mid, Ascending lo placed mid ∧ Ascending mid later hi
  | [], later, lo, hi =>
    ⟨fun h => ⟨lo, Nat.le_refl lo, h⟩, fun ⟨_, hmid, h⟩ => h.mono_left hmid⟩
  | p :: placed, later, lo, hi => by
    rw [List.cons_append, Ascending, append_iff]
    constructor
    · rintro ⟨hp, mid, hplaced, hlater⟩
      exact ⟨mid, ⟨hp, hplaced⟩, hlater⟩
    · rintro ⟨mid, ⟨hp, hplaced⟩, hlater⟩
      exact ⟨hp, mid, hplaced, hlater⟩

end Ascending

/-- The element is what the start tag at its place says, which begins with a `<`. -/
structure Element.Sited (e : Element) (source : List Char) : Prop where
  opens : source[e.offset]? = some '<'
  read : ∃ tag rest, readStartTag (source.drop e.offset) = .tag tag rest ∧ e = tag.element e.offset

theorem Element.Sited.lt {e : Element} {source : List Char} (h : e.Sited source) :
    e.offset < source.length :=
  (List.getElem?_eq_some_iff.mp h.opens).1

/-- Each element that the events start has its start tag in the source, and was read from some of
the text there. -/
def Sited (source : List Char) (placed : List Placed) : Prop :=
  ∀ p ∈ placed, ∀ e, p.event.element? = some e → e.Sited source ∧ e.offset < p.stop

/-- The events were read one behind the other from a source, between two places. -/
structure ReadAlong (source : List Char) (lo : Nat) (placed : List Placed) (hi : Nat) : Prop where
  ascending : Ascending lo placed hi
  sited : Sited source placed

namespace ReadAlong

variable {source cs rest : List Char} {lo mid hi : Nat} {placed later : List Placed}

theorem nil (h : lo ≤ hi) : ReadAlong source lo [] hi :=
  ⟨h, by simp [Sited]⟩

theorem append (h : ReadAlong source lo placed mid) (hlater : ReadAlong source mid later hi) :
    ReadAlong source lo (placed ++ later) hi :=
  ⟨Ascending.append_iff.mpr ⟨mid, h.ascending, hlater.ascending⟩, fun p hp =>
    (List.mem_append.mp hp).elim (h.sited p) (hlater.sited p)⟩

/-- Events that start no element are in order wherever they were read. -/
theorem placeAt_quiet : ∀ {lo : Nat} {events : List Event}, Quiet events →
    lo ≤ source.length - rest.length →
    ReadAlong source lo (placeAt source.length rest events) (source.length - rest.length)
  | _, [], _, hlo => .nil hlo
  | _, event :: events, h, hlo => by
    obtain ⟨hevent, hevents⟩ := List.forall_mem_cons.mp h
    have hnone : ∀ tag offset, event ≠ .start tag offset := by
      rintro tag offset rfl
      exact absurd hevent (by simp [Event.element?])
    have hlater := placeAt_quiet hevents (Nat.le_refl (source.length - rest.length))
    exact ⟨⟨⟨hlo, fun tag offset heq => absurd heq (hnone tag offset)⟩, hlater.ascending⟩,
      List.forall_mem_cons.mpr ⟨fun e he => absurd (hevent.symm.trans he) (by simp),
        hlater.sited⟩⟩

/-- What is taken of a text is read from the place where the text begins. -/
theorem placeAt {events : List Event} (hcs : cs <:+ source)
    (h : Taken (source.length - cs.length) cs events rest) :
    ReadAlong source (source.length - cs.length) (placeAt source.length rest events)
      (source.length - rest.length) := by
  have hrest := h.suffix.length_le
  have hlength := hcs.length_le
  obtain hquiet | ⟨tag, rfl, hread, hhead, hless⟩ := h.starts
  · exact placeAt_quiet hquiet (by omega)
  · obtain ⟨before, rfl⟩ := hcs
    have hplace : (before ++ cs).length - cs.length = before.length := by
      rw [List.length_append, Nat.add_sub_cancel]
    have hhere : (before ++ cs).drop ((before ++ cs).length - cs.length) = cs := by
      rw [hplace, List.drop_left]
    refine ⟨⟨⟨by dsimp only; omega, fun tag' offset heq => ?_⟩, Nat.le_refl _⟩,
      List.forall_mem_singleton.mpr fun e he => ?_⟩
    · obtain ⟨-, rfl⟩ := Event.start.inj heq
      exact ⟨Nat.le_refl _, by dsimp only; omega⟩
    · obtain rfl := Option.some.inj he
      refine ⟨⟨?_, tag, rest, ?_, rfl⟩, ?_⟩
      · rw [← List.head?_drop, ReadTag.element, hhere, hhead]
      · rw [ReadTag.element, hhere, hread]
      · rw [ReadTag.element]
        dsimp only
        omega

end ReadAlong

/-- A pass goes forward, event by event. -/
theorem readAlong_passPlaced {source : List Char} (final : Bool) : ∀ (fuel : Nat)
    (raw : Option String) (cs : List Char) {placed : List Placed} {raw' : Option String}
    {left : List Char}, passPlaced final source.length fuel raw cs = .ok (placed, raw', left) →
    cs <:+ source →
    ReadAlong source (source.length - cs.length) placed (source.length - left.length) ∧ left <:+ cs
  | 0, raw, cs, placed, raw', left, h, _ => by
    obtain ⟨rfl, hends⟩ := Prod.mk.inj (Except.ok.inj h)
    obtain ⟨-, rfl⟩ := Prod.mk.inj hends
    exact ⟨.nil (Nat.le_refl _), List.suffix_refl _⟩
  | fuel + 1, raw, cs, placed, raw', left, h, hsource => by
    rw [passPlaced] at h
    split at h
    next hempty =>
      obtain ⟨rfl, hends⟩ := Prod.mk.inj (Except.ok.inj h)
      obtain ⟨-, rfl⟩ := Prod.mk.inj hends
      exact ⟨.nil (by rw [List.isEmpty_iff.mp hempty]), List.nil_suffix⟩
    next =>
      cases hsplit : splitBeforeMarkup? raw cs with
      | none =>
        rw [hsplit] at h
        obtain ⟨rfl, hends⟩ := Prod.mk.inj (Except.ok.inj h)
        obtain ⟨-, rfl⟩ := Prod.mk.inj hends
        exact ⟨.nil (Nat.le_refl _), List.suffix_refl _⟩
      | some parts =>
        obtain ⟨before, here⟩ := parts
        rw [hsplit] at h
        dsimp only at h
        have hhere := suffix_splitBeforeMarkup? hsplit
        have hlength := hhere.length_le
        have htext : ReadAlong source (source.length - cs.length)
            (placeAt source.length here (textEvents before)) (source.length - here.length) :=
          .placeAt_quiet (quiet_textEvents before) (by omega)
        split at h
        next hempty =>
          obtain ⟨rfl, hends⟩ := Prod.mk.inj (Except.ok.inj h)
          obtain ⟨-, rfl⟩ := Prod.mk.inj hends
          rw [List.isEmpty_iff.mp hempty] at htext ⊢
          exact ⟨htext, List.nil_suffix⟩
        next =>
          have honward := onward_readAt final (source.length - here.length) raw here
          cases hstep : readAt final (source.length - here.length) raw here with
          | failed error => rw [hstep] at h; exact absurd h (by simp)
          | stop events rest =>
            rw [hstep] at h honward
            obtain ⟨rfl, hends⟩ := Prod.mk.inj (Except.ok.inj h)
            obtain ⟨-, rfl⟩ := Prod.mk.inj hends
            exact ⟨htext.append (.placeAt (hhere.trans hsource) honward),
              honward.suffix.trans hhere⟩
          | next events raw'' rest =>
            rw [hstep] at h honward
            dsimp only at h
            cases hlater : passPlaced final source.length fuel raw'' rest with
            | error error => rw [hlater] at h; exact absurd h (by simp [Except.map])
            | ok later =>
              obtain ⟨later, raw₁, left₁⟩ := later
              rw [hlater] at h
              simp only [Except.map, Except.ok.injEq, Prod.mk.injEq] at h
              obtain ⟨rfl, -, rfl⟩ := h
              have hrest := honward.suffix.trans hhere
              obtain ⟨halong, hleft⟩ :=
                readAlong_passPlaced final fuel raw'' rest hlater (hrest.trans hsource)
              exact ⟨(htext.append (.placeAt (hhere.trans hsource) honward)).append halong,
                hleft.trans hrest⟩

theorem readAlong_placedOf {cs : List Char} {placed : List Placed} (h : placedOf cs = .ok placed) :
    ReadAlong cs 0 placed cs.length := by
  unfold placedOf at h
  cases hfirst : passPlaced false cs.length (cs.length + 1) none cs with
  | error error => rw [hfirst] at h; exact absurd h (by simp [bind, Except.bind])
  | ok first =>
    obtain ⟨first, raw, rest⟩ := first
    rw [hfirst] at h
    simp only [bind, Except.bind] at h
    cases hsecond : passPlaced true cs.length (rest.length + 1) raw rest with
    | error error => rw [hsecond] at h; exact absurd h (by simp)
    | ok second =>
      obtain ⟨second, raw₂, rest₂⟩ := second
      rw [hsecond] at h
      obtain ⟨hfirstAlong, hrest⟩ := readAlong_passPlaced _ _ _ _ hfirst (List.suffix_refl _)
      obtain ⟨hsecondAlong, hrest₂⟩ := readAlong_passPlaced _ _ _ _ hsecond hrest
      rw [Nat.sub_self] at hfirstAlong
      rw [← Except.ok.inj h]
      refine (hfirstAlong.append hsecondAlong).append ?_
      split
      · exact .nil (Nat.sub_le _ _)
      · exact .placeAt_quiet (quiet_textEvents rest₂) (Nat.sub_le _ _)

/-- **The reader never goes back**: events are read one behind the other. -/
theorem ascending_placedOf {cs : List Char} {placed : List Placed} (h : placedOf cs = .ok placed) :
    Ascending 0 placed cs.length :=
  (readAlong_placedOf h).ascending

/-! ## Elements in their places -/

theorem Placed.Behind.element {p : Placed} {lo : Nat} {e : Element} (h : p.Behind lo)
    (he : p.event.element? = some e) : lo ≤ e.offset := by
  cases hevent : p.event with
  | start tag offset =>
    rw [hevent] at he
    exact Option.some.inj he ▸ (h.start tag offset hevent).1
  | _ => exact absurd (hevent ▸ he) (by simp [Event.element?])

/-- Events that were read one behind the other start elements one behind the other. -/
theorem ReadAlong.elements {source : List Char} : ∀ {placed : List Placed} {lo hi : Nat},
    ReadAlong source lo placed hi →
    ((placed.map Placed.event).filterMap Event.element?).Pairwise (·.offset < ·.offset) ∧
      ∀ e ∈ (placed.map Placed.event).filterMap Event.element?, lo ≤ e.offset ∧ e.Sited source
  | [], _, _, _ => ⟨.nil, by simp⟩
  | p :: later, lo, hi, h => by
    obtain ⟨hp, hsited⟩ := List.forall_mem_cons.mp h.sited
    obtain ⟨hpairs, hplaces⟩ := ReadAlong.elements ⟨h.ascending.2, hsited⟩
    have hlater : ∀ e ∈ (later.map Placed.event).filterMap Event.element?,
        lo ≤ e.offset ∧ e.Sited source := fun e he =>
      ⟨Nat.le_trans h.ascending.1.stop (hplaces e he).1, (hplaces e he).2⟩
    rw [List.map_cons]
    cases helement : p.event.element? with
    | none =>
      rw [List.filterMap_cons_none helement]
      exact ⟨hpairs, hlater⟩
    | some e =>
      rw [List.filterMap_cons_some helement]
      obtain ⟨hsite, hstop⟩ := hp e helement
      have hbehind := fun d hd => Nat.lt_of_lt_of_le hstop (hplaces d hd).1
      exact ⟨List.pairwise_cons.mpr ⟨hbehind, hpairs⟩, List.forall_mem_cons.mpr
        ⟨⟨h.ascending.1.element helement, hsite⟩, hlater⟩⟩

/-- **The elements of a document's forest stand one behind the other**, each at a `<` and as its
start tag there says. -/
theorem sited_parseTrees {cs : List Char} {trees : List Tree} (h : parseTrees cs = .ok trees) :
    (elementsOf trees).Pairwise (·.offset < ·.offset) ∧ ∀ e ∈ elementsOf trees, e.Sited cs := by
  rw [parseTrees, eventsOf_eq] at h
  cases hplaced : placedOf cs with
  | error error => rw [hplaced] at h; exact absurd h (by simp [Except.map])
  | ok placed =>
    rw [hplaced] at h
    rw [← Except.ok.inj h, elementsOf_treesOf]
    obtain ⟨hpairs, hplaces⟩ := (readAlong_placedOf hplaced).elements
    exact ⟨hpairs, fun e he => (hplaces e he).2⟩

end Mooring.Markup
