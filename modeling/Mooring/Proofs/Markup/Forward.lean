import Mooring.Proofs.Markup.Order
import Mooring.Proofs.Markup.Reported

/-!
# Reading goes forward

Whatever the reader makes of a place, it goes on with an end of the text from there on, and it
starts an element only where a `<` stands, taking some of the text for it (`Taken`,
`onward_readAt`).  This is shown construct by construct, from the parts of a start tag
(`suffix_startTagEnd`) to whatever may begin at a place.
-/

namespace Mooring.Markup

open Mooring.Text

/-! ## The parts of a tag -/

theorem suffix_afterFirst? {p : Char → Bool} : ∀ {cs rest : List Char},
    afterFirst? p cs = some rest → rest <:+ cs
  | [], _, h => absurd h (by simp [afterFirst?])
  | c :: cs, rest, h => by
    rw [afterFirst?] at h
    split at h
    · exact Option.some.inj h ▸ List.suffix_cons c cs
    · exact (suffix_afterFirst? h).trans (List.suffix_cons c cs)

theorem suffix_splitBefore? {p : Char → Bool} : ∀ {cs before after : List Char},
    splitBefore? p cs = some (before, after) → after <:+ cs
  | [], _, _, h => absurd h (by simp [splitBefore?])
  | c :: rest, before, after, h => by
    rw [splitBefore?] at h
    split at h
    · obtain rfl := (Prod.mk.inj (Option.some.inj h)).2
      exact List.suffix_refl _
    · obtain ⟨⟨before', after'⟩, hsplit, heq⟩ := Option.map_eq_some_iff.mp h
      rw [← (Prod.mk.inj heq).2]
      exact (suffix_splitBefore? hsplit).trans (List.suffix_cons c rest)

theorem suffix_skip (p : Char → Bool) (previous : Char) (cs : List Char) :
    (Cursor.skip p previous cs).rest <:+ cs := by
  induction cs generalizing previous with
  | nil => exact List.suffix_refl _
  | cons c rest ih =>
    rw [Cursor.skip]
    split
    · exact (ih c).trans (List.suffix_cons c rest)
    · exact List.suffix_refl _

theorem suffix_elementName? {cs name : List Char} {cursor : Cursor}
    (h : elementName? cs = some (name, cursor)) : cursor.rest <:+ cs := by
  unfold elementName? at h
  split at h
  next => exact absurd h (by simp)
  next c rest =>
    split at h
    · rw [← (Prod.mk.inj (Option.some.inj h)).2]
      exact (suffix_skip _ c rest).trans (List.suffix_cons c rest)
    · exact absurd h (by simp)

theorem suffix_quotedValue? {cs value : List Char} {cursor : Cursor}
    (h : quotedValue? cs = some (value, cursor)) : cursor.rest <:+ cs := by
  unfold quotedValue? at h
  split at h
  next quote rest =>
    split at h
    · obtain ⟨⟨inner, after⟩, hsplit, heq⟩ := Option.map_eq_some_iff.mp h
      rw [← (Prod.mk.inj heq).2]
      exact ((List.drop_suffix 1 after).trans (suffix_splitBefore? hsplit)).trans
        (List.suffix_cons quote rest)
    · exact absurd h (by simp)
  next => exact absurd h (by simp)

theorem suffix_value? {cs value : List Char} {cursor : Cursor}
    (h : value? cs = some (value, cursor)) : cursor.rest <:+ cs := by
  have hvalue := ((suffix_skip isBlank '=' ((cs.dropWhile isBlank).dropWhile (· == '='))).trans
    (List.dropWhile_suffix (· == '='))).trans (List.dropWhile_suffix (l := cs) isBlank)
  unfold value? at h
  dsimp only at h
  generalize Cursor.skip isBlank '=' ((cs.dropWhile isBlank).dropWhile (· == '=')) = at_ at *
  have hbare : ∀ previous, (bareValue previous at_.rest).2.rest <:+ cs := fun previous =>
    (suffix_skip isBareChar previous at_.rest).trans hvalue
  split at h
  · exact absurd h (by simp)
  · split at h
    · rw [← (Prod.mk.inj (Option.some.inj h)).2]
      exact hbare _
    · split at h
      next found hfound =>
        obtain rfl := Option.some.inj h
        exact (suffix_quotedValue? hfound).trans hvalue
      next =>
        split at h
        · rw [← (Prod.mk.inj (Option.some.inj h)).2]
          exact hvalue
        · split at h
          · rw [← (Prod.mk.inj (Option.some.inj h)).2]
            exact hbare _
          · exact absurd h (by simp)

/-- An attribute takes up the first character of the text at least. -/
theorem suffix_attribute? {cursor : Cursor} {found : ReadAttribute}
    (h : attribute? cursor = some found) :
    ∃ c rest, cursor.rest = c :: rest ∧ found.after.rest <:+ rest := by
  unfold attribute? at h
  dsimp only at h
  split at h
  · exact absurd h (by simp)
  · split at h
    · exact absurd h (by simp)
    next c rest hrest =>
      have hname := suffix_skip isAttributeNameChar c rest
      refine ⟨c, rest, hrest, ?_⟩
      split at h
      · exact absurd h (by simp)
      · split at h
        next value cursor hvalue =>
          rw [← Option.some.inj h]
          exact ((suffix_skipGaps _ _).trans (suffix_value? hvalue)).trans hname
        next =>
          rw [← Option.some.inj h]
          exact (suffix_skipGaps _ _).trans hname

theorem suffix_attributes (stop : Nat) : ∀ (fuel : Nat) (cursor : Cursor),
    (attributes stop fuel cursor).2.rest <:+ cursor.rest
  | 0, _ => List.suffix_refl _
  | fuel + 1, cursor => by
    rw [attributes]
    split
    · exact List.suffix_refl _
    · split
      · exact List.suffix_refl _
      next found hfound =>
        obtain ⟨c, rest, hrest, hafter⟩ := suffix_attribute? hfound
        rw [hrest]
        exact ((suffix_attributes stop fuel found.after).trans hafter).trans (List.suffix_cons c rest)

/-- The end of a start tag lies behind its name. -/
theorem suffix_startTagEnd {cursor : Cursor} {rest : List Char}
    (h : startTagEnd cursor = .before rest) : rest <:+ cursor.rest := by
  unfold startTagEnd at h
  dsimp only at h
  have hgap := suffix_skip (fun c => isBlank c || c == '/') cursor.previous cursor.rest
  generalize Cursor.skip (fun c => isBlank c || c == '/') cursor.previous cursor.rest = gap at *
  have hattributes := suffix_attributes 0 gap.rest.length gap
  generalize (attributes 0 gap.rest.length gap).2 = after at *
  have hblanks := ((List.dropWhile_suffix isBlank).trans hattributes).trans hgap
  split at h
  · exact absurd h (by simp)
  next more heq =>
    rw [heq] at hblanks
    exact TagEnd.before.inj h ▸ (List.suffix_cons _ more).trans hblanks
  next more heq =>
    rw [heq] at hblanks
    exact TagEnd.before.inj h ▸
      ((List.suffix_cons _ more).trans (List.suffix_cons _ _)).trans hblanks
  next c more _ _ heq =>
    split at h
    · exact absurd h (by simp)
    · rw [heq] at hblanks
      exact TagEnd.before.inj h ▸ hblanks

/-- What follows a start tag, or what is taken for one, lies behind its first character. -/
theorem suffix_readStartTag {c : Char} {cs rest : List Char}
    (h : (∃ tag, readStartTag (c :: cs) = .tag tag rest) ∨
      ∃ literal, readStartTag (c :: cs) = .text literal rest) : rest <:+ cs := by
  unfold readStartTag at h
  split at h
  next => exact absurd h (by simp)
  next name cursor hname =>
    split at h
    next => exact absurd h (by simp)
    next found hend =>
      dsimp only at h
      have hsame : found = rest := by
        split at h
        · obtain ⟨tag, htag⟩ | ⟨literal, hliteral⟩ := h
          · exact (StartTag.tag.inj htag).2
          · exact StartTag.noConfusion hliteral
        · obtain ⟨tag, htag⟩ | ⟨literal, hliteral⟩ := h
          · exact StartTag.noConfusion htag
          · exact (StartTag.text.inj hliteral).2
      exact hsame ▸ (suffix_startTagEnd hend).trans (suffix_elementName? hname)

/-! ## The ends of constructs -/

theorem suffix_afterBlanksAnd? {c : Char} {cs rest : List Char}
    (h : afterBlanksAnd? c cs = some rest) : rest <:+ cs := by
  unfold afterBlanksAnd? at h
  split at h
  next d more heq =>
    split at h
    · refine Option.some.inj h ▸ (List.suffix_cons d more).trans ?_
      exact heq ▸ List.dropWhile_suffix isBlank
    · exact absurd h (by simp)
  next => exact absurd h (by simp)

/-- The text after a construct's end lies behind it, if the end does. -/
theorem suffix_splitAtClose? {closes : List Char → Option (List Char)}
    (hcloses : ∀ cs after, closes cs = some after → after <:+ cs) :
    ∀ {cs before after : List Char}, splitAtClose? closes cs = some (before, after) → after <:+ cs
  | [], _, _, h => absurd h (by simp [splitAtClose?])
  | c :: rest, before, after, h => by
    rw [splitAtClose?] at h
    split at h
    next found hfound =>
      rw [← (Prod.mk.inj (Option.some.inj h)).2]
      exact hcloses _ _ hfound
    next =>
      obtain ⟨⟨before', after'⟩, hsplit, heq⟩ := Option.map_eq_some_iff.mp h
      rw [← (Prod.mk.inj heq).2]
      exact (suffix_splitAtClose? hcloses hsplit).trans (List.suffix_cons c rest)

theorem suffix_closesComment? (cs after : List Char) (h : closesComment? cs = some after) :
    after <:+ cs := by
  unfold closesComment? at h
  split at h
  next rest =>
    exact (suffix_afterBlanksAnd? h).trans
      ((List.suffix_cons _ rest).trans (List.suffix_cons _ _))
  next => exact absurd h (by simp)

theorem suffix_closesShortSection? (cs after : List Char)
    (h : closesShortSection? cs = some after) : after <:+ cs := by
  unfold closesShortSection? at h
  split at h
  next rest => exact (suffix_afterBlanksAnd? h).trans (List.suffix_cons _ rest)
  next => exact absurd h (by simp)

theorem suffix_closesSection? (cs after : List Char) (h : closesSection? cs = some after) :
    after <:+ cs := by
  unfold closesSection? at h
  split at h
  next rest =>
    obtain ⟨middle, hmiddle, hafter⟩ := Option.bind_eq_some_iff.mp h
    exact ((suffix_afterBlanksAnd? hafter).trans (suffix_afterBlanksAnd? hmiddle)).trans
      (List.suffix_cons _ rest)
  next => exact absurd h (by simp)

theorem suffix_regularEndTag? {cs name after : List Char}
    (h : regularEndTag? cs = some (name, after)) : after <:+ cs := by
  unfold regularEndTag? at h
  split at h
  next c rest hcons =>
    have hrest : rest <:+ cs := (List.suffix_cons c rest).trans
      (hcons ▸ (List.dropWhile_suffix isBlank).trans (List.drop_suffix 2 cs))
    split at h
    · obtain ⟨found, hfound, heq⟩ := Option.map_eq_some_iff.mp h
      rw [← (Prod.mk.inj heq).2]
      exact ((suffix_afterBlanksAnd? hfound).trans
        (List.dropWhile_suffix isEndNameChar)).trans hrest
    · exact absurd h (by simp)
  next => exact absurd h (by simp)

/-! ## What is read at a place -/

/-- The events start no element. -/
def Quiet (events : List Event) : Prop :=
  ∀ event ∈ events, event.element? = none

/-- What the reader takes of a text at a place: it leaves an end of the text.  The events start no
element, or they start one there and do nothing else, and then its start tag, with a `<`, is what is
taken. -/
structure Taken (offset : Nat) (cs : List Char) (events : List Event) (rest : List Char) :
    Prop where
  suffix : rest <:+ cs
  starts : Quiet events ∨ ∃ tag, events = [.start tag offset] ∧ readStartTag cs = .tag tag rest ∧
    cs.head? = some '<' ∧ rest.length < cs.length

/-- A construct at a place takes from the text there. -/
def Construct.Onward (offset : Nat) (cs : List Char) : Construct → Prop
  | .read events _ rest => Taken offset cs events rest
  | _ => True

/-- A step at a place takes from the text there. -/
def Step.Onward (offset : Nat) (cs : List Char) : Step → Prop
  | .next events _ rest => Taken offset cs events rest
  | .stop events rest => Taken offset cs events rest
  | .failed _ => True

variable {offset : Nat} {cs rest : List Char}

theorem Taken.nothing (h : rest <:+ cs) : Taken offset cs [] rest :=
  ⟨h, .inl (by simp [Quiet])⟩

theorem Taken.text (text : List Char) (h : rest <:+ cs) : Taken offset cs [.text text] rest :=
  ⟨h, .inl (List.forall_mem_singleton.mpr rfl)⟩

theorem Taken.separateText (text : List Char) (h : rest <:+ cs) :
    Taken offset cs [.separateText text] rest :=
  ⟨h, .inl (List.forall_mem_singleton.mpr rfl)⟩

theorem quiet_cut : Quiet [.cut] :=
  List.forall_mem_singleton.mpr rfl

theorem quiet_finish (name : String) : Quiet [.finish name] :=
  List.forall_mem_singleton.mpr rfl

theorem quiet_textEvents (text : List Char) : Quiet (textEvents text) := by
  unfold textEvents
  split <;> simp [Quiet, Event.element?]

theorem onward_readToEnd {events : List Event} (h : Quiet events) (hrest : rest <:+ cs) :
    (readToEnd events rest).Onward offset cs := by
  unfold readToEnd
  split
  next after hafter => exact ⟨(suffix_afterFirst? hafter).trans hrest, .inl h⟩
  next => trivial

theorem onward_readSection (offset : Nat) (cs : List Char) :
    (readSection cs).Onward offset cs := by
  have hbody := List.drop_suffix 3 cs
  unfold readSection
  dsimp only
  split
  · trivial
  next c rest hcons =>
    split
    · trivial
    · split
      · trivial
      · split
        · trivial
        · trivial
        next inner after hclose =>
          -- Both ends of a section lie behind what they end.
          have hafter : after <:+ cs.drop 3 := by
            split at hclose
            · exact suffix_splitAtClose? suffix_closesSection? (Option.some.inj hclose)
            · split at hclose
              · exact suffix_splitAtClose? suffix_closesShortSection? (Option.some.inj hclose)
              · exact absurd hclose (by simp)
          split
          · exact .separateText _ (hafter.trans hbody)
          · exact ⟨hafter.trans hbody, .inl quiet_cut⟩

theorem onward_readEndTag (offset : Nat) (raw : Option String) (cs : List Char) :
    (readEndTag raw cs).Onward offset cs := by
  have hdrop := List.drop_suffix 2 cs
  unfold readEndTag
  split
  · trivial
  next afterMark hmark =>
    have hafter := (suffix_afterFirst? hmark).trans (List.drop_suffix 1 cs)
    dsimp only
    split
    next name after hregular =>
      split
      · exact .text _ hafter
      · exact ⟨suffix_regularEndTag? hregular, .inl (quiet_finish _)⟩
    next =>
      split
      · exact .text _ hafter
      · split
        next name cursor hname =>
          exact onward_readToEnd (quiet_finish _) ((suffix_elementName? hname).trans hdrop)
        next =>
          split
          next after heq => exact .nothing ((List.suffix_cons _ after).trans (heq ▸ hdrop))
          next other hother => exact onward_readToEnd quiet_cut hdrop

theorem onward_readStart (offset : Nat) (rest : List Char) :
    (readStart offset ('<' :: rest)).Onward offset ('<' :: rest) := by
  unfold readStart
  split
  next => trivial
  next literal after hread =>
    exact .text _ ((suffix_readStartTag (.inr ⟨literal, hread⟩)).trans (List.suffix_cons _ rest))
  next tag after hread =>
    have hsuffix := suffix_readStartTag (.inl ⟨tag, hread⟩)
    exact ⟨hsuffix.trans (List.suffix_cons _ rest),
      .inr ⟨tag, rfl, hread, rfl, Nat.lt_succ_of_le hsuffix.length_le⟩⟩

theorem onward_readMarkup? {raw : Option String} {construct : Construct}
    (h : readMarkup? offset raw cs = some construct) : construct.Onward offset cs := by
  unfold readMarkup? at h
  split at h
  next => exact Option.some.inj h ▸ onward_readEndTag offset raw _
  next rest =>
    rw [← Option.some.inj h]
    split
    next before after hsplit =>
      exact ⟨(suffix_splitAtClose? suffix_closesComment? hsplit).trans
        (List.drop_suffix 4 ('<' :: '!' :: '-' :: '-' :: rest)), .inl quiet_cut⟩
    next => trivial
  next rest =>
    exact Option.some.inj h ▸
      onward_readToEnd quiet_cut (List.drop_suffix 2 ('<' :: '?' :: rest))
  next => exact Option.some.inj h ▸ onward_readSection offset _
  next rest _ _ =>
    have hrest := List.drop_suffix 2 ('<' :: '!' :: rest)
    split at h
    · exact Option.some.inj h ▸ onward_readToEnd quiet_cut ((List.drop_suffix 7 rest).trans hrest)
    · exact Option.some.inj h ▸ onward_readToEnd quiet_cut hrest
  next =>
    split at h
    · exact Option.some.inj h ▸ onward_readStart offset _
    · exact absurd h (by simp)
  next => exact absurd h (by simp)

/-! ## References and text -/

theorem suffix_afterSemicolon (cs : List Char) : afterSemicolon cs <:+ cs := by
  unfold afterSemicolon
  split
  next rest => exact List.suffix_cons _ rest
  next => exact List.suffix_refl _

theorem suffix_numericReference? {after : List Char} {n : Nat}
    (h : numericReference? cs = some (n, after)) : after <:+ cs := by
  have hbody := List.drop_suffix 2 cs
  have hfinish : ∀ {rest : List Char} {m : Nat}, some (m, afterSemicolon rest) = some (n, after) →
      after <:+ rest := fun {rest m} hsome => by
    rw [← (Prod.mk.inj (Option.some.inj hsome)).2]
    exact suffix_afterSemicolon rest
  unfold numericReference? at h
  dsimp only at h
  split at h
  · split at h
    · exact absurd h (by simp)
    · split at h
      · exact absurd h (by simp)
      · exact ((hfinish h).trans (List.dropWhile_suffix isAsciiDigit)).trans hbody
  · split at h
    next x rest hcons =>
      rw [hcons] at hbody
      split at h
      · split at h
        · exact absurd h (by simp)
        · split at h
          · exact absurd h (by simp)
          · exact ((hfinish h).trans (List.dropWhile_suffix isHexDigit)).trans
              ((List.suffix_cons x rest).trans hbody)
      · exact absurd h (by simp)
    next => exact absurd h (by simp)

theorem suffix_namedReference? {name after : List Char}
    (h : namedReference? cs = some (name, after)) : after <:+ cs := by
  have hbody := List.drop_suffix 1 cs
  unfold namedReference? at h
  split at h
  next c rest hcons =>
    rw [hcons] at hbody
    have hrest := (List.suffix_cons c rest).trans hbody
    split at h
    · exact absurd h (by simp)
    · dsimp only at h
      split at h
      next d more hmore =>
        rw [← (Prod.mk.inj (Option.some.inj h)).2]
        exact ((suffix_afterSemicolon _).trans (hmore ▸ List.dropWhile_suffix _)).trans hrest
      next hall =>
        split at h
        · -- Nothing follows the name, so it is all of the text.
          have hname : rest.takeWhile isEntityChar = rest := by
            have happend := List.takeWhile_append_dropWhile (p := isEntityChar) (l := rest)
            rwa [hall, List.append_nil] at happend
          rw [← (Prod.mk.inj (Option.some.inj h)).2, hname]
          exact (List.drop_suffix _ rest).trans hrest
        · exact absurd h (by simp)
  next => exact absurd h (by simp)

theorem onward_readReference (offset : Nat) (final : Bool) (cs : List Char) :
    (readReference final cs).Onward offset cs := by
  unfold readReference
  split
  next rest =>
    split
    next n after hnumber => exact .text _ (suffix_numericReference? hnumber)
    next =>
      split
      · exact .text _ (List.drop_suffix 2 ('&' :: '#' :: rest))
      · exact .nothing (List.suffix_refl _)
  next =>
    split
    next name after hname => exact .text _ (suffix_namedReference? hname)
    next =>
      have hdrop := List.drop_suffix 1 cs
      split
      next => exact .nothing (List.suffix_refl _)
      next c rest hcons =>
        rw [hcons] at hdrop
        split
        · refine .nothing ?_
          split
          next hempty =>
            rw [List.isEmpty_iff.mp (Bool.and_eq_true_iff.mp hempty).2] at hdrop
            exact hdrop
          next => exact List.suffix_refl _
        · exact .text _ hdrop

theorem suffix_takeAsText (cs : List Char) : (takeAsText cs).2 <:+ cs := by
  have hdrop := List.drop_suffix 1 cs
  unfold takeAsText
  dsimp only
  split
  next after hafter => exact (suffix_afterFirst? hafter).trans hdrop
  next =>
    split
    next before after hsplit => exact (suffix_splitBefore? hsplit).trans hdrop
    next => exact hdrop

/-- **Reading at a place goes forward**, and starts an element at that place or none. -/
theorem onward_readAt (final : Bool) (offset : Nat) (raw : Option String) (cs : List Char) :
    (readAt final offset raw cs).Onward offset cs := by
  unfold readAt
  split
  next =>
    split
    next =>
      split
      next => exact .nothing (List.suffix_refl _)
      next rest => exact .text _ (List.drop_suffix 1 cs)
    next hread => exact onward_readMarkup? hread
    next => trivial
    next =>
      split
      · exact .text _ (suffix_takeAsText cs)
      · exact .nothing (List.suffix_refl _)
  next => exact onward_readReference offset final cs

theorem suffix_splitBeforeRawClose? {name : List Char} : ∀ {cs before here : List Char},
    splitBeforeRawClose? name cs = some (before, here) → here <:+ cs
  | [], _, _, h => absurd h (by simp [splitBeforeRawClose?])
  | c :: rest, before, here, h => by
    rw [splitBeforeRawClose?] at h
    split at h
    · obtain rfl := (Prod.mk.inj (Option.some.inj h)).2
      exact List.suffix_refl _
    · obtain ⟨⟨before', here'⟩, hsplit, heq⟩ := Option.map_eq_some_iff.mp h
      rw [← (Prod.mk.inj heq).2]
      exact (suffix_splitBeforeRawClose? hsplit).trans (List.suffix_cons c rest)

theorem suffix_splitBeforeMarkup? {raw : Option String} {before here : List Char}
    (h : splitBeforeMarkup? raw cs = some (before, here)) : here <:+ cs := by
  unfold splitBeforeMarkup? at h
  split at h
  next name => exact suffix_splitBeforeRawClose? h
  next =>
    cases hsplit : splitBefore? (fun c => c == '<' || c == '&') cs with
    | none =>
      rw [hsplit, Option.getD_none] at h
      rw [← (Prod.mk.inj (Option.some.inj h)).2]
      exact List.nil_suffix
    | some parts =>
      rw [hsplit, Option.getD_some] at h
      obtain rfl := Option.some.inj h
      exact suffix_splitBefore? hsplit

end Mooring.Markup
