import Mooring.Proofs.Markup.Forward

/-!
# A start tag reads alike when the text is cut off behind it

The reader looks ahead: a quote may be closed far behind the tag, and what it takes for the value
depends on that.  But where it comes to the end of a tag, it has not used anything behind it.  So
the tag reads alike if the text behind it, or some of it, is missing (`readStartTag_cut`).

Two things carry this.  Every part of a tag stops at a `>` at the latest, so as long as one is left
in the text, the scans for names, gaps and values without quotes see no farther (`skip_append`,
`skipGaps_append`).  And a value in quotes is read up to its closing quote, so either the quote is
in the text that is left, or the value takes up some of what is cut off (`value?_append`).
-/

namespace Mooring.Markup

open Mooring.Text

/-! ## More text behind a position -/

/-- The position, with more text behind. -/
def Cursor.extend (cursor : Cursor) (more : List Char) : Cursor :=
  ⟨cursor.previous, cursor.rest ++ more⟩

section

variable {p : Char → Bool} {cs : List Char}

theorem takeWhile_append_of_mem (hp : p '>' = false) (h : '>' ∈ cs) (more : List Char) :
    (cs ++ more).takeWhile p = cs.takeWhile p := by
  induction cs with
  | nil => exact absurd h List.not_mem_nil
  | cons c rest ih =>
    rw [List.cons_append, List.takeWhile_cons, List.takeWhile_cons]
    split
    next hc => rw [ih (List.mem_of_ne_of_mem (fun heq => by simp [← heq, hp] at hc) h)]
    next => rfl

theorem skip_append (hp : p '>' = false) (h : '>' ∈ cs) (previous : Char) (more : List Char) :
    Cursor.skip p previous (cs ++ more) = (Cursor.skip p previous cs).extend more ∧
      '>' ∈ (Cursor.skip p previous cs).rest := by
  induction cs generalizing previous with
  | nil => exact absurd h List.not_mem_nil
  | cons c rest ih =>
    rw [List.cons_append, Cursor.skip, Cursor.skip]
    split
    next hc => exact ih (List.mem_of_ne_of_mem (fun heq => by simp [← heq, hp] at hc) h) c
    next => exact ⟨rfl, h⟩

theorem dropWhile_append_of_mem (hp : p '>' = false) (h : '>' ∈ cs) (more : List Char) :
    (cs ++ more).dropWhile p = cs.dropWhile p ++ more ∧ '>' ∈ cs.dropWhile p := by
  induction cs with
  | nil => exact absurd h List.not_mem_nil
  | cons c rest ih =>
    rw [List.cons_append, List.dropWhile_cons, List.dropWhile_cons]
    split
    next hc => exact ih (List.mem_of_ne_of_mem (fun heq => by simp [← heq, hp] at hc) h)
    next => exact ⟨rfl, h⟩

end

variable {cs : List Char}

theorem skipGaps_append (h : '>' ∈ cs) (previous : Char) (more : List Char) :
    Cursor.skipGaps previous (cs ++ more) = (Cursor.skipGaps previous cs).extend more ∧
      '>' ∈ (Cursor.skipGaps previous cs).rest := by
  fun_induction Cursor.skipGaps previous cs with
  | case1 => exact absurd h List.not_mem_nil
  | case2 previous rest => exact ⟨rfl, h⟩
  | case3 previous c rest hne hc ih =>
    have hrest : '>' ∈ rest := List.mem_of_ne_of_mem (fun heq => by
      rw [← heq] at hc
      exact absurd hc (by decide)) h
    -- The slash before a `>` would be seen in the text that is left.
    have hsame : ∀ behind, c = '/' → rest ++ more = '>' :: behind → False := by
      intro behind hslash heq
      obtain ⟨d, after, rfl⟩ := List.exists_cons_of_ne_nil (List.ne_nil_of_mem hrest)
      exact hne after hslash (by rw [(List.cons.inj heq).1])
    rw [List.cons_append, Cursor.skipGaps.eq_3 _ _ _ hsame, if_pos hc]
    exact ih hrest
  | case4 previous c rest hne hc =>
    have hsame : ∀ behind, c = '/' → rest ++ more = '>' :: behind → False := by
      rintro behind rfl -
      exact hc (by simp)
    rw [List.cons_append, Cursor.skipGaps.eq_3 _ _ _ hsame, if_neg hc]
    exact ⟨rfl, h⟩

/-! ## The parts of a tag -/

theorem elementName?_append (h : '>' ∈ cs) (more : List Char) :
    elementName? (cs ++ more) =
      (elementName? cs).map fun (name, cursor) => (name, cursor.extend more) := by
  cases cs with
  | nil => exact absurd h List.not_mem_nil
  | cons c rest =>
    rw [List.cons_append, elementName?, elementName?]
    split
    next hc =>
      have hrest : '>' ∈ rest := List.mem_of_ne_of_mem (fun heq => by
        rw [← heq] at hc
        exact absurd hc (by decide)) h
      rw [takeWhile_append_of_mem (by decide) hrest, (skip_append (by decide) hrest c more).1]
      rfl
    next => rfl

theorem bareValue_append (h : '>' ∈ cs) (previous : Char) (more : List Char) :
    bareValue previous (cs ++ more) =
      ((bareValue previous cs).1, (bareValue previous cs).2.extend more) := by
  rw [bareValue, takeWhile_append_of_mem (by decide) h, (skip_append (by decide) h previous more).1]
  rfl

theorem splitBefore?_append (p : Char → Bool) (cs more : List Char) :
    splitBefore? p (cs ++ more) = match splitBefore? p cs with
      | some (before, after) => some (before, after ++ more)
      | none => (splitBefore? p more).map fun (before, after) => (cs ++ before, after) := by
  induction cs with
  | nil => simp [splitBefore?]
  | cons c rest ih =>
    rw [List.cons_append, splitBefore?, splitBefore?]
    split
    · rfl
    · rw [ih]
      cases splitBefore? p rest with
      | some parts => rfl
      | none => simp [Function.comp_def]

/-- The value that was read takes up some of the text that follows. -/
def TakesUp (more : List Char) (found : Option (List Char × Cursor)) : Prop :=
  ∃ value cursor, found = some (value, cursor) ∧ cursor.rest.length < more.length

theorem quotedValue?_append (hne : cs ≠ []) (more : List Char) :
    quotedValue? (cs ++ more) =
        (quotedValue? cs).map (fun (value, cursor) => (value, cursor.extend more)) ∨
      quotedValue? cs = none ∧ TakesUp more (quotedValue? (cs ++ more)) := by
  obtain ⟨quote, rest, rfl⟩ := List.exists_cons_of_ne_nil hne
  rw [List.cons_append, quotedValue?, quotedValue?]
  split
  next =>
    rw [splitBefore?_append]
    cases hsplit : splitBefore? (· == quote) rest with
    | some parts =>
      obtain ⟨before, after⟩ := parts
      obtain ⟨-, -, c, behind, rfl, -⟩ := splitBefore?_eq_some hsplit
      exact .inl rfl
    | none =>
      dsimp only
      cases hmore : splitBefore? (· == quote) more with
      | none => exact .inl rfl
      | some parts =>
        obtain ⟨before, after⟩ := parts
        obtain ⟨rfl, -, c, behind, rfl, -⟩ := splitBefore?_eq_some hmore
        refine .inr ⟨rfl, _, _, rfl, ?_⟩
        simp only [List.drop_succ_cons, List.drop_zero, List.length_append, List.length_cons]
        omega
  next => exact .inl rfl

theorem startsWithQuote_append (hne : cs ≠ []) (more : List Char) :
    startsWithQuote (cs ++ more) = startsWithQuote cs := by
  obtain ⟨c, rest, rfl⟩ := List.exists_cons_of_ne_nil hne
  rfl

/-- **A value reads alike with more text behind**, unless it takes up some of that. -/
theorem value?_append (h : '>' ∈ cs) (more : List Char) :
    value? (cs ++ more) = (value? cs).map (fun (value, cursor) => (value, cursor.extend more)) ∨
      TakesUp more (value? (cs ++ more)) := by
  obtain ⟨hblank, hmem⟩ := dropWhile_append_of_mem (p := isBlank) (by decide) h more
  obtain ⟨hequals, hafter⟩ := dropWhile_append_of_mem (p := (· == '=')) (by decide) hmem more
  obtain ⟨hskip, hvalue⟩ := skip_append (p := isBlank) (by decide) hafter '=' more
  have hne := List.ne_nil_of_mem hvalue
  unfold value?
  rw [hblank, takeWhile_append_of_mem (by decide) hmem, hequals]
  dsimp only
  rw [hskip]
  generalize Cursor.skip isBlank '=' ((cs.dropWhile isBlank).dropWhile (· == '=')) = at_
    at hvalue hne
  simp only [Cursor.extend, startsWithQuote_append hne, bareValue_append hvalue]
  split
  · exact .inl rfl
  · split
    · exact .inl rfl
    · rcases quotedValue?_append hne more with hquoted | ⟨-, htakes⟩
      · rw [hquoted]
        left
        cases quotedValue? at_.rest with
        | some found => rfl
        | none =>
          simp only [Option.map_none, List.length_append, Nat.add_lt_add_iff_right]
          split
          · rfl
          · split <;> rfl
      · right
        obtain ⟨value, cursor, hfound, hlt⟩ := htakes
        rw [hfound]
        exact ⟨value, cursor, rfl, hlt⟩

/-! ## The attributes -/

/-- The name and the value of an attribute that was read. -/
def ReadAttribute.pair (a : ReadAttribute) : List Char × List Char :=
  (a.name, a.value)

section

variable {previous last : Char} {more left : List Char}

/-- An end of the text that goes beyond what is cut off is an end of the text that is left. -/
theorem suffix_of_append (h : left ++ more <:+ cs ++ more) : left <:+ cs := by
  obtain ⟨front, hfront⟩ := h
  rw [← List.append_assoc] at hfront
  exact ⟨front, List.append_cancel_right hfront⟩

/-- A gap that ends in front of a `>` before the cut is passed alike. -/
theorem skipGaps_cut {cursor : Cursor} (hleft : '>' ∈ left)
    (h : Cursor.skipGaps cursor.previous (cursor.rest ++ more) = ⟨last, left ++ more⟩) :
    Cursor.skipGaps cursor.previous cursor.rest = ⟨last, left⟩ := by
  have hsuffix := suffix_skipGaps cursor.previous (cursor.rest ++ more)
  rw [h] at hsuffix
  rw [(skipGaps_append ((suffix_of_append hsuffix).subset hleft) _ more).1] at h
  obtain ⟨hprevious, hrest⟩ := Cursor.mk.inj h
  exact congrArg₂ Cursor.mk hprevious (List.append_cancel_right hrest)

/-- **An attribute that ends before the cut reads alike.** -/
theorem attribute?_cut {found : ReadAttribute}
    (h : attribute? ⟨previous, cs ++ more⟩ = some found)
    (hafter : found.after = ⟨last, left ++ more⟩)
    (hleft : '>' ∈ left) : ∃ found', attribute? ⟨previous, cs⟩ = some found' ∧
      found'.pair = found.pair ∧ found'.after = ⟨last, left⟩ := by
  have hmem : ∀ text : List Char, left ++ more <:+ text ++ more → '>' ∈ text :=
    fun _ hsuffix => (suffix_of_append hsuffix).subset hleft
  obtain ⟨c, behind, hcons, hbehind⟩ := suffix_attribute? h
  rw [hafter] at hbehind
  have hcons : cs ++ more = c :: behind := hcons
  have hall : left ++ more <:+ cs ++ more := hcons ▸ hbehind.trans (List.suffix_cons c behind)
  have hcs := List.ne_nil_of_mem (hmem cs hall)
  obtain ⟨d, rest, rfl⟩ := List.exists_cons_of_ne_nil hcs
  obtain ⟨rfl, rfl⟩ := List.cons.inj hcons
  obtain ⟨hname, hbody⟩ := skip_append (p := isAttributeNameChar) (by decide)
    (hmem rest hbehind) d more
  unfold attribute? at h ⊢
  dsimp only [List.cons_append] at h ⊢
  split at h
  · exact absurd h (by simp)
  next hprevious =>
    rw [if_neg hprevious]
    split at h
    · exact absurd h (by simp)
    next hstart =>
      rw [if_neg hstart]
      rw [hname, takeWhile_append_of_mem (by decide) (hmem rest hbehind)] at h
      generalize Cursor.skip isAttributeNameChar d rest = at_ at h hbody
      dsimp only [Cursor.extend] at h
      rcases value?_append hbody more with hsame | ⟨value, cursor, htaken, hlt⟩
      · rw [hsame] at h
        cases hvalue : value? at_.rest with
        | none =>
          rw [hvalue] at h
          obtain rfl := Option.some.inj h
          exact ⟨_, rfl, rfl, skipGaps_cut hleft hafter⟩
        | some pair =>
          obtain ⟨value, cursor⟩ := pair
          rw [hvalue] at h
          obtain rfl := Option.some.inj h
          exact ⟨_, rfl, rfl, skipGaps_cut hleft hafter⟩
      · rw [htaken] at h
        obtain rfl := Option.some.inj h
        have hlength := (suffix_skipGaps cursor.previous cursor.rest).length_le
        rw [show Cursor.skipGaps cursor.previous cursor.rest = _ from hafter, List.length_append]
          at hlength
        omega

/-- Where no attribute is read, none is read if the text is cut off farther on. -/
theorem attribute?_cut_none (h : attribute? ⟨previous, cs ++ more⟩ = none) (hcs : cs ≠ []) :
    attribute? ⟨previous, cs⟩ = none := by
  obtain ⟨c, rest, rfl⟩ := List.exists_cons_of_ne_nil hcs
  unfold attribute? at h ⊢
  dsimp only [List.cons_append] at h ⊢
  split at h
  next hprevious => rw [if_pos hprevious]
  next hprevious =>
    rw [if_neg hprevious]
    split at h
    next hstart => rw [if_pos hstart]
    next hstart => split at h <;> exact absurd h (by simp)

/-- **Attributes that end before the cut read alike.**  `stop` and `stop'` are what may remain of
the text and of the text that is left. -/
theorem attributes_cut {stop stop' : Nat}
    (hstop : ∀ text : List Char, '>' ∈ text →
      ((text ++ more).length ≤ stop ↔ text.length ≤ stop')) :
    ∀ (fuel fuel' : Nat) {previous : Char} {cs : List Char} {found : List ReadAttribute},
      attributes stop fuel ⟨previous, cs ++ more⟩ = (found, ⟨last, left ++ more⟩) → '>' ∈ left →
      (cs ++ more).length ≤ fuel → cs.length ≤ fuel' →
      ∃ found', attributes stop' fuel' ⟨previous, cs⟩ = (found', ⟨last, left⟩) ∧
        found'.map (·.pair) = found.map (·.pair) := by
  intro fuel
  induction fuel with
  | zero =>
    intro fuel' previous cs found h hleft hfuel _
    have hempty := List.length_eq_zero_iff.mp (Nat.le_zero.mp hfuel)
    obtain ⟨-, hcursor⟩ := Prod.mk.inj h
    rw [hempty] at hcursor
    have hnil := (Cursor.mk.inj hcursor).2
    exact absurd (hnil ▸ List.mem_append_left more hleft) List.not_mem_nil
  | succ fuel ih =>
    intro fuel' previous cs found h hleft hfuel hfuel'
    have hsuffix := suffix_attributes stop (fuel + 1) ⟨previous, cs ++ more⟩
    rw [h] at hsuffix
    have hcs := (suffix_of_append hsuffix).subset hleft
    have hlength := List.length_pos_of_mem hcs
    obtain ⟨fuel', rfl⟩ : ∃ k, fuel' = k + 1 := ⟨fuel' - 1, by omega⟩
    have hends : ∀ {found : List ReadAttribute}, ([], (⟨previous, cs ++ more⟩ : Cursor)) =
        (found, ⟨last, left ++ more⟩) → found = [] ∧ (⟨previous, cs⟩ : Cursor) = ⟨last, left⟩ := by
      intro found heq
      obtain ⟨rfl, hcursor⟩ := Prod.mk.inj heq
      obtain ⟨rfl, hrest⟩ := Cursor.mk.inj hcursor
      exact ⟨rfl, congrArg _ (List.append_cancel_right hrest)⟩
    rw [attributes] at h ⊢
    split at h
    next hover =>
      rw [if_pos ((hstop cs hcs).mp hover)]
      obtain ⟨rfl, hsame⟩ := hends h
      exact ⟨[], congrArg _ hsame, rfl⟩
    next hover =>
      rw [if_neg fun hless => hover ((hstop cs hcs).mpr hless)]
      split at h
      next hnone =>
        rw [attribute?_cut_none hnone (List.ne_nil_of_mem hcs)]
        obtain ⟨rfl, hsame⟩ := hends h
        exact ⟨[], congrArg _ hsame, rfl⟩
      next a ha =>
        obtain ⟨c, behind, hcons, hbehind⟩ := suffix_attribute? ha
        have hcons : cs ++ more = c :: behind := hcons
        obtain ⟨rfl, hcursor⟩ := Prod.mk.inj h
        -- What remains behind the attribute goes beyond what is cut off, like what remains at last.
        have hrest := suffix_attributes stop fuel a.after
        rw [hcursor] at hrest
        have hmore : more <:+ a.after.rest := (List.suffix_append left more).trans hrest
        obtain ⟨remains, hremains⟩ := hmore
        rw [← hremains] at hrest hbehind
        have hafter : a.after = ⟨a.after.previous, remains ++ more⟩ := by rw [hremains]
        have hmem := (suffix_of_append hrest).subset hleft
        obtain ⟨a', ha', hpair, hafter'⟩ := attribute?_cut ha hafter hmem
        have hle := hbehind.length_le
        rw [hcons, List.length_cons] at hfuel
        have hcut : cs.length = (c :: behind).length - more.length := by
          rw [← hcons, List.length_append, Nat.add_sub_cancel]
        simp only [List.length_append, List.length_cons] at hle hcut
        rw [hafter] at hcursor
        obtain ⟨found', hfound', hpairs⟩ := ih fuel' (Prod.ext rfl hcursor) hleft
          (by rw [List.length_append]; omega) (by omega)
        rw [ha']
        dsimp only
        rw [hafter', hfound']
        refine ⟨_, rfl, ?_⟩
        rw [List.map_cons, List.map_cons, hpair, hpairs, hafter]

end

/-! ## The end of the tag -/

/-- A character of the gap between a name and what follows it in a tag. -/
def isGapChar (c : Char) : Bool :=
  isBlank c || c == '/'

/-- Gaps are passed alike, unless a slash stands before a `>` there. -/
theorem skipGaps_cases (previous : Char) (cs : List Char) :
    Cursor.skipGaps previous cs = Cursor.skip isGapChar previous cs ∨
      ∃ rest, (Cursor.skip isGapChar previous cs).rest = '>' :: rest := by
  fun_induction Cursor.skipGaps previous cs with
  | case1 => exact .inl rfl
  | case2 previous rest =>
    right
    refine ⟨rest, ?_⟩
    rw [Cursor.skip, if_pos (by decide), Cursor.skip, if_neg (by decide)]
  | case3 previous c rest hne hc ih =>
    have hc : isGapChar c = true := hc
    rw [Cursor.skip, if_pos hc]
    exact ih
  | case4 previous c rest hne hc =>
    have hc : ¬isGapChar c = true := hc
    rw [Cursor.skip, if_neg hc]
    exact .inl rfl

/-- Reading attributes ends because no more text may be read, or where it ends in any case. -/
theorem attributes_stop (stop : Nat) : ∀ (fuel : Nat) (cursor : Cursor),
    (attributes stop fuel cursor).2.rest.length ≤ stop ∨
      (attributes stop fuel cursor).2 = (attributes 0 fuel cursor).2
  | 0, _ => .inr rfl
  | fuel + 1, cursor => by
    rw [attributes]
    split
    next hstop => exact .inl hstop
    next hstop =>
      rw [attributes, if_neg (by omega)]
      cases attribute? cursor with
      | none => exact .inr rfl
      | some found => exact attributes_stop stop fuel found.after

/-- What the text between the attributes and the end of the tag is without blanks. -/
def tagTail (after : Cursor) (rest : List Char) : List Char :=
  trim (after.rest.take (after.rest.length - rest.length))

/-- Where the attributes end that are looked through for the end of the tag. -/
def lookedThrough (cursor : Cursor) : Cursor :=
  let gap := Cursor.skip isGapChar cursor.previous cursor.rest
  (attributes 0 gap.rest.length gap).2

/-- The attributes of a tag that ends before this text, and the position behind them. -/
def tagAttributes (cursor : Cursor) (rest : List Char) : List ReadAttribute × Cursor :=
  let gap := Cursor.skipGaps cursor.previous cursor.rest
  attributes rest.length gap.rest.length gap

/-- When a start tag is read, and what it says. -/
theorem readStartTag_iff {cs rest : List Char} {tag : ReadTag} :
    readStartTag cs = .tag tag rest ↔
      ∃ name cursor, elementName? (cs.drop 1) = some (name, cursor) ∧
        startTagEnd cursor = .before rest ∧
        (tagTail (tagAttributes cursor rest).2 rest = ['>'] ∨
          tagTail (tagAttributes cursor rest).2 rest = ['/', '>']) ∧
        tag =
          { name := String.ofList (lower name)
            attributes := ((tagAttributes cursor rest).1.map ReadAttribute.pair).map
              fun (name, value) => (String.ofList (lower name), String.ofList (resolveReferences value))
            selfClosing := tagTail (tagAttributes cursor rest).2 rest = ['/', '>'] } := by
  unfold readStartTag
  constructor
  · intro h
    split at h
    next => exact StartTag.noConfusion h
    next name cursor helement =>
      split at h
      next => exact StartTag.noConfusion h
      next rest' hend =>
        dsimp only at h
        split at h
        next htail =>
          obtain ⟨rfl, rfl⟩ := StartTag.tag.inj h
          refine ⟨name, cursor, helement, hend, (Bool.or_eq_true_iff.mp htail).imp
            of_decide_eq_true of_decide_eq_true, ?_⟩
          rw [List.map_map]
          rfl
        next => exact StartTag.noConfusion h
  · rintro ⟨name, cursor, helement, hend, htail, rfl⟩
    rw [helement]
    dsimp only
    rw [hend]
    dsimp only
    refine (if_pos (Bool.or_eq_true_iff.mpr (htail.imp decide_eq_true decide_eq_true))).trans ?_
    rw [List.map_map]
    rfl

/-- The text is what closes a tag, with this text behind. -/
def ClosesBefore (rest cs : List Char) : Prop :=
  cs = '>' :: rest ∨ cs = '/' :: '>' :: rest

theorem startTagEnd_eq (cursor : Cursor) :
    startTagEnd cursor = match (lookedThrough cursor).rest.dropWhile isBlank with
      | [] => .incomplete
      | '>' :: rest => .before rest
      | '/' :: '>' :: rest => .before rest
      | c :: rest =>
        if isAsciiLetter c || c == '=' || c == '/' then .incomplete else .before (c :: rest) :=
  rfl

theorem startTagEnd_of_closes {cursor : Cursor} {rest : List Char}
    (h : ClosesBefore rest ((lookedThrough cursor).rest.dropWhile isBlank)) :
    startTagEnd cursor = .before rest := by
  rw [startTagEnd_eq]
  rcases h with h | h
  · rw [h]
    rfl
  · rw [h]
    rfl

/-- **A tag that is read as one is closed by a `>`.** -/
theorem closes_of_startTagEnd {cursor : Cursor} {rest : List Char}
    (h : startTagEnd cursor = .before rest)
    (htail : tagTail (tagAttributes cursor rest).2 rest ≠ []) :
    ClosesBefore rest ((lookedThrough cursor).rest.dropWhile isBlank) := by
  have hlooked : ∀ text, (lookedThrough cursor).rest.dropWhile isBlank = text →
      ClosesBefore rest text ∨ text = rest ∧ ∀ behind, text ≠ '>' :: behind := by
    intro text htext
    rw [startTagEnd_eq, htext] at h
    split at h
    next => exact absurd h (by simp)
    next more => exact .inl (.inl (congrArg _ (TagEnd.before.inj h)))
    next more => exact .inl (.inr (congrArg _ (congrArg _ (TagEnd.before.inj h))))
    next c more hmark _ =>
      split at h
      · exact absurd h (by simp)
      · exact .inr ⟨TagEnd.before.inj h, fun behind heq => hmark (List.cons.inj heq).1⟩
  refine (hlooked _ rfl).resolve_right ?_
  rintro ⟨hrest, hmark⟩
  refine htail ?_
  -- What closes no tag stands behind the attributes, and only blanks stand between.
  have hblanks : (tagAttributes cursor rest).2.rest.length ≤ rest.length ∨
      (tagAttributes cursor rest).2.rest.dropWhile isBlank = rest := by
    rcases skipGaps_cases cursor.previous cursor.rest with hsame | ⟨behind, hgap⟩
    · rw [tagAttributes, hsame]
      refine (attributes_stop rest.length _ _).imp_right fun hall => ?_
      rw [hall]
      exact hrest
    · have hnone : ∀ previous, attribute? ⟨previous, '>' :: behind⟩ = none := by
        intro previous
        unfold attribute?
        dsimp only
        split
        · rfl
        · rfl
      have hstays : lookedThrough cursor = Cursor.skip isGapChar cursor.previous cursor.rest := by
        rw [lookedThrough, attributes_of_none]
        rw [← hnone (Cursor.skip isGapChar cursor.previous cursor.rest).previous, ← hgap]
      rw [hstays, hgap] at hmark
      exact absurd rfl (hmark behind)
  rw [tagTail]
  rcases hblanks with hle | hdrop
  · rw [Nat.sub_eq_zero_of_le hle]
    rfl
  · generalize (tagAttributes cursor rest).2.rest = cs at hdrop
    have hsplit := List.takeWhile_append_dropWhile (p := isBlank) (l := cs)
    rw [hdrop] at hsplit
    have hall : (cs.takeWhile isBlank).dropWhile isBlank = [] :=
      List.dropWhile_eq_nil_iff.mpr fun c hc => List.mem_takeWhile_imp hc
    generalize cs.takeWhile isBlank = blanks at hsplit hall
    rw [← hsplit, List.length_append, Nat.add_sub_cancel, List.take_left, trim, hall]
    rfl

theorem suffix_lookedThrough (cursor : Cursor) : (lookedThrough cursor).rest <:+ cursor.rest :=
  (suffix_attributes 0 _ _).trans (suffix_skip isGapChar cursor.previous cursor.rest)

theorem suffix_tagAttributes (cursor : Cursor) (rest : List Char) :
    (tagAttributes cursor rest).2.rest <:+ cursor.rest :=
  (suffix_attributes rest.length _ _).trans (suffix_skipGaps cursor.previous cursor.rest)

theorem tagTail_of_append {after : Cursor} {tail rest : List Char} (h : after.rest = tail ++ rest) :
    tagTail after rest = trim tail := by
  rw [tagTail, h, List.length_append, Nat.add_sub_cancel, List.take_left]

section

variable {cursor : Cursor} {more left : List Char}

theorem lookedThrough_cut (h : (lookedThrough (cursor.extend more)).rest = left ++ more)
    (hleft : '>' ∈ left) : (lookedThrough cursor).rest = left := by
  have hsuffix : left ++ more <:+ cursor.rest ++ more :=
    h ▸ suffix_lookedThrough (cursor.extend more)
  have hmem := (suffix_of_append hsuffix).subset hleft
  let gap := Cursor.skip isGapChar cursor.previous cursor.rest
  have hextended : lookedThrough (cursor.extend more) =
      (attributes 0 (gap.rest ++ more).length ⟨gap.previous, gap.rest ++ more⟩).2 := by
    rw [lookedThrough, Cursor.extend, (skip_append (by decide) hmem _ more).1]
    rfl
  have hlooked : lookedThrough (cursor.extend more) =
      ⟨(lookedThrough (cursor.extend more)).previous, left ++ more⟩ := by rw [← h]
  have hstop : ∀ text : List Char, '>' ∈ text → ((text ++ more).length ≤ 0 ↔ text.length ≤ 0) := by
    intro text htext
    have hlength := List.length_pos_of_mem htext
    rw [List.length_append]
    omega
  rw [hextended] at hlooked
  obtain ⟨found', hfound', -⟩ := attributes_cut hstop _ _ (Prod.ext rfl hlooked) hleft
    (Nat.le_refl _) (Nat.le_refl _)
  exact congrArg (·.2.rest) hfound'

theorem tagAttributes_cut {before : List Char}
    (h : (tagAttributes (cursor.extend more) (before ++ more)).2.rest = left ++ more)
    (hleft : '>' ∈ left) :
    (tagAttributes cursor before).1.map ReadAttribute.pair =
        (tagAttributes (cursor.extend more) (before ++ more)).1.map ReadAttribute.pair ∧
      (tagAttributes cursor before).2.rest = left := by
  have hsuffix : left ++ more <:+ cursor.rest ++ more :=
    h ▸ suffix_tagAttributes (cursor.extend more) (before ++ more)
  have hmem := (suffix_of_append hsuffix).subset hleft
  let gap := Cursor.skipGaps cursor.previous cursor.rest
  have hextended : tagAttributes (cursor.extend more) (before ++ more) =
      attributes (before ++ more).length (gap.rest ++ more).length
        ⟨gap.previous, gap.rest ++ more⟩ := by
    rw [tagAttributes, Cursor.extend, (skipGaps_append hmem _ more).1]
    rfl
  have hread : (tagAttributes (cursor.extend more) (before ++ more)).2 =
      ⟨(tagAttributes (cursor.extend more) (before ++ more)).2.previous, left ++ more⟩ := by
    rw [← h]
  have hstop : ∀ text : List Char, '>' ∈ text →
      ((text ++ more).length ≤ (before ++ more).length ↔ text.length ≤ before.length) := by
    intro text _
    rw [List.length_append, List.length_append]
    omega
  rw [hextended] at hread ⊢
  obtain ⟨found', hfound', hpairs⟩ := attributes_cut hstop _ _ (Prod.ext rfl hread) hleft
    (Nat.le_refl _) (Nat.le_refl _)
  have hsame : tagAttributes cursor before = (found', _) := hfound'
  rw [hsame]
  exact ⟨hpairs, rfl⟩

end

/-- **A start tag reads alike when text behind it is cut off.** -/
theorem readStartTag_cut {cs more left : List Char} {tag : ReadTag}
    (h : readStartTag (cs ++ more) = .tag tag (left ++ more)) :
    readStartTag cs = .tag tag left := by
  obtain ⟨name, cursor, hname, hend, htail, rfl⟩ := readStartTag_iff.mp h
  have hmark : '>' ∈ tagTail (tagAttributes cursor (left ++ more)).2 (left ++ more) := by
    rcases htail with htail | htail <;> rw [htail] <;> decide
  have hcloses := closes_of_startTagEnd hend (List.ne_nil_of_mem hmark)
  -- The `>` that closes the tag stands before the cut.
  obtain ⟨front, hfront⟩ : ∃ front,
      (lookedThrough cursor).rest = (front ++ '>' :: left) ++ more := by
    have hdrop := List.dropWhile_suffix (l := (lookedThrough cursor).rest) isBlank
    have hclosed : '>' :: (left ++ more) <:+ (lookedThrough cursor).rest := by
      rcases hcloses with heq | heq
      · exact heq ▸ hdrop
      · exact (List.suffix_cons '/' _).trans (heq ▸ hdrop)
    obtain ⟨front, hfront⟩ := hclosed
    exact ⟨front, by rw [← hfront, List.append_assoc]; rfl⟩
  have hin : '>' ∈ front ++ '>' :: left := List.mem_append_right _ List.mem_cons_self
  have hsuffix := (hfront ▸ suffix_lookedThrough cursor).trans (suffix_elementName? hname)
  have hcs := (suffix_of_append (hsuffix.trans (List.drop_suffix 1 _))).subset hin
  obtain ⟨c, rest, rfl⟩ := List.exists_cons_of_ne_nil (List.ne_nil_of_mem hcs)
  rw [List.cons_append, List.drop_succ_cons, List.drop_zero] at hname hsuffix
  have hrest := (suffix_of_append hsuffix).subset hin
  rw [elementName?_append hrest] at hname
  obtain ⟨⟨name', cursor'⟩, hname', heq⟩ := Option.map_eq_some_iff.mp hname
  obtain ⟨rfl, rfl⟩ := Prod.mk.inj heq
  have hlooked := lookedThrough_cut hfront hin
  have hend' : startTagEnd cursor' = .before left := by
    rw [hfront, (dropWhile_append_of_mem (by decide) hin more).1] at hcloses
    refine startTagEnd_of_closes ?_
    rw [hlooked]
    exact hcloses.imp
      (fun heq => List.append_cancel_right (show _ ++ more = ('>' :: left) ++ more from heq))
      fun heq => List.append_cancel_right (show _ ++ more = ('/' :: '>' :: left) ++ more from heq)
  -- So does the `>` that is left over behind the attributes.
  obtain ⟨tail, htailed⟩ : left ++ more <:+
      (tagAttributes (cursor'.extend more) (left ++ more)).2.rest := by
    have hbehind : left ++ more <:+ (cursor'.extend more).rest := by
      refine List.IsSuffix.trans ⟨front ++ ['>'], ?_⟩ (suffix_lookedThrough (cursor'.extend more))
      rw [hfront]
      simp
    refine List.suffix_of_suffix_length_le hbehind (suffix_tagAttributes _ _) ?_
    by_contra hless
    rw [tagTail, Nat.sub_eq_zero_of_le (Nat.le_of_not_le hless)] at hmark
    exact absurd hmark List.not_mem_nil
  rw [tagTail_of_append htailed.symm] at hmark htail ⊢
  have htailIn := (infix_trim tail).subset hmark
  rw [← List.append_assoc] at htailed
  obtain ⟨hpairs, hrest'⟩ := tagAttributes_cut htailed.symm (List.mem_append_left left htailIn)
  refine readStartTag_iff.mpr ⟨name', cursor', hname', hend', ?_⟩
  rw [tagTail_of_append hrest', hpairs]
  exact ⟨htail, rfl⟩

end Mooring.Markup
