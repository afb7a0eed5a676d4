import Mooring.Proofs.Markup.Cut
import Mooring.Proofs.Markup.Opaque
import Mooring.Proofs.Markup.Spans

/-!
# An element on its own

The fragment of an element is kept, and later it is read as a document of its own.  The first
element of that document has the tag and the attributes of the element it was cut from
(`primary?_fragment`), if the fragment stands alone (`Extent.StandsAlone`).

Two readings have to agree.  The fragment is masked as in its source (`mask_fragment`): an
expression that opens is closed inside the fragment, since an extent stops behind a `>`
(`stopsTag_extentsOf`) and none is left of an expression (`maskFrom_take`).  And its start tag is
read as in its source, since nothing behind the tag is needed for that (`readStartTag_cut`).

The conditions are real.  After `<i title=it's>` the scan for expressions takes the rest for a
quoted value, as long as no other quote ends it, and masks nothing there; read alone, a fragment is
masked.
-/

namespace Mooring.Markup

open Mooring.Text

/-! ## Masking a text that is cut off -/

/-- A closing brace that is found is found again when the text is cut off behind it. -/
theorem closingBrace?_take (literal : Option Char) (depth : Nat) (cs : List Char) :
    ∀ n m, closingBrace? literal depth cs = some n → n ≤ m →
      closingBrace? literal depth (cs.take m) = some n := by
  -- What `k` characters of the lead leave of the text is cut off `k` characters earlier.
  have further : ∀ {literal : Option Char} {depth : Nat} {rest : List Char} (k : Nat)
      {cut : Nat → Option Nat},
      (∀ n m, closingBrace? literal depth rest = some n → n ≤ m →
        closingBrace? literal depth (rest.take m) = some n) →
      (∀ m, cut (m + k) = (closingBrace? literal depth (rest.take m)).map (· + k)) →
      ∀ n m, (closingBrace? literal depth rest).map (· + k) = some n → n ≤ m → cut m = some n := by
    intro literal depth rest k cut hrest hcut n m h hle
    obtain ⟨n', hn', rfl⟩ := Option.map_eq_some_iff.mp h
    obtain ⟨m', rfl⟩ : ∃ m', m = m' + k := ⟨m - k, by omega⟩
    rw [hcut, hrest n' m' hn' (by omega)]
    rfl
  fun_induction closingBrace? literal depth cs with
  | case1 => intro n m h; exact absurd h (by simp)
  | case2 => intro n m h; exact absurd h (by simp)
  | case3 depth c quote hc d rest ih =>
    refine further 2 ih fun m => ?_
    rw [List.take_succ_cons, List.take_succ_cons, closingBrace?, if_pos hc]
  | case4 depth c rest quote hc ih =>
    refine further 1 ih fun m => ?_
    rw [List.take_succ_cons, closingBrace?.eq_def]
    dsimp only
    rw [if_neg hc]
  | case5 depth c rest hopen ih =>
    refine further 1 ih fun m => ?_
    rw [List.take_succ_cons, closingBrace?, if_pos hopen]
  | case6 depth c rest hopen hbrace ih =>
    refine further 1 ih fun m => ?_
    rw [List.take_succ_cons, closingBrace?, if_neg hopen, if_pos hbrace]
  | case7 depth c rest hopen hbrace hclose hdepth =>
    intro n m h hle
    obtain rfl := Option.some.inj h
    obtain ⟨m', rfl⟩ : ∃ m', m = m' + 1 := ⟨m - 1, by omega⟩
    rw [List.take_succ_cons, closingBrace?, if_neg hopen, if_neg hbrace, if_pos hclose,
      if_pos hdepth]
  | case8 depth c rest hopen hbrace hclose hdepth ih =>
    refine further 1 ih fun m => ?_
    rw [List.take_succ_cons, closingBrace?, if_neg hopen, if_neg hbrace, if_pos hclose,
      if_neg hdepth]
  | case9 depth c rest hopen hbrace hclose ih =>
    refine further 1 ih fun m => ?_
    rw [List.take_succ_cons, closingBrace?, if_neg hopen, if_neg hbrace, if_neg hclose]

theorem expression?_take {cs : List Char} {length m : Nat} (h : expression? cs = some length)
    (hm : length + 1 ≤ m) : expression? (cs.take m) = some length := by
  obtain ⟨n, hn, rfl⟩ := Option.map_eq_some_iff.mp h
  obtain ⟨inner, after, -, rfl⟩ := closingBrace?_split none 1 cs n hn
  rw [expression?, closingBrace?_take none 1 cs _ m hn (by omega)]
  rfl

theorem expression?_append {cs : List Char} {length : Nat} (h : expression? cs = some length)
    (more : List Char) : expression? (cs ++ more) = some length := by
  obtain ⟨n, hn, rfl⟩ := Option.map_eq_some_iff.mp h
  rw [expression?, closingBrace?_append none 1 cs more n hn]
  rfl

section

variable {state : TagState} {previous : Option Char} {c : Char} {rest : List Char} {isValue : Bool}
  {length : Nat}

theorem opened?_of_parts (hasked : previous = some '=' ∨ startsWith ['.', '.', '.'] rest = true)
    (hlength : expression? rest = some length) :
    opened? .inside previous '\x7b' rest = some (previous == some '=', length) := by
  have hasked : (previous == some '=' || startsWith ['.', '.', '.'] rest) = true := by
    rwa [Bool.or_eq_true, beq_iff_eq]
  unfold opened?
  dsimp only
  rw [if_pos (by decide), if_pos hasked, hlength]
  rfl

/-- An expression opens alike if the text is cut off behind its closing brace. -/
theorem opened?_take (h : opened? state previous c rest = some (isValue, length)) {m : Nat}
    (hm : length + 1 ≤ m) : opened? state previous c (rest.take m) = some (isValue, length) := by
  obtain ⟨rfl, rfl, rfl, hasked, hlength⟩ := opened?_eq_some h
  refine opened?_of_parts (hasked.imp eq_of_beq fun hdots => ?_) (expression?_take hlength hm)
  rw [startsWith_iff] at hdots ⊢
  obtain ⟨inner, after, hsplit, rfl⟩ := expression?_split hlength
  -- The dots stand in front of the closing brace, so they are left.
  have hthree : 3 ≤ inner.length := by
    obtain ⟨behind, hbehind⟩ := hdots
    rcases List.append_eq_append_iff.mp (hbehind.trans hsplit) with ⟨x, rfl, -⟩ | ⟨x, hdots, hx⟩
    · simp
    · cases x with
      | nil => rw [List.append_nil] at hdots; simp [← hdots]
      | cons d x =>
        obtain ⟨rfl, -⟩ := List.cons.inj hx
        have hmem : '\x7d' ∈ ['.', '.', '.'] := by simp [hdots]
        exact absurd hmem (by decide)
  exact List.prefix_take_iff.mpr ⟨hdots, by simp only [List.length_cons, List.length_nil]; omega⟩

/-- Where no expression opens, none opens if the text is cut off. -/
theorem opened?_take_none (h : opened? state previous c rest = none) (m : Nat) :
    opened? state previous c (rest.take m) = none := by
  cases hcut : opened? state previous c (rest.take m) with
  | none => rfl
  | some found =>
    obtain ⟨isValue, length⟩ := found
    obtain ⟨rfl, rfl, rfl, hasked, hlength⟩ := opened?_eq_some hcut
    have hopened := opened?_of_parts (asked_append (rest.drop m) (hasked.imp_left eq_of_beq))
      (expression?_append hlength (rest.drop m))
    rw [List.take_append_drop, h] at hopened
    exact absurd hopened (by simp)

end

theorem not_mem_cover (isValue : Bool) (inner : List Char) : '>' ∉ cover isValue inner := by
  have hblanks : '>' ∉ inner.map blank := by
    intro hmem
    obtain ⟨d, -, hd⟩ := List.mem_map.mp hmem
    rcases blank_cases d with hblank | hblank
    · exact absurd (hblank.symm.trans hd) (by decide)
    · exact absurd (hblank.symm.trans hd) (by decide)
  cases isValue <;> simp [cover, hblanks]

/-- **A text that is cut off behind a `>` of its masked form is masked as it is in the whole.** -/
theorem maskFrom_take (state : TagState) (previous : Option Char) (cs : List Char) : ∀ k,
    (maskFrom state previous cs)[k]? = some '>' →
      maskFrom state previous (cs.take (k + 1)) = (maskFrom state previous cs).take (k + 1) := by
  fun_induction maskFrom state previous cs with
  | case1 => intro k h; exact absurd h (by simp)
  | case2 state previous c rest isValue length hopened edge ih =>
    intro k h
    have hbound := opened?_bound hopened
    have hlead : ∀ (inner later : List Char), edge :: inner.map blank ++ edge :: later =
        cover isValue inner ++ later := by simp [cover, edge]
    have hlength : (cover isValue (rest.take length)).length = length + 2 := by
      rw [length_cover, List.length_take, Nat.min_eq_left (by omega)]
    rw [hlead] at h ⊢
    -- No `>` is written for the expression, so this one stands behind it.
    obtain ⟨i, rfl⟩ : ∃ i, k = length + 2 + i := by
      refine ⟨k - (length + 2), ?_⟩
      by_contra hless
      rw [List.getElem?_append_left (by omega)] at h
      exact not_mem_cover _ _ (List.mem_of_getElem? h)
    rw [List.getElem?_append_right (by omega), hlength, Nat.add_sub_cancel_left] at h
    have hdrop : (rest.take (length + 2 + i)).drop (length + 1) =
        (rest.drop (length + 1)).take (i + 1) := by
      rw [List.drop_take]
      congr 1
      omega
    have hinner : (rest.take (length + 2 + i)).take length = rest.take length := by
      rw [List.take_take, Nat.min_eq_left (by omega)]
    have hall : (cover isValue (rest.take length)).take (length + 2 + i + 1) =
        cover isValue (rest.take length) := List.take_of_length_le (by omega)
    rw [List.take_succ_cons, maskFrom, opened?_take hopened (by omega)]
    dsimp only
    rw [hdrop, ih i h, hinner, List.take_append, hall, hlength,
      show length + 2 + i + 1 - (length + 2) = i + 1 by omega]
    exact hlead _ _
  | case3 state previous c rest hopened ih =>
    intro k h
    rw [List.take_succ_cons, maskFrom, opened?_take_none hopened, List.take_succ_cons]
    dsimp only
    cases k with
    | zero => rw [List.take_zero, maskFrom]; rfl
    | succ k =>
      have hletter : startsWithLetter (rest.take (k + 1)) = startsWithLetter rest := by
        cases rest <;> rfl
      have hafter : state.after c (rest.take (k + 1)) = state.after c rest := by
        cases state <;> simp only [TagState.after, hletter]
      rw [hafter, ih k h]

/-! ## Where a fragment ends -/

/-- The place stands behind a `>`, or behind the whole text. -/
def StopsTag (text : List Char) (place : Nat) : Prop :=
  text.length ≤ place ∨ ∃ k, place = k + 1 ∧ text[k]? = some '>'

theorem BehindTag.stops {cs text rest : List Char} (h : BehindTag cs rest) (hcs : cs <:+ text) :
    StopsTag text (text.length - rest.length) := by
  rcases h with rfl | h
  · exact .inl (Nat.le_refl _)
  · obtain ⟨front, rfl⟩ := h.trans hcs
    refine .inr ⟨front.length, ?_, by simp⟩
    simp only [List.length_append, List.length_cons]
    omega

/-- **The extent of an element stops behind a tag**, or behind the text. -/
theorem stopsTag_extentsOf {masked : List Char} {parts : List Tree} {e : Extent}
    (he : e ∈ extentsOf masked parts) : StopsTag masked e.stop := by
  refine forall_extentsOf (P := fun e => StopsTag masked e.stop) (fun e children hinner => ?_)
    parts e he
  have hhere := List.drop_suffix e.offset masked
  show StopsTag masked (elementStop masked e _)
  rw [elementStop]
  cases hend : endOf? masked e with
  | some stop =>
    obtain ⟨rest, hrest, rfl⟩ := Option.map_eq_some_iff.mp hend
    exact (behind_afterElement? hrest).stops hhere
  | none =>
    -- The last of some ends is one of them.
    have hown : StopsTag masked (startTagStop masked e) := (behind_afterStartTag _).stops hhere
    rcases (isGreatest_foldl_max (extentsOf masked children) (startTagStop masked e)).1 with
      hlast | ⟨d, hd, hlast⟩
    · rw [Option.getD_none, hlast]
      exact hown
    · rw [Option.getD_none, hlast]
      exact hinner d hd

/-! ## The fragment of an element -/

/-- A fragment stands alone if it reads as in its source: there are no braces, or what stands before
it does not leave the scan for expressions inside a quoted value; and the start tag, as it is read
in the source, is all in the fragment. -/
structure Extent.StandsAlone (source : List Char) (e : Extent) : Prop where
  outside : '\x7b' ∈ source →
    ∃ state, Reached source e.start state ∧ ∀ quote, state ≠ .inValue quote
  whole : ∀ tag rest, readStartTag ((mask source).drop e.start) = .tag tag rest →
    (mask source).length - rest.length ≤ e.stop

/-- Without braces, nothing is masked. -/
theorem maskFrom_of_not_mem {state : TagState} {previous : Option Char} {cs : List Char}
    (h : '\x7b' ∉ cs) : maskFrom state previous cs = cs := by
  fun_induction maskFrom state previous cs with
  | case1 => rfl
  | case2 state previous c rest isValue length hopened edge ih =>
    obtain ⟨-, rfl, -⟩ := opened?_eq_some hopened
    exact absurd List.mem_cons_self h
  | case3 state previous c rest hopened ih => rw [ih fun hmem => h (List.mem_cons_of_mem _ hmem)]

/-- A start tag opens alike wherever the scan is not inside a quoted value. -/
theorem maskFrom_opening {state : TagState} (hstate : ∀ quote, state ≠ .inValue quote)
    (previous : Option Char) {c : Char} (hc : isAsciiLetter c = true) (rest : List Char) :
    maskFrom state previous ('<' :: c :: rest) =
      '<' :: maskFrom .inside (some '<') (c :: rest) := by
  rw [maskFrom, opened?_of_ne (by decide)]
  have hletter : startsWithLetter (c :: rest) = true := isLetter_of_isAsciiLetter hc
  cases state with
  | outside =>
    have hafter : TagState.outside.after '<' (c :: rest) = .inside :=
      if_pos (by rw [hletter]; rfl)
    rw [hafter]
    rfl
  | inside => rfl
  | inValue quote => exact absurd rfl (hstate quote)

/-- A letter at the start of a masked text is a letter of the text. -/
theorem eq_cons_of_maskFrom {state : TagState} {previous : Option Char} {cs later : List Char}
    {c : Char} (h : maskFrom state previous cs = c :: later) (hc : isAsciiLetter c = true) :
    ∃ rest, cs = c :: rest := by
  cases cs with
  | nil => exact absurd h (by simp [maskFrom])
  | cons d rest =>
    rw [maskFrom] at h
    split at h
    next isValue length _ =>
      have hedge := (List.cons.inj h).1
      cases isValue with
      | true => rw [← hedge] at hc; exact absurd hc (by decide)
      | false => rw [← hedge] at hc; exact absurd hc (by decide)
    next => exact ⟨rest, by rw [(List.cons.inj h).1]⟩

/-- A start tag begins with a `<` and a letter. -/
theorem exists_letter_of_readStartTag {cs rest : List Char} {tag : ReadTag}
    (h : readStartTag cs = .tag tag rest) :
    ∃ c more, cs.drop 1 = c :: more ∧ isAsciiLetter c = true := by
  obtain ⟨name, cursor, hname, -⟩ := readStartTag_iff.mp h
  unfold elementName? at hname
  split at hname
  next => exact absurd hname (by simp)
  next c more heq =>
    split at hname
    next hc => exact ⟨c, more, heq, hc⟩
    next => exact absurd hname (by simp)

section Fragment

variable {source : String} {order : Nat} {e : Extent}

/-- The element of an extent stands where the extent starts. -/
theorem sited_spansOf (h : (spansOf source)[order]? = some e) :
    (mask source.toList)[e.start]? = some '<' ∧
      ∃ tag rest, readStartTag ((mask source.toList).drop e.start) = .tag tag rest ∧
        e.element = tag.element e.start := by
  obtain ⟨trees, htrees, hspans⟩ := extents_of_spansOf h
  have he : e ∈ extentsOf (mask source.toList) trees := List.mem_of_getElem? (hspans ▸ h)
  have hstart : e.start = e.element.offset := congrArg Extent.start (extent_eq he)
  have hsited := (sited_parseTrees htrees).2 e.element
    (map_element_extentsOf (mask source.toList) trees ▸ List.mem_map_of_mem he)
  rw [hstart]
  exact ⟨hsited.opens, hsited.read⟩

/-- **A fragment that stands alone is masked as in its source.** -/
theorem mask_fragment (h : (spansOf source)[order]? = some e)
    (halone : e.StandsAlone source.toList) :
    mask ((source.toList.drop e.start).take (e.stop - e.start)) =
      ((mask source.toList).drop e.start).take (e.stop - e.start) := by
  by_cases hbrace : '\x7b' ∈ source.toList
  case neg =>
    have hpart : ((source.toList.drop e.start).take (e.stop - e.start)) <:+: source.toList :=
      (List.take_prefix _ _).isInfix.trans (List.drop_suffix _ _).isInfix
    have hall : mask source.toList = source.toList := maskFrom_of_not_mem hbrace
    rw [hall]
    exact maskFrom_of_not_mem fun hmem => hbrace (hpart.subset hmem)
  obtain ⟨hopens, tag, rest, hread, -⟩ := sited_spansOf h
  obtain ⟨trees, htrees, hspans⟩ := extents_of_spansOf h
  have he : e ∈ extentsOf (mask source.toList) trees := List.mem_of_getElem? (hspans ▸ h)
  obtain ⟨-, hbefore⟩ := extentsOf_bounds
    (fun element helement => ((sited_parseTrees htrees).2 element helement).lt) e he
  obtain ⟨state, hreached, hstate⟩ := halone.outside hbrace
  have hmask := drop_mask hreached
  have hhere := drop_of_getElem? (getElem?_of_mask hopens)
  -- Behind the `<` stands a letter, in the masked text and so in the source.
  obtain ⟨c, more, hmore, hc⟩ := exists_letter_of_readStartTag hread
  obtain ⟨behind, hbehind⟩ : ∃ behind, source.toList.drop (e.start + 1) = c :: behind := by
    rw [hhere, maskFrom, opened?_of_ne (by decide)] at hmask
    rw [hmask] at hmore
    exact eq_cons_of_maskFrom hmore hc
  have hsame : mask (source.toList.drop e.start) = (mask source.toList).drop e.start := by
    rw [hmask, hhere, hbehind, maskFrom_opening hstate _ hc, mask,
      maskFrom_opening (fun _ => TagState.noConfusion) _ hc]
  rw [← hsame]
  rcases stopsTag_extentsOf he with hall | ⟨k, hk, hmark⟩
  · rw [length_mask] at hall
    have hlength : (source.toList.drop e.start).length ≤ e.stop - e.start := by
      rw [List.length_drop]
      omega
    rw [List.take_of_length_le hlength, List.take_of_length_le (by rwa [length_mask])]
  · rw [show e.stop - e.start = k - e.start + 1 by omega]
    refine maskFrom_take .outside none _ _ ?_
    show (mask (source.toList.drop e.start))[k - e.start]? = some '>'
    rw [hsame, List.getElem?_drop, show e.start + (k - e.start) = k by omega, hmark]

/-- **The first element of a document that begins with a start tag is that of the tag.** -/
theorem elementsOf_eq_cons {cs rest : List Char} {tag : ReadTag} {trees : List Tree}
    (htrees : parseTrees cs = .ok trees) (hopens : cs.head? = some '<')
    (hread : readStartTag cs = .tag tag rest) :
    ∃ later, elementsOf trees = tag.element 0 :: later := by
  obtain ⟨c, more, hmore, hc⟩ := exists_letter_of_readStartTag hread
  obtain ⟨behind, rfl⟩ := List.head?_eq_some_iff.mp hopens
  obtain rfl : behind = c :: more := hmore
  obtain ⟨raw, hstep⟩ : ∃ raw, readAt false 0 none ('<' :: c :: more) =
      .next [.start tag 0] raw rest := by
    unfold readAt
    rw [if_pos (by rfl), readMarkup?_letter 0 none hc more, readStart, hread]
    exact ⟨_, rfl⟩
  rw [parseTrees] at htrees
  obtain ⟨events, hevents, rfl⟩ : ∃ events, eventsOf ('<' :: c :: more) = .ok events ∧
      treesOf events = trees := by
    cases hevents : eventsOf ('<' :: c :: more) with
    | error error => rw [hevents] at htrees; exact absurd htrees (by simp [Except.map])
    | ok events => rw [hevents] at htrees; exact ⟨events, rfl, Except.ok.inj htrees⟩
  obtain ⟨later, rfl⟩ : ∃ later, events = .start tag 0 :: later := by
    have hsplit : splitBeforeMarkup? none ('<' :: c :: more) = some ([], '<' :: c :: more) := rfl
    unfold eventsOf at hevents
    rw [pass, if_neg (by simp), hsplit] at hevents
    dsimp only at hevents
    rw [if_neg (by simp), Nat.sub_self, hstep] at hevents
    dsimp only at hevents
    cases hlater : pass false ('<' :: c :: more).length ('<' :: c :: more).length raw rest with
    | error error => rw [hlater] at hevents; exact absurd hevents (by simp [bind, Except.bind])
    | ok progress =>
      rw [hlater] at hevents
      simp only [bind, Except.bind, pure, Except.pure] at hevents
      split at hevents
      next => exact absurd hevents (by simp)
      next => exact ⟨_, (Except.ok.inj hevents).symm⟩
  refine ⟨later.filterMap Event.element?, ?_⟩
  rw [elementsOf_treesOf]
  rfl

/-- The start tag of a fragment that stands alone is that of its element. -/
theorem readStartTag_fragment (h : (spansOf source)[order]? = some e)
    (halone : e.StandsAlone source.toList) : ∃ tag left,
      readStartTag (mask ((source.toList.drop e.start).take (e.stop - e.start))) = .tag tag left ∧
        e.element = tag.element e.start := by
  obtain ⟨hopens, tag, rest, hread, helement⟩ := sited_spansOf h
  have hwhole := halone.whole tag rest hread
  have hsuffix : rest <:+ (mask source.toList).drop e.start := by
    rw [drop_of_getElem? hopens] at hread ⊢
    exact (suffix_readStartTag (.inl ⟨tag, hread⟩)).trans (List.suffix_cons _ _)
  rw [mask_fragment h halone]
  generalize hhere : (mask source.toList).drop e.start = here at hread hsuffix
  obtain ⟨left, rfl⟩ : here.drop (e.stop - e.start) <:+ rest := by
    refine List.suffix_of_suffix_length_le (List.drop_suffix _ _) hsuffix ?_
    rw [← hhere, List.length_drop, List.length_drop]
    omega
  have hcut : readStartTag (here.take (e.stop - e.start) ++ here.drop (e.stop - e.start)) =
      .tag tag (left ++ here.drop (e.stop - e.start)) := by
    rwa [List.take_append_drop]
  exact ⟨tag, left, readStartTag_cut hcut, helement⟩

/-- The first node of an index comes from the first extent. -/
theorem exists_extent_of_primary? {lineOffset : Int} {found : Node}
    (h : (Index.ofSource source lineOffset).primary? = some found) :
    ∃ x, (spansOf source)[0]? = some x ∧ found = x.node source.toList lineOffset 0 := by
  rw [Index.primary?, nodes_ofSource, List.head?_eq_getElem?, List.getElem?_map,
    List.getElem?_zipIdx] at h
  obtain ⟨⟨x, place⟩, hx, rfl⟩ := Option.map_eq_some_iff.mp h
  obtain ⟨x', hx', heq⟩ := Option.map_eq_some_iff.mp hx
  obtain ⟨rfl, rfl⟩ := Prod.mk.inj heq
  exact ⟨x', hx', rfl⟩

/-- **The first element of a fragment that stands alone is the element itself.** -/
theorem primary?_fragment (h : (spansOf source)[order]? = some e)
    (halone : e.StandsAlone source.toList) {lineOffset : Int} {found : Node}
    (hfound : (Index.ofSource (e.node source.toList lineOffset order).fragment).primary? =
      some found) : found.tag = e.element.name ∧ found.attrs = e.element.attributes := by
  obtain ⟨tag, left, hread, helement⟩ := readStartTag_fragment h halone
  obtain ⟨x, hx, rfl⟩ := exists_extent_of_primary? hfound
  obtain ⟨trees, htrees, hspans⟩ := extents_of_spansOf hx
  have hfragment : (e.node source.toList lineOffset order).fragment.toList =
      (source.toList.drop e.start).take (e.stop - e.start) := String.toList_ofList
  rw [hfragment] at htrees hspans
  have hopens : (mask ((source.toList.drop e.start).take (e.stop - e.start))).head? =
      some '<' := by
    have hfilled := (sound_node h lineOffset).stands.opens
    rw [hfragment, List.head?_take] at hfilled
    rw [mask_fragment h halone, List.head?_take]
    split at hfilled
    next => exact absurd hfilled (by simp)
    next hne => rw [if_neg hne, List.head?_drop, (sited_spansOf h).1]
  obtain ⟨later, hfirst⟩ := elementsOf_eq_cons htrees hopens hread
  rw [← map_element_extentsOf (mask ((source.toList.drop e.start).take (e.stop - e.start))),
    ← hspans] at hfirst
  have hsame : x.element = tag.element 0 := by
    have hhead := congrArg List.head? hfirst
    rw [List.head?_map, List.head?_eq_getElem?, hx] at hhead
    exact Option.some.inj hhead
  have hname := congrArg Element.name hsame
  have hattributes := congrArg Element.attributes hsame
  rw [helement]
  exact ⟨hname, hattributes⟩

end Fragment

end Mooring.Markup
