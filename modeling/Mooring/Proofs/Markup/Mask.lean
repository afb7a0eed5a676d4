import Mooring.Markup.Mask

/-!
# What masking touches

Masking writes one character for each it reads, so it keeps the length of a text
(`length_mask`), and a place found in the masked text is a place in the source.

It touches expressions only.  An expression stands between a brace and the one that closes it
(`Expression`), and what matters is whether the scan comes to it inside a start tag (`Reached`):
then every character of it becomes blank, line feeds are kept, and the braces of a value become
quotes (`getElem?_mask_expression`); a character that is in no such expression is left alone
(`mask_touches_expressions`).

The scan goes from place to place, over a character or over an expression, and masking up to a place
that it comes to has nothing to do with what follows (`drop_mask`).
-/

namespace Mooring.Markup

open Mooring.Text

/-! ## The closing brace -/

/-- The closing brace that is found is a brace of the text. -/
theorem closingBrace?_split (literal : Option Char) (depth : Nat) (cs : List Char) :
    ∀ n, closingBrace? literal depth cs = some n →
      ∃ inner after, cs = inner ++ '\x7d' :: after ∧ n = inner.length + 1 := by
  have step : ∀ {found : Option Nat} {n : Nat} (lead : List Char) {more : List Char},
      (∀ n, found = some n → ∃ inner after, more = inner ++ '\x7d' :: after ∧
        n = inner.length + 1) →
      found.map (· + lead.length) = some n →
      ∃ inner after, lead ++ more = inner ++ '\x7d' :: after ∧ n = inner.length + 1 := by
    intro found n lead more hfound h
    obtain ⟨n', hn', rfl⟩ := Option.map_eq_some_iff.mp h
    obtain ⟨inner, after, rfl, rfl⟩ := hfound n' hn'
    refine ⟨lead ++ inner, after, by rw [List.append_assoc], ?_⟩
    rw [List.length_append]
    omega
  fun_induction closingBrace? literal depth cs with
  | case1 => intro n h; exact absurd h (by simp)
  | case2 => intro n h; exact absurd h (by simp)
  | case3 depth c quote hc d more ih => intro n h; exact step [c, d] ih h
  | case4 depth c rest quote hc ih => intro n h; exact step [c] ih h
  | case5 depth c rest hc ih => intro n h; exact step [c] ih h
  | case6 depth c rest hc hopen ih => intro n h; exact step [c] ih h
  | case7 depth c rest hc hopen hclose hdepth =>
    intro n h
    exact ⟨[], rest, by rw [eq_of_beq hclose]; rfl, (Option.some.inj h).symm⟩
  | case8 depth c rest hc hopen hclose hdepth ih => intro n h; exact step [c] ih h
  | case9 depth c rest hc hopen hclose ih => intro n h; exact step [c] ih h

/-- An expression ends with a brace of the text. -/
theorem expression?_split {afterBrace : List Char} {length : Nat}
    (h : expression? afterBrace = some length) :
    ∃ inner after, afterBrace = inner ++ '\x7d' :: after ∧ length = inner.length := by
  obtain ⟨n, hn, rfl⟩ := Option.map_eq_some_iff.mp h
  obtain ⟨inner, after, rfl, rfl⟩ := closingBrace?_split none 1 afterBrace n hn
  exact ⟨inner, after, rfl, rfl⟩

theorem expression?_bound {afterBrace : List Char} {length : Nat}
    (h : expression? afterBrace = some length) : length + 1 ≤ afterBrace.length := by
  obtain ⟨inner, after, rfl, rfl⟩ := expression?_split h
  rw [List.length_append, List.length_cons]
  omega

theorem opened?_eq_some {state : TagState} {previous : Option Char} {c : Char} {rest : List Char}
    {isValue : Bool} {length : Nat} (h : opened? state previous c rest = some (isValue, length)) :
    state = .inside ∧ c = '\x7b' ∧ isValue = (previous == some '=') ∧
      (isValue = true ∨ startsWith ['.', '.', '.'] rest = true) ∧
      expression? rest = some length := by
  unfold opened? at h
  dsimp only at h
  split at h
  next hinside =>
    obtain ⟨hstate, hc⟩ := Bool.and_eq_true_iff.mp hinside
    split at h
    next hasked =>
      obtain ⟨n, hn, heq⟩ := Option.map_eq_some_iff.mp h
      obtain ⟨rfl, rfl⟩ := Prod.mk.inj heq
      exact ⟨of_decide_eq_true hstate, eq_of_beq hc, rfl, Bool.or_eq_true_iff.mp hasked, hn⟩
    next => exact absurd h (by simp)
  next => exact absurd h (by simp)

theorem opened?_bound {state : TagState} {previous : Option Char} {c : Char} {rest : List Char}
    {isValue : Bool} {length : Nat} (h : opened? state previous c rest = some (isValue, length)) :
    length + 1 ≤ rest.length :=
  expression?_bound (opened?_eq_some h).2.2.2.2

/-! ## The length -/

theorem length_maskFrom (state : TagState) (previous : Option Char) (cs : List Char) :
    (maskFrom state previous cs).length = cs.length := by
  fun_induction maskFrom state previous cs with
  | case1 => rfl
  | case2 state previous c rest isValue length hopened edge ih =>
    have hbound := opened?_bound hopened
    simp only [List.length_cons, List.length_append, List.length_map, List.length_take, ih,
      List.length_drop]
    omega
  | case3 state previous c rest hopened ih => rw [List.length_cons, List.length_cons, ih]

/-- **Masking keeps the length of a text.** -/
theorem length_mask (source : List Char) : (mask source).length = source.length :=
  length_maskFrom .outside none source

/-! ## Expressions and the places of the scan -/

/-- The last character before a place that is not blank. -/
def solidBefore? (source : List Char) (place : Nat) : Option Char :=
  (source.take place).reverse.find? (!isBlank ·)

/-- The place of the brace that closes the one at `start`. -/
def closingPlace? (source : List Char) (start : Nat) : Option Nat :=
  (expression? (source.drop (start + 1))).map (start + 1 + ·)

/-- From `start` to `stop` stands an expression in braces: an attribute's value, behind an equals
sign, or a spread. -/
structure Expression (source : List Char) (start stop : Nat) : Prop where
  opens : source[start]? = some '\x7b'
  asked : solidBefore? source start = some '=' ∨
    startsWith ['.', '.', '.'] (source.drop (start + 1)) = true
  closes : closingPlace? source start = some stop

/-- The scan comes to a place in a state.  It passes an expression as a whole, and only inside a
start tag it looks for one. -/
inductive Reached (source : List Char) : Nat → TagState → Prop
  | start : Reached source 0 .outside
  | pass {place : Nat} {state : TagState} {c : Char} (here : Reached source place state)
      (next : source[place]? = some c)
      (plain : state = .inside → ∀ stop, ¬Expression source place stop) :
      Reached source (place + 1) (state.after c (source.drop (place + 1)))
  | leap {place stop : Nat} (here : Reached source place .inside)
      (expression : Expression source place stop) : Reached source (stop + 1) .inside

theorem drop_of_getElem? {source : List Char} {place : Nat} {c : Char}
    (h : source[place]? = some c) : source.drop place = c :: source.drop (place + 1) := by
  obtain ⟨hlt, rfl⟩ := List.getElem?_eq_some_iff.mp h
  exact List.drop_eq_getElem_cons hlt

theorem solidBefore?_succ {source : List Char} {place : Nat} {c : Char}
    (h : source[place]? = some c) :
    solidBefore? source (place + 1) = solid (solidBefore? source place) c := by
  rw [solidBefore?, List.take_add_one, h, Option.toList_some, List.reverse_append,
    List.reverse_singleton, List.singleton_append, List.find?_cons, solid, solidBefore?]
  cases isBlank c <;> rfl

namespace Expression

variable {source : List Char} {start stop : Nat}

/-- What an expression holds: its text between the braces, and what follows. -/
theorem split (h : Expression source start stop) : ∃ inner after,
    source.drop (start + 1) = inner ++ '\x7d' :: after ∧
      expression? (source.drop (start + 1)) = some inner.length ∧
      stop = start + 1 + inner.length := by
  obtain ⟨length, hlength, rfl⟩ := Option.map_eq_some_iff.mp h.closes
  obtain ⟨inner, after, hsplit, rfl⟩ := expression?_split hlength
  exact ⟨inner, after, hsplit, hlength, rfl⟩

theorem lt (h : Expression source start stop) : start < stop := by
  obtain ⟨inner, -, -, -, rfl⟩ := h.split
  omega

theorem ends (h : Expression source start stop) : source[stop]? = some '\x7d' := by
  obtain ⟨inner, after, hsplit, -, rfl⟩ := h.split
  rw [← List.getElem?_drop, hsplit, List.getElem?_append_right (Nat.le_refl _), Nat.sub_self]
  rfl

end Expression

/-- **An expression opens at a place where one stands**, if the scan is inside a start tag there. -/
theorem opened?_iff {source : List Char} {place : Nat} {c : Char} (hc : source[place]? = some c)
    {state : TagState} {isValue : Bool} {length : Nat} :
    opened? state (solidBefore? source place) c (source.drop (place + 1)) = some (isValue, length) ↔
      state = .inside ∧ isValue = (solidBefore? source place == some '=') ∧
        Expression source place (place + 1 + length) := by
  constructor
  · intro h
    obtain ⟨hstate, rfl, hvalue, hasked, hlength⟩ := opened?_eq_some h
    refine ⟨hstate, hvalue, hc, ?_, by rw [closingPlace?, hlength]; rfl⟩
    rw [hvalue, beq_iff_eq] at hasked
    exact hasked
  · rintro ⟨rfl, rfl, hexpression⟩
    obtain ⟨inner, after, -, hlength, hstop⟩ := hexpression.split
    obtain rfl : c = '\x7b' := Option.some.inj (hc.symm.trans hexpression.opens)
    obtain rfl : length = inner.length := by omega
    have hasked : (solidBefore? source place == some '=' ||
        startsWith ['.', '.', '.'] (source.drop (place + 1))) = true := by
      rw [Bool.or_eq_true, beq_iff_eq]
      exact hexpression.asked
    unfold opened?
    dsimp only
    rw [if_pos (by decide), if_pos hasked, hlength]
    rfl

theorem opened?_eq_none {source : List Char} {place : Nat} {c : Char} (hc : source[place]? = some c)
    {state : TagState} (hplain : state = .inside → ∀ stop, ¬Expression source place stop) :
    opened? state (solidBefore? source place) c (source.drop (place + 1)) = none := by
  cases h : opened? state (solidBefore? source place) c (source.drop (place + 1)) with
  | none => rfl
  | some found =>
    obtain ⟨hstate, -, hexpression⟩ := (opened?_iff hc).mp h
    exact absurd hexpression (hplain hstate _)

/-! ## Masking from place to place -/

/-- Masking from an expression on. -/
theorem maskFrom_expression {source : List Char} {start stop : Nat}
    (h : Expression source start stop) :
    let edge := if solidBefore? source start == some '=' then '"' else ' '
    maskFrom .inside (solidBefore? source start) (source.drop start) =
      edge :: ((source.drop (start + 1)).take (stop - start - 1)).map blank ++ edge ::
        maskFrom .inside (solidBefore? source (stop + 1)) (source.drop (stop + 1)) := by
  obtain ⟨inner, after, hsplit, -, rfl⟩ := h.split
  have hopened : opened? .inside (solidBefore? source start) '\x7b' (source.drop (start + 1)) =
      some (solidBefore? source start == some '=', inner.length) :=
    (opened?_iff h.opens).mpr ⟨rfl, rfl, h⟩
  have hsolid : solidBefore? source (start + 1 + inner.length + 1) = some '\x7d' := by
    rw [solidBefore?_succ h.ends]
    rfl
  have hdrop : (source.drop (start + 1)).drop (inner.length + 1) =
      source.drop (start + 1 + inner.length + 1) := by
    rw [List.drop_drop, ← Nat.add_assoc]
  have hlength : start + 1 + inner.length - start - 1 = inner.length := by omega
  dsimp only
  rw [drop_of_getElem? h.opens, maskFrom, hopened, hsolid, hlength]
  dsimp only
  rw [hdrop]

/-- Masking from a character on that no expression opens at. -/
theorem maskFrom_plain {source : List Char} {place : Nat} {c : Char} (hc : source[place]? = some c)
    {state : TagState} (hplain : state = .inside → ∀ stop, ¬Expression source place stop) :
    maskFrom state (solidBefore? source place) (source.drop place) =
      c :: maskFrom (state.after c (source.drop (place + 1))) (solidBefore? source (place + 1))
        (source.drop (place + 1)) := by
  rw [drop_of_getElem? hc, maskFrom, opened?_eq_none hc hplain, solidBefore?_succ hc]

/-- **From a place that the scan comes to, masking goes on by what is there**, whatever was masked
before. -/
theorem drop_mask {source : List Char} {place : Nat} {state : TagState}
    (h : Reached source place state) :
    (mask source).drop place = maskFrom state (solidBefore? source place) (source.drop place) := by
  induction h with
  | start => rfl
  | @pass place state c here next plain ih =>
    rw [maskFrom_plain next plain] at ih
    rw [← List.drop_drop, ih]
    rfl
  | @leap place stop here expression ih =>
    have hlt := expression.lt
    have hlast := (List.getElem?_eq_some_iff.mp expression.ends).1
    rw [maskFrom_expression expression] at ih
    have hsum : stop + 1 = place + (stop - place + 1) := by omega
    rw [hsum, ← List.drop_drop, ih, ← hsum]
    have hlead : ∀ edge : Char, stop - place =
        (edge :: ((source.drop (place + 1)).take (stop - place - 1)).map blank).length := by
      intro edge
      rw [List.length_cons, List.length_map, List.length_take, List.length_drop]
      omega
    rw [← List.drop_drop, List.drop_left' (hlead _).symm]
    rfl

/-- What becomes of a character of an expression: it is blanked, and the braces around a value become
quotes. -/
def masked (source : List Char) (start stop place : Nat) (c : Char) : Char :=
  if solidBefore? source start = some '=' ∧ (place = start ∨ place = stop) then '"' else blank c

/-- **Each expression that the scan comes to inside a start tag is blanked.** -/
theorem getElem?_mask_expression {source : List Char} {start stop place : Nat}
    (hreached : Reached source start .inside) (hexpression : Expression source start stop)
    (hstart : start ≤ place) (hstop : place ≤ stop) :
    (mask source)[place]? = source[place]?.map (masked source start stop place) := by
  have hlt := hexpression.lt
  have hlast := (List.getElem?_eq_some_iff.mp hexpression.ends).1
  have hmask := drop_mask hreached
  rw [maskFrom_expression hexpression] at hmask
  have hplace : place = start + (place - start) := by omega
  have hget : (mask source)[place]? = ((mask source).drop start)[place - start]? := by
    rw [List.getElem?_drop, ← hplace]
  rw [hget, hmask]
  by_cases hfirst : place = start
  · subst hfirst
    rw [Nat.sub_self, hexpression.opens, List.cons_append, List.getElem?_cons_zero]
    by_cases hvalue : solidBefore? source place = some '='
    · simp [masked, hvalue]
    · simp [masked, hvalue, blank]
  · obtain ⟨k, hk⟩ : ∃ k, place - start = k + 1 := ⟨place - start - 1, by omega⟩
    have hlength : (((source.drop (start + 1)).take (stop - start - 1)).map blank).length =
        stop - start - 1 := by
      rw [List.length_map, List.length_take, List.length_drop]
      omega
    rw [hk, List.cons_append, List.getElem?_cons_succ]
    by_cases hend : place = stop
    · subst hend
      rw [List.getElem?_append_right (by omega), hlength, hexpression.ends,
        show k - (place - start - 1) = 0 by omega, List.getElem?_cons_zero]
      by_cases hvalue : solidBefore? source start = some '='
      · simp [masked, hvalue]
      · simp [masked, hvalue, blank]
    · rw [List.getElem?_append_left (by omega), List.getElem?_map,
        List.getElem?_take_of_lt (by omega), List.getElem?_drop,
        show start + 1 + k = place by omega]
      congr 1
      funext c
      simp [masked, hfirst, hend]

/-- The scan goes on over a character that is no brace. -/
theorem Reached.over {source : List Char} {place : Nat} {state : TagState} {c : Char}
    (here : Reached source place state) (next : source[place]? = some c) (hc : c ≠ '\x7b') :
    Reached source (place + 1) (state.after c (source.drop (place + 1))) := by
  refine here.pass next fun _ stop hexpression => hc ?_
  exact Option.some.inj (next.symm.trans hexpression.opens)

/-- From a place that the scan comes to, a later character is left alone, or it stands in an
expression. -/
theorem mask_cases_from {source : List Char} {place here : Nat} {state : TagState}
    (hplace : place < source.length) (hreached : Reached source here state) (hle : here ≤ place) :
    (mask source)[place]? = source[place]? ∨
      ∃ start stop, Reached source start .inside ∧ Expression source start stop ∧
        start ≤ place ∧ place ≤ stop := by
  obtain ⟨c, hc⟩ : ∃ c, source[here]? = some c := ⟨_, List.getElem?_eq_getElem (by omega)⟩
  by_cases hexpression : state = .inside ∧ ∃ stop, Expression source here stop
  · obtain ⟨rfl, stop, hstop⟩ := hexpression
    have hlt := hstop.lt
    by_cases hin : place ≤ stop
    · exact .inr ⟨here, stop, hreached, hstop, hle, hin⟩
    · exact mask_cases_from hplace (.leap hreached hstop) (by omega)
  · have hplain : state = .inside → ∀ stop, ¬Expression source here stop :=
      fun hinside stop hstop => hexpression ⟨hinside, stop, hstop⟩
    by_cases hhere : here = place
    · subst hhere
      have hmask := drop_mask hreached
      rw [maskFrom_plain hc hplain] at hmask
      have hget : (mask source)[here]? = ((mask source).drop here)[0]? := by
        rw [List.getElem?_drop, Nat.add_zero]
      left
      rw [hget, hmask, hc]
      rfl
    · exact mask_cases_from hplace (.pass hreached hc hplain) (by omega)
termination_by place - here

/-- **A character is left alone, or it stands in an expression** that the scan comes to inside a start
tag. -/
theorem mask_cases (source : List Char) (place : Nat) :
    (mask source)[place]? = source[place]? ∨
      ∃ start stop, Reached source start .inside ∧ Expression source start stop ∧
        start ≤ place ∧ place ≤ stop := by
  by_cases hplace : place < source.length
  · exact mask_cases_from hplace .start (Nat.zero_le _)
  · left
    have hlength := length_mask source
    rw [List.getElem?_eq_none (by omega), List.getElem?_eq_none (by omega)]

/-! ## What may change -/

theorem blank_eq_lineFeed {c : Char} : blank c = '\n' ↔ c = '\n' := by
  by_cases hc : c = '\n'
  · simp [blank, hc]
  · simp [blank, hc]

/-- A character of an expression is blanked, or it is a brace and becomes a quote. -/
theorem Expression.masked_cases {source : List Char} {start stop place : Nat} {c : Char}
    (h : Expression source start stop) (hc : source[place]? = some c) :
    masked source start stop place c = blank c ∨
      masked source start stop place c = '"' ∧ (c = '\x7b' ∨ c = '\x7d') := by
  unfold masked
  split
  next hedge =>
    refine .inr ⟨rfl, ?_⟩
    rcases hedge.2 with rfl | rfl
    · exact .inl (Option.some.inj (hc.symm.trans h.opens))
    · exact .inr (Option.some.inj (hc.symm.trans h.ends))
  next => exact .inl rfl

/-- A character stays, is blanked, or is a brace and becomes a quote. -/
theorem getElem?_mask {source : List Char} {place : Nat} {c : Char}
    (hc : source[place]? = some c) : ∃ m, (mask source)[place]? = some m ∧
      (m = c ∨ m = blank c ∨ m = '"' ∧ (c = '\x7b' ∨ c = '\x7d')) := by
  rcases mask_cases source place with hsame | ⟨start, stop, hreached, hexpression, hstart, hstop⟩
  · exact ⟨c, hsame.trans hc, .inl rfl⟩
  · have hmask := getElem?_mask_expression hreached hexpression hstart hstop
    rw [hc] at hmask
    exact ⟨_, hmask, .inr (hexpression.masked_cases hc)⟩

/-- Masking keeps the line feeds where they are. -/
theorem getElem?_mask_lineFeed (source : List Char) (place : Nat) :
    (mask source)[place]? = some '\n' ↔ source[place]? = some '\n' := by
  cases hc : source[place]? with
  | none =>
    have hlong := List.getElem?_eq_none_iff.mp hc
    rw [List.getElem?_eq_none (by rw [length_mask]; exact hlong)]
  | some c =>
    obtain ⟨m, hm, hcases⟩ := getElem?_mask hc
    rw [hm, Option.some.injEq, Option.some.injEq]
    rcases hcases with rfl | rfl | ⟨rfl, rfl | rfl⟩
    · exact Iff.rfl
    · exact blank_eq_lineFeed
    · decide
    · decide

/-- **Masking moves nothing and touches expressions only.**  For any text, the masked one has the same
length, and line feeds at the same places; a character stays, or becomes a space, or is a brace and
becomes a quote; and where it does not stay it is in an expression that the scan comes to inside a
start tag, which is blanked as a whole.  So a text without opening braces stays as it is. -/
theorem mask_touches_expressions (source : List Char) :
    (mask source).length = source.length ∧
    (∀ place : Nat, (mask source)[place]? = some '\n' ↔ source[place]? = some '\n') ∧
    (∀ (place : Nat) (c m : Char), source[place]? = some c → (mask source)[place]? = some m →
      m = c ∨ m = ' ' ∨ m = '"' ∧ (c = '\x7b' ∨ c = '\x7d')) ∧
    (∀ place : Nat, (mask source)[place]? ≠ source[place]? →
      ∃ start stop, Reached source start .inside ∧ Expression source start stop ∧
        start ≤ place ∧ place ≤ stop) ∧
    (∀ start stop, Reached source start .inside → Expression source start stop →
      ∀ place : Nat, start ≤ place → place ≤ stop →
        (mask source)[place]? = source[place]?.map (masked source start stop place)) ∧
    ('\x7b' ∉ source → mask source = source) := by
  refine ⟨length_mask source, getElem?_mask_lineFeed source, fun place c m hc hm => ?_,
    fun place hchanged => (mask_cases source place).resolve_left hchanged,
    fun start stop hreached hexpression place hstart hstop =>
      getElem?_mask_expression hreached hexpression hstart hstop,
    fun hbrace => List.ext_getElem? fun place => ?_⟩
  · obtain ⟨m', hm', hcases⟩ := getElem?_mask hc
    obtain rfl : m' = m := Option.some.inj (hm'.symm.trans hm)
    rcases hcases with hsame | hblank | hquote
    · exact .inl hsame
    · unfold blank at hblank
      split at hblank
      next => exact .inl hblank
      next => exact .inr (.inl hblank)
    · exact .inr (.inr hquote)
  · rcases mask_cases source place with hsame | ⟨start, stop, -, hexpression, -, -⟩
    · exact hsame
    · exact absurd (List.mem_of_getElem? hexpression.opens) hbrace

/-- A link with a handler that holds a `>`. -/
def handlerLink : List Char :=
  ("<a b=").toList ++ '\x7b' :: '>' :: '\x7d' :: ['>']

/-- The `>` of the handler is blanked, so it ends no tag. -/
theorem mask_touches_expressions_handler :
    Reached handlerLink 5 .inside ∧ Expression handlerLink 5 7 ∧
      (mask handlerLink)[6]? = some ' ' := by
  have hreached : Reached handlerLink 5 .inside :=
    ((((Reached.start.over (c := '<') rfl (by decide)).over (c := 'a') rfl (by decide)).over
      (c := ' ') rfl (by decide)).over (c := 'b') rfl (by decide)).over (c := '=') rfl (by decide)
  have hexpression : Expression handlerLink 5 7 := ⟨rfl, .inl (by decide), by decide⟩
  exact ⟨hreached, hexpression,
    (mask_touches_expressions handlerLink).2.2.2.2.1 5 7 hreached hexpression 6 (by decide)
      (by decide)⟩

end Mooring.Markup
