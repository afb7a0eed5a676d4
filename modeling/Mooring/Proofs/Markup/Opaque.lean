import Mooring.Proofs.Markup.Mask
import Mooring.Proofs.Text.Finding

/-!
# What an expression holds does not matter

Where the scan comes to an expression inside a start tag, it goes on behind it as if a quoted
value, or blanks, had stood there (`mask_covers_expressions`).  A `>`, a quote or a brace in the
expression thus neither ends the tag nor changes how the rest of the file is read.

Three facts carry this.  A closing brace that is found is found again whatever follows
(`closingBrace?_append`), so that the expression may be looked at on its own; a lead without braces
is passed unchanged (`mask_append`), with the expression behind it or with what is put in its
place; and of all that came before only one bit reaches the rest, whether an equals sign stands in
front (`maskFrom_previous`).
-/

namespace Mooring.Markup

open Mooring.Text

/-! ## An expression on its own -/

/-- A closing brace that is found is found again when more follows. -/
theorem closingBrace?_append (literal : Option Char) (depth : Nat) (cs more : List Char) :
    ∀ n, closingBrace? literal depth cs = some n →
      closingBrace? literal depth (cs ++ more) = some n := by
  have further : ∀ {found found' : Option Nat} (k : Nat),
      (∀ n, found = some n → found' = some n) →
      ∀ n, found.map (· + k) = some n → found'.map (· + k) = some n := by
    rintro found found' k hfound n h
    obtain ⟨n', hn', rfl⟩ := Option.map_eq_some_iff.mp h
    rw [hfound n' hn']
    rfl
  fun_induction closingBrace? literal depth cs with
  | case1 => intro n h; exact absurd h (by simp)
  | case2 => intro n h; exact absurd h (by simp)
  | case3 depth c quote hc d rest ih =>
    rw [List.cons_append, List.cons_append, closingBrace?, if_pos hc]
    exact further 2 ih
  | case4 depth c rest quote hc ih =>
    rw [List.cons_append, closingBrace?.eq_def (some quote) depth (c :: (rest ++ more))]
    dsimp only
    rw [if_neg hc]
    exact further 1 ih
  | case5 depth c rest hopen ih =>
    rw [List.cons_append, closingBrace?, if_pos hopen]
    exact further 1 ih
  | case6 depth c rest hopen hbrace ih =>
    rw [List.cons_append, closingBrace?, if_neg hopen, if_pos hbrace]
    exact further 1 ih
  | case7 depth c rest hopen hbrace hclose hdepth =>
    rw [List.cons_append, closingBrace?, if_neg hopen, if_neg hbrace, if_pos hclose, if_pos hdepth]
    exact fun n h => h
  | case8 depth c rest hopen hbrace hclose hdepth ih =>
    rw [List.cons_append, closingBrace?, if_neg hopen, if_neg hbrace, if_pos hclose, if_neg hdepth]
    exact further 1 ih
  | case9 depth c rest hopen hbrace hclose ih =>
    rw [List.cons_append, closingBrace?, if_neg hopen, if_neg hbrace, if_neg hclose]
    exact further 1 ih

/-- A text in braces that are each other's is an expression, whatever follows. -/
theorem expression?_of_closingPlace? {inner : List Char}
    (h : closingPlace? ('\x7b' :: (inner ++ ['\x7d'])) 0 = some (inner.length + 1))
    (after : List Char) : expression? (inner ++ '\x7d' :: after) = some inner.length := by
  obtain ⟨length, hlength, hsum⟩ := Option.map_eq_some_iff.mp h
  obtain ⟨n, hn, rfl⟩ := Option.map_eq_some_iff.mp hlength
  have happ := closingBrace?_append none 1 _ after n hn
  rw [List.drop_succ_cons, List.drop_zero, List.append_assoc, List.singleton_append] at happ
  rw [expression?, happ, Option.map_some, Option.some.injEq]
  omega

/-! ## A lead without braces -/

theorem startsWithLetter_append {rest : List Char} (hrest : startsWithLetter rest = false)
    (cs : List Char) : startsWithLetter (cs ++ rest) = startsWithLetter cs := by
  cases cs with
  | nil => exact hrest
  | cons => rfl

/-- The scan comes to the same places of a lead without braces if something is put behind it that
makes no tag of a `<` at its end. -/
theorem Reached.append {lead rest : List Char} {place : Nat} {state : TagState}
    (h : Reached lead place state) (hlead : '\x7b' ∉ lead)
    (hrest : startsWithLetter rest = false) : Reached (lead ++ rest) place state := by
  induction h with
  | start => exact .start
  | @pass place state c here next plain ih =>
    have hlt := (List.getElem?_eq_some_iff.mp next).1
    have hnext : (lead ++ rest)[place]? = some c := by
      rw [List.getElem?_append_left hlt, next]
    have hstate : state.after c (lead.drop (place + 1)) =
        state.after c ((lead ++ rest).drop (place + 1)) := by
      cases state with
      | outside =>
        rw [List.drop_append_of_le_length hlt, TagState.after, TagState.after,
          startsWithLetter_append hrest]
      | inside => rfl
      | inValue quote => rfl
    rw [hstate]
    refine ih.over hnext fun hbrace => ?_
    exact hlead (hbrace ▸ List.mem_of_getElem? next)
  | leap here expression ih =>
    exact absurd (List.mem_of_getElem? expression.opens) hlead

theorem solidBefore?_append (lead rest : List Char) :
    solidBefore? (lead ++ rest) lead.length = solidBefore? lead lead.length := by
  rw [solidBefore?, solidBefore?, List.take_left, List.take_length]

/-- **A lead without braces is passed unchanged.** -/
theorem mask_append {lead rest : List Char} {state : TagState} (hlead : '\x7b' ∉ lead)
    (hreached : Reached (lead ++ rest) lead.length state) :
    mask (lead ++ rest) = lead ++ maskFrom state (solidBefore? lead lead.length) rest := by
  have htake : (mask (lead ++ rest)).take lead.length = lead := by
    refine List.ext_getElem? fun place => ?_
    by_cases hlt : place < lead.length
    · rw [List.getElem?_take_of_lt hlt]
      rcases mask_cases (lead ++ rest) place with hsame | ⟨start, stop, -, hexpression, hstart, -⟩
      · rw [hsame, List.getElem?_append_left hlt]
      · have hopens := hexpression.opens
        rw [List.getElem?_append_left (by omega)] at hopens
        exact absurd (List.mem_of_getElem? hopens) hlead
    · rw [List.getElem?_eq_none (by rw [List.length_take]; omega),
        List.getElem?_eq_none (by omega)]
  have hdrop := drop_mask hreached
  rw [List.drop_left, solidBefore?_append] at hdrop
  rw [← List.take_append_drop lead.length (mask (lead ++ rest)), htake, hdrop]

/-! ## Behind the expression -/

/-- Of all that came before, the scan only asks whether an equals sign stands in front. -/
theorem maskFrom_previous (state : TagState) (previous : Option Char) (cs : List Char) :
    ∀ previous' : Option Char, (previous == some '=') = (previous' == some '=') →
      maskFrom state previous cs = maskFrom state previous' cs := by
  have same : ∀ {state : TagState} {previous previous' : Option Char},
      (previous == some '=') = (previous' == some '=') → ∀ (c : Char) (rest : List Char),
      opened? state previous c rest = opened? state previous' c rest := by
    intro state previous previous' hsame c rest
    unfold opened?
    rw [hsame]
  fun_induction maskFrom state previous cs with
  | case1 state previous =>
    intro previous' hsame
    rw [maskFrom]
  | case2 state previous c rest isValue length hopened edge ih =>
    intro previous' hsame
    rw [same hsame] at hopened
    rw [maskFrom, hopened]
    rfl
  | case3 state previous c rest hopened ih =>
    intro previous' hsame
    rw [same hsame] at hopened
    rw [maskFrom, hopened]
    dsimp only
    rw [ih (solid previous' c)]
    unfold solid
    split
    · exact hsame
    · rfl

theorem opened?_of_ne {c : Char} (hc : c ≠ '\x7b') (state : TagState) (previous : Option Char)
    (rest : List Char) : opened? state previous c rest = none := by
  rw [opened?, beq_false_of_ne hc, Bool.and_false]
  rfl

theorem blank_cases (c : Char) : blank c = '\n' ∨ blank c = ' ' := by
  unfold blank
  split
  next hc => exact .inl (eq_of_beq hc)
  next => exact .inr rfl

/-- Blanks are passed as they are, in a tag and in a quoted value. -/
theorem maskFrom_blanks {state : TagState} (hstate : state = .inside ∨ state = .inValue '"')
    (previous : Option Char) (cs rest : List Char) :
    maskFrom state previous (cs.map blank ++ rest) =
      cs.map blank ++ maskFrom state previous rest := by
  induction cs with
  | nil => rfl
  | cons c cs ih =>
    have hbrace : blank c ≠ '\x7b' := by rcases blank_cases c with h | h <;> rw [h] <;> decide
    have hblank : isBlank (blank c) = true := by
      rcases blank_cases c with h | h <;> rw [h] <;> decide
    have hafter : ∀ more, state.after (blank c) more = state := by
      rcases hstate with rfl | rfl <;> rcases blank_cases c with h | h <;> rw [h] <;> intro more <;>
        rfl
    rw [List.map_cons, List.cons_append, maskFrom, opened?_of_ne hbrace]
    dsimp only
    rw [hafter, solid, if_pos hblank, ih, List.cons_append]

/-- What is written for an expression: blanks, between quotes if it is a value. -/
def cover (isValue : Bool) (inner : List Char) : List Char :=
  let edge := if isValue then '"' else ' '
  edge :: inner.map blank ++ [edge]

theorem length_cover (isValue : Bool) (inner : List Char) :
    (cover isValue inner).length = inner.length + 2 := by
  simp [cover]

/-- What is asked of a text in braces does not depend on what follows it. -/
theorem asked_append {previous : Option Char} {inner : List Char} (more : List Char)
    (h : previous = some '=' ∨ startsWith ['.', '.', '.'] inner = true) :
    previous = some '=' ∨ startsWith ['.', '.', '.'] (inner ++ more) = true :=
  h.imp_right fun hdots =>
    startsWith_iff.mpr ((startsWith_iff.mp hdots).trans (List.prefix_append inner more))

/-- The scan stays in the tag over an expression, and what follows is masked as if nothing had stood
there. -/
theorem maskFrom_expression_cover {previous : Option Char} {inner : List Char}
    (hcloses : closingPlace? ('\x7b' :: (inner ++ ['\x7d'])) 0 = some (inner.length + 1))
    (hasked : previous = some '=' ∨ startsWith ['.', '.', '.'] inner = true) (after : List Char) :
    maskFrom .inside previous ('\x7b' :: (inner ++ '\x7d' :: after)) =
      cover (previous == some '=') inner ++ maskFrom .inside none after := by
  have hdots : (previous == some '=' ||
      startsWith ['.', '.', '.'] (inner ++ '\x7d' :: after)) = true := by
    rw [Bool.or_eq_true, beq_iff_eq]
    exact asked_append _ hasked
  have hopened : opened? .inside previous '\x7b' (inner ++ '\x7d' :: after) =
      some (previous == some '=', inner.length) := by
    unfold opened?
    dsimp only
    rw [if_pos (by decide), if_pos hdots, expression?_of_closingPlace? hcloses after]
    rfl
  rw [maskFrom, hopened]
  dsimp only
  rw [List.take_left, ← List.drop_drop, List.drop_left, List.drop_one, List.tail_cons,
    maskFrom_previous .inside (some '\x7d') after none rfl, cover]
  simp

/-- The same is so over what is written for it. -/
theorem maskFrom_cover {previous : Option Char} (inner after : List Char) :
    maskFrom .inside previous (cover (previous == some '=') inner ++ after) =
      cover (previous == some '=') inner ++ maskFrom .inside none after := by
  cases hvalue : previous == some '=' with
  | true =>
    have hopen : ∀ rest, maskFrom .inside previous ('"' :: rest) =
        '"' :: maskFrom (.inValue '"') (some '"') rest := by
      intro rest
      rw [maskFrom, opened?_of_ne (by decide)]
      rfl
    have hclose : maskFrom (.inValue '"') (some '"') ('"' :: after) =
        '"' :: maskFrom .inside (some '"') after := by
      rw [maskFrom, opened?_of_ne (by decide)]
      rfl
    simp only [cover, if_true, List.cons_append, List.append_assoc, List.nil_append]
    rw [hopen, maskFrom_blanks (.inr rfl), hclose,
      maskFrom_previous .inside (some '"') after none rfl]
  | false =>
    have hspace : ∀ rest, maskFrom .inside previous (' ' :: rest) =
        ' ' :: maskFrom .inside previous rest := by
      intro rest
      rw [maskFrom, opened?_of_ne (by decide)]
      rfl
    simp only [cover, Bool.false_eq_true, if_false, List.cons_append, List.append_assoc,
      List.nil_append]
    rw [hspace, maskFrom_blanks (.inl rfl), hspace, maskFrom_previous .inside previous after none
      (by rw [hvalue]; rfl)]

/-- A text in braces that are each other's is an expression behind a lead that asks for one, or if
it is a spread. -/
theorem expression_append {lead inner : List Char}
    (hcloses : closingPlace? ('\x7b' :: (inner ++ ['\x7d'])) 0 = some (inner.length + 1))
    (hasked : solidBefore? lead lead.length = some '=' ∨
      startsWith ['.', '.', '.'] inner = true) (after : List Char) :
    Expression (lead ++ '\x7b' :: (inner ++ '\x7d' :: after)) lead.length
      (lead.length + inner.length + 1) := by
  have hdrop : (lead ++ '\x7b' :: (inner ++ '\x7d' :: after)).drop (lead.length + 1) =
      inner ++ '\x7d' :: after := by
    rw [← List.drop_drop, List.drop_left, List.drop_one, List.tail_cons]
  refine ⟨by simp, ?_, ?_⟩
  · rw [solidBefore?_append, hdrop]
    exact asked_append _ hasked
  · rw [closingPlace?, hdrop, expression?_of_closingPlace? hcloses, Option.map_some,
      Option.some.injEq]
    omega

/-- What is written for an expression has no part in a tag's opening. -/
theorem startsWithLetter_cover (isValue : Bool) (inner after : List Char) :
    startsWithLetter (cover isValue inner ++ after) = false := by
  cases isValue <;> rfl

/-- **An expression is opaque to the scan.**  Behind a lead without braces that leaves the scan
inside a start tag, let a text stand in braces that are each other's.  If an equals sign stands in
front of it, the whole is masked as if a quoted value of blanks had stood there; if none does and
it starts with three dots, as if blanks had stood there.  In both cases the scan is still inside
the tag behind it, and masks what follows as if the expression had not been there. -/
theorem mask_covers_expressions {lead inner : List Char} (hlead : '\x7b' ∉ lead)
    (hinside : Reached lead lead.length .inside)
    (hcloses : closingPlace? ('\x7b' :: (inner ++ ['\x7d'])) 0 = some (inner.length + 1))
    (after : List Char) :
    (solidBefore? lead lead.length = some '=' →
      mask (lead ++ '\x7b' :: (inner ++ '\x7d' :: after)) =
        mask (lead ++ '"' :: (inner.map blank ++ '"' :: after))) ∧
    (solidBefore? lead lead.length ≠ some '=' → startsWith ['.', '.', '.'] inner = true →
      mask (lead ++ '\x7b' :: (inner ++ '\x7d' :: after)) =
        mask (lead ++ ' ' :: (inner.map blank ++ ' ' :: after))) ∧
    (solidBefore? lead lead.length = some '=' ∨ startsWith ['.', '.', '.'] inner = true →
      Reached (lead ++ '\x7b' :: (inner ++ '\x7d' :: after)) (lead.length + inner.length + 2)
        .inside ∧
      (mask (lead ++ '\x7b' :: (inner ++ '\x7d' :: after))).drop (lead.length + inner.length + 2) =
        maskFrom .inside none after) := by
  have hreached :
      Reached (lead ++ '\x7b' :: (inner ++ '\x7d' :: after)) lead.length .inside :=
    hinside.append hlead rfl
  have hcovered :
      mask (lead ++ (cover (solidBefore? lead lead.length == some '=') inner ++ after)) =
        lead ++ (cover (solidBefore? lead lead.length == some '=') inner ++
          maskFrom .inside none after) := by
    rw [mask_append hlead (hinside.append hlead (startsWithLetter_cover _ _ _)), maskFrom_cover]
  have hmask : solidBefore? lead lead.length = some '=' ∨
      startsWith ['.', '.', '.'] inner = true →
      mask (lead ++ '\x7b' :: (inner ++ '\x7d' :: after)) =
        lead ++ (cover (solidBefore? lead lead.length == some '=') inner ++
          maskFrom .inside none after) := by
    intro hasked
    rw [mask_append hlead hreached, maskFrom_expression_cover hcloses hasked]
  refine ⟨fun hvalue => ?_, fun hspread hdots => ?_, fun hasked => ⟨?_, ?_⟩⟩
  · rw [hmask (.inl hvalue), ← hcovered, hvalue, beq_self_eq_true, cover]
    simp
  · rw [hmask (.inr hdots), ← hcovered, beq_false_of_ne hspread, cover]
    simp
  · exact .leap hreached (expression_append hcloses hasked after)
  · rw [hmask hasked, ← List.append_assoc]
    exact List.drop_left' (by rw [List.length_append, length_cover]; omega)

/-- A handler with a brace in a string, a quote and a `>`. -/
def braceHandler : List Char :=
  "() => f(\"".toList ++ '\x7d' :: "'\")".toList

/-- Neither the brace nor the quote nor the `>` of a handler is seen by the scan, and no `>` of a
spread either. -/
theorem mask_covers_expressions_handler :
    mask ("<a b=".toList ++ '\x7b' :: (braceHandler ++ '\x7d' :: " c>".toList)) =
      mask ("<a b=".toList ++ '"' :: (braceHandler.map blank ++ '"' :: " c>".toList)) ∧
    mask ("<a ".toList ++ '\x7b' :: ("...p>q".toList ++ '\x7d' :: " c>".toList)) =
      mask ("<a ".toList ++ ' ' :: ("...p>q".toList.map blank ++ ' ' :: " c>".toList)) := by
  have hspread : Reached "<a ".toList 3 .inside :=
    ((Reached.start.over (c := '<') rfl (by decide)).over (c := 'a') rfl (by decide)).over
      (c := ' ') rfl (by decide)
  have hvalue : Reached "<a b=".toList 5 .inside :=
    ((((Reached.start.over (c := '<') rfl (by decide)).over (c := 'a') rfl (by decide)).over
      (c := ' ') rfl (by decide)).over (c := 'b') rfl (by decide)).over (c := '=') rfl (by decide)
  exact ⟨(mask_covers_expressions (by decide) hvalue (by decide +kernel) _).1 (by decide),
    (mask_covers_expressions (by decide) hspread (by decide +kernel) _).2.1 (by decide)
      (by decide)⟩

end Mooring.Markup
