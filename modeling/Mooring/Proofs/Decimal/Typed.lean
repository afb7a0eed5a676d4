import Mooring.Proofs.Decimal.Spelling

/-!
# The reader of typed numbers

The reader takes just the texts of the grammar, blanks around them left out, and gives the double
that they spell (`readFloat?_eq_some_iff`).  So it is for each part: exponents (`exponentOf?_iff`),
numerals (`numeralOf?_iff`) and words (`readWord_iff`).

The reader tries a numeral first and then a word.  A word starts with a letter, and a numeral does
not, so that the order makes no difference (`IsWord.numeralOf?_eq_none`).
-/

namespace Mooring.Decimal

open Mooring.Text

variable {c : Char} {d : Nat} {cs text body sign word : List Char} {ds whole places : List Nat}
variable {negative : Bool} {e : Int} {x : Float}

/-! ## Signs and exponents -/

/-- The text does not start with a sign. -/
def NoSign (cs : List Char) : Prop :=
  ∀ c rest, cs = c :: rest → c ≠ '+' ∧ c ≠ '-'

theorem signRun_noSign (h : NoSign cs) : signRun (cs.map plain) = (false, cs.map plain) := by
  cases cs with
  | nil => rfl
  | cons c rest =>
    obtain ⟨hplus, hminus⟩ := h c rest rfl
    have hplus' : plain c ≠ '+' := mt (plain_eq_iff (by decide)).mp hplus
    have hminus' : plain c ≠ '-' := mt (plain_eq_iff (by decide)).mp hminus
    rw [List.map_cons]
    unfold signRun
    split
    next heq => exact absurd (List.cons.inj heq).1 hminus'
    next heq => exact absurd (List.cons.inj heq).1 hplus'
    next => rfl

theorem Sign.signRun_append (h : Sign sign negative) (hbody : NoSign body) :
    signRun ((sign ++ body).map plain) = (negative, body.map plain) := by
  have hmark : plain '+' = '+' ∧ plain '-' = '-' := by decide
  cases h with
  | absent => exact signRun_noSign hbody
  | plus =>
    rw [List.singleton_append, List.map_cons, hmark.1]
    rfl
  | minus =>
    rw [List.singleton_append, List.map_cons, hmark.2]
    rfl

/-- **Every text starts with a sign**, or with none, and the reader finds it. -/
theorem exists_sign (cs : List Char) : ∃ sign body negative, cs = sign ++ body ∧
    Sign sign negative ∧ signRun (cs.map plain) = (negative, body.map plain) := by
  by_cases hplus : ∃ rest, cs = '+' :: rest
  · obtain ⟨rest, rfl⟩ := hplus
    exact ⟨['+'], rest, false, rfl, .plus, rfl⟩
  · by_cases hminus : ∃ rest, cs = '-' :: rest
    · obtain ⟨rest, rfl⟩ := hminus
      exact ⟨['-'], rest, true, rfl, .minus, rfl⟩
    · refine ⟨[], cs, false, rfl, .absent, signRun_noSign fun c rest hcs => ⟨?_, ?_⟩⟩
      · rintro rfl
        exact hplus ⟨rest, hcs⟩
      · rintro rfl
        exact hminus ⟨rest, hcs⟩

theorem decimalValue?_sign : decimalValue? '+' = none ∧ decimalValue? '-' = none := by
  decide

theorem noSign_digit (hc : decimalValue? c = some d) (rest : List Char) : NoSign (c :: rest) := by
  intro c' rest' hsplit
  obtain ⟨rfl, -⟩ := List.cons.inj hsplit
  constructor
  · rintro rfl
    rw [decimalValue?_sign.1] at hc
    exact absurd hc (by simp)
  · rintro rfl
    rw [decimalValue?_sign.2] at hc
    exact absurd hc (by simp)

theorem DigitPart.noSign (h : DigitPart cs ds) (text : List Char) : NoSign (cs ++ text) := by
  obtain ⟨c, d, rest, rfl, hc⟩ := h.exists_digit
  exact noSign_digit hc (rest ++ text)

theorem stops_nil : Stops [] := by
  intro c rest h
  exact absurd h (by simp)

theorem Exponent.stops (h : Exponent text e) : Stops text := by
  cases h with
  | absent => exact stops_nil
  | present hmark _ _ =>
    intro c rest hsplit
    obtain ⟨rfl, -⟩ := List.cons.inj hsplit
    rcases hmark with rfl | rfl <;> decide

theorem decimalValue?_exponent : decimalValue? 'e' = none ∧ decimalValue? 'E' = none := by
  decide

theorem isExponentMark_iff :
    (plain c == 'e' || plain c == 'E') = true ↔ c = 'e' ∨ c = 'E' := by
  rw [Bool.or_eq_true, beq_iff_eq, beq_iff_eq, plain_eq_iff decimalValue?_exponent.1,
    plain_eq_iff decimalValue?_exponent.2]

/-- A run of digits up to the end of the text. -/
theorem Run.digitPart {front back : List Char} (h : Run cs front back ds)
    (hends : ¬((ds.map digitChar).isEmpty || !(back.map plain).isEmpty) = true) :
    DigitPart cs ds := by
  obtain ⟨rfl, hfront, -⟩ := h
  rw [Bool.or_eq_true, not_or] at hends
  have hds : ds ≠ [] := by
    rintro rfl
    exact hends.1 rfl
  have hback : back = [] := by
    cases back with
    | nil => rfl
    | cons c rest => exact absurd rfl hends.2
  rw [hback, List.append_nil]
  exact hfront.resolve_left fun hnone => hds hnone.2.1

/-- **The reader takes just the exponents.** -/
theorem exponentOf?_iff : exponentOf? (cs.map plain) = some e ↔ Exponent cs e := by
  constructor
  · intro h
    cases cs with
    | nil =>
      obtain rfl := Option.some.inj h
      exact .absent
    | cons c rest =>
      obtain ⟨sign, body, negative, rfl, hsign, hrunSign⟩ := exists_sign rest
      obtain ⟨front, back, ds, hrun⟩ := exists_run body
      rw [List.map_cons, exponentOf?] at h
      split at h
      next hmark =>
        rw [hrunSign] at h
        dsimp only at h
        rw [hrun.2.2] at h
        dsimp only at h
        split at h
        next => exact absurd h (by simp)
        next hends =>
          have hdigits := hrun.digitPart hends
          rw [digitsValue_digits hdigits.lt] at h
          rw [← Option.some.inj h]
          exact .present (isExponentMark_iff.mp hmark) hsign hdigits
      next => exact absurd h (by simp)
  · intro h
    cases h with
    | absent => rfl
    | present hmark hsign hdigits =>
      have hbody := hdigits.noSign []
      have hrun := hdigits.digitRun_append stops_nil
      rw [List.append_nil] at hbody hrun
      rw [List.map_cons, exponentOf?, if_pos (isExponentMark_iff.mpr hmark),
        hsign.signRun_append hbody]
      dsimp only
      rw [hrun]
      dsimp only
      rw [if_neg, digitsValue_digits hdigits.lt]
      rw [List.isEmpty_map, List.isEmpty_eq_false_iff.mpr hdigits.ne_nil]
      exact Bool.false_ne_true

/-! ## Numerals -/

section

variable {more back : List Char} {n : Numeral}

/-- What the reader makes of the digits before and after the point and of what follows them. -/
theorem numeral_of_digits (hlt : ∀ d ∈ whole ++ places, d < 10) :
    (if (whole.map digitChar).isEmpty && (places.map digitChar).isEmpty then none
      else (exponentOf? (back.map plain)).map fun e =>
        (⟨negative, digitsValue 10 (whole.map digitChar ++ places.map digitChar),
          e - ((places.map digitChar).length : Int)⟩ : Numeral)) = some n ↔
      whole ++ places ≠ [] ∧ ∃ e, Exponent back e ∧
        n = ⟨negative, wholeValue (whole ++ places), e - (places.length : Int)⟩ := by
  have hempty : ((whole.map digitChar).isEmpty && (places.map digitChar).isEmpty) = true ↔
      whole ++ places = [] := by
    rw [Bool.and_eq_true, List.isEmpty_map, List.isEmpty_map, List.isEmpty_iff, List.isEmpty_iff,
      List.append_eq_nil_iff]
  rw [List.length_map, ← List.map_append, digitsValue_digits hlt]
  by_cases hnone : whole ++ places = []
  · rw [if_pos (hempty.mpr hnone)]
    exact iff_of_false (by simp) fun h => h.1 hnone
  · rw [if_neg (mt hempty.mp hnone), Option.map_eq_some_iff]
    simp only [exponentOf?_iff]
    constructor
    · rintro ⟨e, he, rfl⟩
      exact ⟨hnone, e, he, rfl⟩
    · rintro ⟨-, e, he, rfl⟩
      exact ⟨e, he, rfl⟩

/-- A numeral with a point. -/
theorem numeralOf?_point (hlt : ∀ d ∈ whole ++ places, d < 10)
    (hwhole : digitRun (cs.map plain) = (whole.map digitChar, ('.' :: more).map plain))
    (hplaces : digitRun (more.map plain) = (places.map digitChar, back.map plain)) :
    numeralOf? negative (cs.map plain) = some n ↔
      whole ++ places ≠ [] ∧ ∃ e, Exponent back e ∧
        n = ⟨negative, wholeValue (whole ++ places), e - (places.length : Int)⟩ := by
  rw [numeralOf?, hwhole, List.map_cons, show plain '.' = '.' by decide]
  dsimp only
  split
  next rest heq =>
    rw [← (List.cons.inj heq).2, hplaces]
    exact numeral_of_digits hlt
  next hnone => exact absurd rfl (hnone _)

/-- A numeral without a point. -/
theorem numeralOf?_whole (hlt : ∀ d ∈ whole, d < 10) (hback : ∀ more, back ≠ '.' :: more)
    (hwhole : digitRun (cs.map plain) = (whole.map digitChar, back.map plain)) :
    numeralOf? negative (cs.map plain) = some n ↔
      whole ≠ [] ∧ ∃ e, Exponent back e ∧ n = ⟨negative, wholeValue whole, e⟩ := by
  have hpoint (rest : List Char) : back.map plain ≠ '.' :: rest := by
    intro hrest
    obtain ⟨c, more, rfl, hc, -⟩ := List.map_eq_cons_iff.mp hrest
    rw [(plain_eq_iff (by decide)).mp hc] at hback
    exact hback more rfl
  have hlt' : ∀ d ∈ whole ++ [], d < 10 := by rwa [List.append_nil]
  have hdigits := @numeral_of_digits whole [] negative back n hlt'
  simp only [List.append_nil, List.length_nil, Nat.cast_zero, Int.sub_zero] at hdigits
  rw [← hdigits, numeralOf?, hwhole]
  dsimp only
  split
  next heq => exact absurd heq (hpoint _)
  next => rfl

theorem stops_point (text : List Char) : Stops ('.' :: text) := by
  intro c rest hsplit
  obtain ⟨rfl, -⟩ := List.cons.inj hsplit
  decide

theorem Stops.digitRun (h : Stops text) :
    digitRun (text.map plain) = (([] : List Nat).map digitChar, text.map plain) :=
  digitRun_noDigit fun c rest hsplit => (h c rest hsplit).1

theorem Exponent.ne_point (h : Exponent text e) (more : List Char) : text ≠ '.' :: more := by
  rintro rfl
  generalize hsplit : '.' :: more = text at h
  cases h with
  | absent => exact absurd hsplit (by simp)
  | present hmark _ _ =>
    obtain ⟨rfl, -⟩ := List.cons.inj hsplit
    exact absurd hmark (by decide)

/-- **The reader takes just the numerals.** -/
theorem numeralOf?_iff : numeralOf? negative (cs.map plain) = some n ↔
    ∃ text exponent whole places e, cs = text ++ exponent ∧ Mantissa text whole places ∧
      Exponent exponent e ∧
      n = ⟨negative, wholeValue (whole ++ places), e - (places.length : Int)⟩ := by
  constructor
  · intro h
    obtain ⟨front, back, whole, hwholeRun⟩ := exists_run cs
    have hwhole := hwholeRun.lt
    obtain ⟨hsplit, hfront, hrun⟩ := hwholeRun
    by_cases hpoint : ∃ more, back = '.' :: more
    · obtain ⟨more, rfl⟩ := hpoint
      obtain ⟨front', back', places, hplacesRun⟩ := exists_run more
      have hplaces := hplacesRun.lt
      obtain ⟨rfl, hfront', hrun'⟩ := hplacesRun
      obtain ⟨hsome, e, he, rfl⟩ :=
        (numeralOf?_point (List.forall_mem_append.mpr ⟨hwhole, hplaces⟩) hrun hrun').mp h
      refine ⟨front ++ '.' :: front', back', whole, places, e, ?_, ?_, he, rfl⟩
      · rw [hsplit, List.append_assoc, List.cons_append]
      -- The reader refuses only that both runs of digits are empty.
      · rcases hfront with ⟨rfl, rfl, -⟩ | hdigits
        · rcases hfront' with ⟨rfl, rfl, -⟩ | hdigits'
          · exact absurd rfl hsome
          · exact .places hdigits'
        · rcases hfront' with ⟨rfl, rfl, -⟩ | hdigits'
          · exact .point hdigits
          · exact .both hdigits hdigits'
    · obtain ⟨hsome, e, he, rfl⟩ :=
        (numeralOf?_whole hwhole (fun more hback => hpoint ⟨more, hback⟩) hrun).mp h
      rcases hfront with ⟨rfl, rfl, -⟩ | hdigits
      · exact absurd rfl hsome
      · refine ⟨front, back, whole, [], e, hsplit, .whole hdigits, he, ?_⟩
        rw [List.append_nil, List.length_nil, Nat.cast_zero, Int.sub_zero]
  · rintro ⟨text, exponent, whole, places, e, rfl, hmantissa, he, rfl⟩
    have hexponent := he.stops.digitRun
    cases hmantissa with
    | whole h =>
      refine (numeralOf?_whole h.lt he.ne_point (h.digitRun_append he.stops)).mpr
        ⟨h.ne_nil, e, he, ?_⟩
      rw [List.append_nil, List.length_nil, Nat.cast_zero, Int.sub_zero]
    | point h =>
      have hrun := h.digitRun_append (stops_point exponent)
      rw [List.append_assoc, List.singleton_append]
      refine (numeralOf?_point ?_ hrun hexponent).mpr ⟨?_, e, he, rfl⟩
      · rw [List.append_nil]
        exact h.lt
      · rw [List.append_nil]
        exact h.ne_nil
    | @places cs _ h =>
      have hrun := (stops_point (cs ++ exponent)).digitRun
      rw [List.cons_append]
      exact (numeralOf?_point h.lt hrun (h.digitRun_append he.stops)).mpr ⟨h.ne_nil, e, he, rfl⟩
    | @both _ cs' _ _ h h' =>
      have hrun := h.digitRun_append (stops_point (cs' ++ exponent))
      rw [List.append_assoc, List.cons_append]
      refine (numeralOf?_point ?_ hrun (h'.digitRun_append he.stops)).mpr ⟨?_, e, he, rfl⟩
      · exact List.forall_mem_append.mpr ⟨h.lt, h'.lt⟩
      · exact List.append_ne_nil_of_left_ne_nil h.ne_nil _

end

/-! ## Words -/

/-- The word is written in small ASCII letters. -/
def IsSmallWord (word : List Char) : Prop :=
  ∀ letter ∈ word, 97 ≤ letter.toNat ∧ letter.toNat ≤ 122

theorem toNat_plain_of_digit (h : decimalValue? c = some d) : (plain c).toNat < 58 := by
  rw [plain_of_digit h, toNat_digitChar (decimalValue?_lt h)]
  have := decimalValue?_lt h
  omega

/-- A letter of either case is no digit. -/
theorem decimalValue?_letter {letter : Char} (h : 97 ≤ letter.toNat ∧ letter.toNat ≤ 122)
    (hc : c = letter ∨ c.toNat + 32 = letter.toNat) :
    65 ≤ c.toNat ∧ c.toNat < 128 ∧ decimalValue? c = none := by
  have hrange : 65 ≤ c.toNat ∧ c.toNat < 128 := by
    rcases hc with rfl | hc <;> omega
  refine ⟨hrange.1, hrange.2, decimalValue?_of_ascii hrange.2 (Bool.eq_false_iff.mpr ?_)⟩
  intro hdigit
  have := isAsciiDigit_iff.mp hdigit
  omega

/-- A character that is a letter but for its case. -/
theorem lowerChar_plain_iff {letter : Char} (h : 97 ≤ letter.toNat ∧ letter.toNat ≤ 122) :
    (plain c).toNat < 128 ∧ lowerChar (plain c) = letter ↔
      c = letter ∨ c.toNat + 32 = letter.toNat := by
  constructor
  · rintro ⟨hascii, rfl⟩
    have hcases := lowerChar_ascii hascii
    cases hc : decimalValue? c with
    | some d =>
      have hdigit := toNat_plain_of_digit hc
      rcases hcases with ⟨hlow, -, -⟩ | ⟨-, hself⟩
      · omega
      · rw [hself] at h
        omega
    | none =>
      rw [plain_of_none hc] at hcases ⊢
      rcases hcases with ⟨-, -, hsmall⟩ | ⟨-, hself⟩
      · exact Or.inr hsmall.symm
      · exact Or.inl hself.symm
  · intro hc
    obtain ⟨-, hascii, hnone⟩ := decimalValue?_letter h hc
    rw [plain_of_none hnone]
    refine ⟨hascii, ?_⟩
    rcases lowerChar_ascii hascii with ⟨hlow, hhigh, hsmall⟩ | ⟨hother, hself⟩
    · rcases hc with rfl | hc
      · omega
      · exact Char.toNat_inj.mp (hsmall.trans hc)
    · rcases hc with rfl | hc
      · exact hself
      · omega

theorem isWord_iff (hword : IsSmallWord word) :
    (∀ c ∈ body.map plain, c.toNat < 128) ∧ (body.map plain).map lowerChar = word ↔
      IsWord body word := by
  induction body generalizing word with
  | nil =>
    cases word with
    | nil => exact iff_of_true ⟨fun c hc => absurd hc List.not_mem_nil, rfl⟩ .nil
    | cons letter word => exact iff_of_false (fun h => absurd h.2 (by simp)) (fun h => nomatch h)
  | cons c body ih =>
    cases word with
    | nil => exact iff_of_false (fun h => absurd h.2 (by simp)) (fun h => nomatch h)
    | cons letter word =>
      obtain ⟨hletter, hword⟩ := List.forall_mem_cons.mp hword
      rw [IsWord, List.forall₂_cons, ← lowerChar_plain_iff hletter, ← IsWord, ← ih hword,
        List.map_cons, List.map_cons, List.forall_mem_cons, List.cons.injEq]
      tauto

/-- A word starts with a letter. -/
theorem IsWord.exists_letter (h : IsWord text word) (hword : IsSmallWord word) (hne : word ≠ []) :
    ∃ c rest, text = c :: rest ∧ decimalValue? c = none ∧ c ≠ '.' ∧ c ≠ '+' ∧ c ≠ '-' := by
  cases h with
  | nil => exact absurd rfl hne
  | @cons c letter rest _ hc _ =>
    obtain ⟨hlow, -, hnone⟩ := decimalValue?_letter (hword letter List.mem_cons_self) hc
    have hmark {mark : Char} (hmark : mark.toNat < 65) : c ≠ mark := by
      rintro rfl
      omega
    exact ⟨c, rest, rfl, hnone, hmark (by decide), hmark (by decide), hmark (by decide)⟩

/-- A numeral starts with a digit or with its point. -/
theorem Mantissa.exists_start (h : Mantissa text whole places) :
    ∃ c rest, text = c :: rest ∧ ((∃ d, decimalValue? c = some d) ∨ c = '.') := by
  have hdigits {cs : List Char} {ds : List Nat} (h : DigitPart cs ds) (more : List Char) :
      ∃ c rest, cs ++ more = c :: rest ∧ ((∃ d, decimalValue? c = some d) ∨ c = '.') := by
    obtain ⟨c, d, rest, rfl, hc⟩ := h.exists_digit
    exact ⟨c, rest ++ more, rfl, Or.inl ⟨d, hc⟩⟩
  cases h with
  | whole h =>
    have hstart := hdigits h []
    rwa [List.append_nil] at hstart
  | point h => exact hdigits h _
  | places h => exact ⟨'.', _, rfl, Or.inr rfl⟩
  | both h h' => exact hdigits h _

theorem Mantissa.noSign (h : Mantissa text whole places) (more : List Char) :
    NoSign (text ++ more) := by
  obtain ⟨c, rest, rfl, ⟨d, hc⟩ | rfl⟩ := h.exists_start
  · exact noSign_digit hc (rest ++ more)
  · intro c' rest' hsplit
    obtain ⟨rfl, -⟩ := List.cons.inj hsplit
    decide

theorem IsWord.noSign (h : IsWord text word) (hword : IsSmallWord word) (hne : word ≠ []) :
    NoSign text := by
  obtain ⟨c, rest, rfl, -, -, hplus, hminus⟩ := h.exists_letter hword hne
  intro c' rest' hsplit
  obtain ⟨rfl, -⟩ := List.cons.inj hsplit
  exact ⟨hplus, hminus⟩

/-- A word is no numeral. -/
theorem IsWord.numeralOf?_eq_none (h : IsWord text word) (hword : IsSmallWord word)
    (hne : word ≠ []) : numeralOf? negative (text.map plain) = none := by
  refine Option.eq_none_iff_forall_ne_some.mpr fun n hn => ?_
  obtain ⟨cs, exponent, whole, places, e, rfl, hmantissa, -, -⟩ := numeralOf?_iff.mp hn
  obtain ⟨c, rest, rfl, hc⟩ := hmantissa.exists_start
  obtain ⟨c', rest', hsplit, hnone, hpoint, -, -⟩ := h.exists_letter hword hne
  obtain ⟨rfl, -⟩ := List.cons.inj hsplit
  rcases hc with ⟨d, hc⟩ | rfl
  · rw [hnone] at hc
    exact absurd hc (by simp)
  · exact hpoint rfl

/-! ## The reader -/

theorem isSmallWord_words :
    IsSmallWord "inf".toList ∧ IsSmallWord "infinity".toList ∧ IsSmallWord "nan".toList := by
  have hsmall (word : List Char) (h : (word.all fun c => 97 ≤ c.toNat && c.toNat ≤ 122) = true) :
      IsSmallWord word := by
    intro letter hletter
    have := List.all_eq_true.mp h letter hletter
    rwa [Bool.and_eq_true, decide_eq_true_iff, decide_eq_true_iff] at this
  exact ⟨hsmall _ (by decide), hsmall _ (by decide), hsmall _ (by decide)⟩

/-- What the reader makes of a text that is no numeral. -/
theorem readWord_iff :
    (let name := String.ofList ((body.map plain).map lowerChar)
      if (body.map plain).any fun c => 128 ≤ c.toNat then none
      else if name == "inf" || name == "infinity" then some (infinity negative)
      else if name == "nan" then some notANumber
      else none) = some x ↔
      (IsWord body "inf".toList ∨ IsWord body "infinity".toList) ∧ x = infinity negative ∨
        IsWord body "nan".toList ∧ x = notANumber := by
  obtain ⟨hinf, hinfinity, hnan⟩ := isSmallWord_words
  -- Each word is compared as the reader does it: ASCII first, then the small letters.
  rw [← isWord_iff hinf, ← isWord_iff hinfinity, ← isWord_iff hnan]
  generalize body.map plain = body
  have hname (s : String) : (String.ofList (body.map lowerChar) == s) = true ↔
      body.map lowerChar = s.toList := by
    rw [beq_iff_eq, ← String.toList_inj, String.toList_ofList]
  have hnone : ¬(none : Option Float) = some x := by simp
  dsimp only
  by_cases hascii : ∀ c ∈ body, c.toNat < 128
  · have hany : ¬(body.any fun c => 128 ≤ c.toNat) = true := by
      rw [List.any_eq_true]
      rintro ⟨c, hc, hlarge⟩
      exact absurd (hascii c hc) (Nat.not_lt.mpr (decide_eq_true_iff.mp hlarge))
    rw [if_neg hany, and_iff_right hascii, and_iff_right hascii, and_iff_right hascii, ← hname,
      ← hname, ← hname, ← Bool.or_eq_true]
    by_cases hlarge : (String.ofList (body.map lowerChar) == "inf" ||
        String.ofList (body.map lowerChar) == "infinity") = true
    · have hother : ¬(String.ofList (body.map lowerChar) == "nan") = true := by
        rw [beq_iff_eq]
        intro hnan
        rw [hnan] at hlarge
        exact absurd hlarge (by decide)
      rw [if_pos hlarge, and_iff_right hlarge, Option.some_inj, eq_comm]
      exact (or_iff_left fun h => hother h.1).symm
    · rw [if_neg hlarge, or_iff_right fun h => hlarge h.1]
      by_cases hword : (String.ofList (body.map lowerChar) == "nan") = true
      · rw [if_pos hword, and_iff_right hword, Option.some_inj, eq_comm]
      · rw [if_neg hword]
        exact iff_of_false hnone fun h => hword h.1
  · have hany : (body.any fun c => 128 ≤ c.toNat) = true := by
      by_contra hall
      refine hascii fun c hc => Nat.lt_of_not_le fun hlarge => hall ?_
      exact List.any_eq_true.mpr ⟨c, hc, decide_eq_true hlarge⟩
    rw [if_pos hany]
    refine iff_of_false hnone ?_
    rintro (⟨⟨h, -⟩ | ⟨h, -⟩, -⟩ | ⟨⟨h, -⟩, -⟩) <;> exact hascii h

/-- **The reader takes just the texts of the grammar, and gives the number that they spell.** -/
theorem readFloat?_eq_some_iff : readFloat? cs = some x ↔ Spells (bareNumber cs) x := by
  obtain ⟨hinf, hinfinity, hnan⟩ := isSmallWord_words
  rw [readFloat?, plainNumber_eq]
  generalize bareNumber cs = text
  constructor
  · intro h
    obtain ⟨sign, body, negative, rfl, hsign, hrun⟩ := exists_sign text
    rw [hrun] at h
    dsimp only at h
    split at h
    next n hn =>
      obtain ⟨cs, exponent, whole, places, e, rfl, hmantissa, hexponent, rfl⟩ :=
        numeralOf?_iff.mp hn
      rw [Numeral.toFloat_eq] at h
      rw [← Option.some.inj h]
      exact .numeral hsign hmantissa hexponent
    next =>
      rcases readWord_iff.mp h with ⟨hword, rfl⟩ | ⟨hword, rfl⟩
      · exact .infinity hsign hword
      · exact .notANumber hsign hword
  · intro h
    cases h with
    | numeral hsign hmantissa hexponent =>
      rw [hsign.signRun_append (hmantissa.noSign _)]
      dsimp only
      rw [numeralOf?_iff.mpr ⟨_, _, _, _, _, rfl, hmantissa, hexponent, rfl⟩]
      dsimp only
      rw [Numeral.toFloat_eq]
    | infinity hsign hname =>
      obtain ⟨word, hsmall, hne, hword⟩ : ∃ word, IsSmallWord word ∧ word ≠ [] ∧ IsWord _ word := by
        rcases hname with hword | hword
        · exact ⟨_, hinf, by decide, hword⟩
        · exact ⟨_, hinfinity, by decide, hword⟩
      rw [hsign.signRun_append (hword.noSign hsmall hne)]
      dsimp only
      rw [hword.numeralOf?_eq_none hsmall hne]
      exact readWord_iff.mpr (Or.inl ⟨hname, rfl⟩)
    | notANumber hsign hname =>
      rw [hsign.signRun_append (hname.noSign hnan (by decide))]
      dsimp only
      rw [hname.numeralOf?_eq_none hnan (by decide)]
      exact readWord_iff.mpr (Or.inr ⟨hname, rfl⟩)

end Mooring.Decimal
