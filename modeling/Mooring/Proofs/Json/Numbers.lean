import Mathlib.Data.List.TakeWhile
import Mooring.Json.Reader
import Mooring.Json.Writer
import Mooring.Proofs.Decimal.Numerals
import Mooring.Proofs.Text.Finding

/-!
# Written numbers are read back

A whole number in its digits is read as that number (`readNumber?_natText`), and a double in its
shortest digits as that double (`readPlain?_writeFloat`), whatever follows that does not go on with
the number (`EndsNumber`).

A numeral is written in one of three forms, by the place of its point: with zeros filled in behind
or in front, or with an exponent.  What is read need not be the same numeral, since zeros may have
been added, but it has the same value (`readsAs_text`), and a double goes by the value.
-/

namespace Mooring.Json

open Mooring.Decimal Mooring.Text

/-- The text does not begin with a digit. -/
def NoDigit (cs : List Char) : Prop :=
  ∀ c ∈ cs.head?, isAsciiDigit c = false

/-- The text does not go on with a number that ends before it. -/
def EndsNumber (cs : List Char) : Prop :=
  ∀ c ∈ cs.head?, isAsciiDigit c = false ∧ c ≠ '.' ∧ c ≠ 'e' ∧ c ≠ 'E'

theorem EndsNumber.noDigit {cs : List Char} (h : EndsNumber cs) : NoDigit cs :=
  fun c hc => (h c hc).1

theorem noDigit_cons {c : Char} {cs : List Char} (h : isAsciiDigit c = false) :
    NoDigit (c :: cs) := by
  intro c' hc'
  rw [List.head?_cons, Option.mem_some_iff] at hc'
  exact hc' ▸ h

theorem zeros_all (k : Nat) : ∀ c ∈ zeros k, isAsciiDigit c = true := by
  intro c hc
  rw [List.eq_of_mem_replicate hc]
  rfl

/-! ## The parts of a number -/

variable {ds rest : List Char}

/-- Digits are read up to their end. -/
theorem digitsOf_append (hds : ∀ c ∈ ds, isAsciiDigit c = true) (hrest : NoDigit rest) :
    digitsOf (ds ++ rest) = (ds, rest) := by
  unfold digitsOf
  have htake : rest.takeWhile isAsciiDigit = [] := by
    cases rest with
    | nil => rfl
    | cons c cs =>
      have hc := hrest c rfl
      simp [hc]
  have hdrop : rest.dropWhile isAsciiDigit = rest := by
    cases rest with
    | nil => rfl
    | cons c cs =>
      have hc := hrest c rfl
      simp [hc]
  rw [List.takeWhile_append_of_pos hds, List.dropWhile_append_of_pos hds, htake, hdrop,
    List.append_nil]

/-- A whole part is digits, and a zero only alone. -/
structure WholePart (cs : List Char) : Prop where
  digits : ∀ c ∈ cs, isAsciiDigit c = true
  ne_nil : cs ≠ []
  zero : ∀ rest, cs = '0' :: rest → rest = []

theorem wholePart_zero : WholePart ['0'] :=
  ⟨by simp [isAsciiDigit], by simp, fun rest h => (List.cons.inj h).2.symm⟩

theorem wholePart?_append (hds : WholePart ds) (hrest : NoDigit rest) :
    wholePart? (ds ++ rest) = some (ds, rest) := by
  obtain ⟨c, cs, rfl⟩ := List.exists_cons_of_ne_nil hds.ne_nil
  by_cases hc : c = '0'
  · subst hc
    obtain rfl := hds.zero cs rfl
    rfl
  · unfold wholePart?
    split
    next h => exact absurd (List.cons.inj h).1 hc
    next => rw [digitsOf_append hds.digits hrest]; rfl

theorem placesPart_append (hds : ∀ c ∈ ds, isAsciiDigit c = true) (hne : ds ≠ [])
    (hrest : NoDigit rest) : placesPart ('.' :: (ds ++ rest)) = (some ds, rest) := by
  show (if (digitsOf (ds ++ rest)).1.isEmpty then _ else _) = _
  rw [digitsOf_append hds hrest, if_neg (by simpa using hne)]

theorem placesPart_none (h : ∀ c ∈ rest.head?, c ≠ '.') : placesPart rest = (none, rest) := by
  unfold placesPart
  split
  next => exact absurd rfl (h '.' rfl)
  next => rfl

theorem exponentPart_none (h : ∀ c ∈ rest.head?, c ≠ 'e' ∧ c ≠ 'E') :
    exponentPart rest = (none, rest) := by
  cases rest with
  | nil => rfl
  | cons c cs =>
    obtain ⟨hlower, hupper⟩ := h c rfl
    unfold exponentPart
    dsimp only
    rw [if_neg (by simp [hlower, hupper])]

theorem exponentPart_text (e : Int) (hrest : NoDigit rest) :
    exponentPart (exponentText e ++ rest) = (some e, rest) := by
  let digits := zeros (2 - (natText e.natAbs).length) ++ natText e.natAbs
  have hall : ∀ c ∈ digits, isAsciiDigit c = true :=
    List.forall_mem_append.mpr ⟨zeros_all _, natText_all _⟩
  have hne : digits.isEmpty = false := by
    obtain ⟨c, cs, hcs, -⟩ := natText_head e.natAbs
    rw [List.isEmpty_eq_false_iff]
    exact List.append_ne_nil_of_right_ne_nil _ (by rw [hcs]; simp)
  -- The exponent is filled up with zeros to two digits, which does not change it.
  have hvalue : digitsValue 10 digits = e.natAbs := by
    rw [digitsValue_zeros_append, digitsValue_natText]
  have hread := digitsOf_append hall hrest
  show exponentPart ('e' :: (if e < 0 then '-' else '+') :: (digits ++ rest)) = _
  unfold exponentPart
  by_cases hsign : e < 0
  · simp only [hsign, if_true, hread, hne, hvalue]
    simp [abs_of_neg hsign]
  · simp only [hsign, if_false, hread, hne, hvalue]
    simp [abs_of_nonneg (Int.not_lt.mp hsign)]

/-! ## Whole numbers -/

theorem wholePart_natText (n : Nat) : WholePart (natText n) := by
  obtain ⟨c, cs, hcs, hc, hzero⟩ := natText_head n
  refine ⟨natText_all n, by rw [hcs]; simp, fun rest h => ?_⟩
  rw [hcs] at h
  obtain ⟨rfl, rfl⟩ := List.cons.inj h
  exact hzero rfl

/-- **A whole number in its digits is read as that number.** -/
theorem readNumber?_natText (negative : Bool) (n : Nat) (hrest : EndsNumber rest) :
    readNumber? negative (natText n ++ rest) =
      some (int (if negative then -(n : Int) else n), rest) := by
  unfold readNumber?
  rw [wholePart?_append (wholePart_natText n) hrest.noDigit]
  simp only [Option.bind_eq_bind, Option.bind_some, placesPart_none fun c hc => (hrest c hc).2.1,
    exponentPart_none fun c hc => (hrest c hc).2.2, digitsValue_natText]
  rfl

/-! ## Doubles -/

/-- A whole part with places. -/
theorem readNumber?_places (negative : Bool) {whole : List Char} (hwhole : WholePart whole)
    (hds : ∀ c ∈ ds, isAsciiDigit c = true) (hne : ds ≠ []) (hrest : EndsNumber rest) :
    readNumber? negative (whole ++ '.' :: ds ++ rest) =
      some (float (Numeral.toFloat ⟨negative, digitsValue 10 (whole ++ ds), -(ds.length : Int)⟩),
        rest) := by
  unfold readNumber?
  rw [List.append_assoc, List.cons_append, wholePart?_append hwhole (noDigit_cons rfl)]
  simp only [Option.bind_eq_bind, Option.bind_some, placesPart_append hds hne hrest.noDigit,
    exponentPart_none fun c hc => (hrest c hc).2.2]
  simp

/-- A single digit with places and an exponent. -/
theorem readNumber?_exponent (negative : Bool) {whole : List Char} (hwhole : WholePart whole)
    (hds : ∀ c ∈ ds, isAsciiDigit c = true) (e : Int) (hrest : EndsNumber rest) :
    readNumber? negative
        (whole ++ (if ds = [] then [] else '.' :: ds) ++ exponentText e ++ rest) =
      some (float (Numeral.toFloat ⟨negative, digitsValue 10 (whole ++ ds), e - (ds.length : Int)⟩),
        rest) := by
  have hexponent : NoDigit (exponentText e ++ rest) := noDigit_cons rfl
  have hread := exponentPart_text e hrest.noDigit
  unfold readNumber?
  -- A single digit is written without a point.
  by_cases hne : ds = []
  · subst hne
    rw [if_pos rfl, List.append_nil, List.append_assoc,
      wholePart?_append hwhole hexponent]
    have hnone : placesPart (exponentText e ++ rest) = (none, exponentText e ++ rest) :=
      placesPart_none fun c hc => by
        rw [← Option.some.inj (show some 'e' = some c from hc)]
        decide
    simp only [Option.bind_eq_bind, Option.bind_some, hnone, hread]
    simp
  · rw [if_neg hne, List.append_assoc, List.append_assoc, List.cons_append,
      wholePart?_append hwhole (noDigit_cons rfl)]
    simp only [Option.bind_eq_bind, Option.bind_some, placesPart_append hds hne hexponent, hread]
    simp

/-! ### The three forms of a numeral -/

theorem wholePart_digitChars {n : Nat} (h : n ≠ 0) : WholePart (digitChars n) := by
  obtain ⟨c, cs, hcs, hc⟩ := digitChars_head h
  refine ⟨digitChars_all n, by rw [hcs]; simp, fun rest hrest => ?_⟩
  rw [hcs] at hrest
  exact absurd (List.cons.inj hrest).1 hc

/-- The start of a whole part that starts with another digit than zero is a whole part. -/
theorem wholePart_take {n k : Nat} (h : n ≠ 0) (hk : 0 < k) :
    WholePart ((digitChars n).take k) := by
  obtain ⟨c, cs, hcs, hc⟩ := digitChars_head h
  obtain ⟨k, rfl⟩ := Nat.exists_eq_succ_of_ne_zero (Nat.pos_iff_ne_zero.mp hk)
  refine ⟨fun d hd => digitChars_all n d (List.mem_of_mem_take hd), by rw [hcs]; simp,
    fun rest hrest => ?_⟩
  rw [hcs, List.take_succ_cons] at hrest
  exact absurd (List.cons.inj hrest).1 hc

theorem wholePart_append_zeros {cs : List Char} (h : WholePart cs) (hne : cs.head? ≠ some '0')
    (k : Nat) : WholePart (cs ++ zeros k) := by
  refine ⟨List.forall_mem_append.mpr ⟨h.digits, zeros_all k⟩,
    List.append_ne_nil_of_left_ne_nil h.ne_nil _, fun rest hrest => ?_⟩
  obtain ⟨c, cs, rfl⟩ := List.exists_cons_of_ne_nil h.ne_nil
  exact absurd (congrArg some (List.cons.inj hrest).1) hne

theorem not_contains_point {cs : List Char} (h : ∀ c ∈ cs, isAsciiDigit c = true) :
    cs.contains '.' = false := by
  rw [Bool.eq_false_iff, Ne, List.contains_iff_mem]
  exact fun hmem => absurd (h '.' hmem) (by decide)

/-- A written numeral is read as a double of its value. -/
def ReadsAs (negative : Bool) (n : Numeral) (cs : List Char) : Prop :=
  ∃ digits exponent, SameValue digits exponent n.digits n.exponent ∧
    ∀ rest, EndsNumber rest → readNumber? negative (cs ++ rest) =
      some (float (Numeral.toFloat ⟨negative, digits, exponent⟩), rest)

theorem readsAs_places (negative : Bool) {n : Numeral} {whole : List Char}
    (hwhole : WholePart whole) (hds : ∀ c ∈ ds, isAsciiDigit c = true) (hne : ds ≠ [])
    (hvalue : SameValue (digitsValue 10 (whole ++ ds)) (-(ds.length : Int)) n.digits n.exponent) :
    ReadsAs negative n (whole ++ '.' :: ds) :=
  ⟨_, _, hvalue, fun _ hrest => readNumber?_places negative hwhole hds hne hrest⟩

/-- A numeral whose point comes after all its digits: zeros are filled in before the point, and one
is written after it. -/
theorem readsAs_whole (negative : Bool) {n : Numeral} (h : n.digits ≠ 0) {k : Nat}
    (hk : n.exponent = k) :
    ReadsAs negative n (digitChars n.digits ++ zeros k ++ '.' :: ['0']) := by
  have hhead : (digitChars n.digits).head? ≠ some '0' := by
    obtain ⟨c, cs, hcs, hc⟩ := digitChars_head h
    rw [hcs]
    exact fun hsome => hc (Option.some.inj hsome)
  have hdigits : ∀ c ∈ ['0'], isAsciiDigit c = true := by simp [isAsciiDigit]
  refine readsAs_places negative (wholePart_append_zeros (wholePart_digitChars h) hhead k) hdigits
    (by simp) ?_
  -- The zero after the point counts as one more of the zeros before it.
  have hzero := sameValue_zeros n.digits (-1) (k + 1)
  rw [show (-1 : Int) + ((k + 1 : Nat) : Int) = n.exponent by omega] at hzero
  rw [List.append_assoc, show zeros k ++ ['0'] = zeros (k + 1) from List.replicate_succ'.symm,
    digitsValue_append_zeros, digitsValue_digitChars]
  exact hzero

/-- A numeral whose point comes among its digits. -/
theorem readsAs_inside (negative : Bool) {n : Numeral} (h : n.digits ≠ 0) {k : Nat} (hpos : 0 < k)
    (hk : (k : Int) = (digitChars n.digits).length + n.exponent)
    (hlt : k < (digitChars n.digits).length) :
    ReadsAs negative n ((digitChars n.digits).take k ++ '.' :: (digitChars n.digits).drop k) := by
  have hne : (digitChars n.digits).drop k ≠ [] := by
    rw [Ne, List.drop_eq_nil_iff]
    omega
  refine readsAs_places negative (wholePart_take h hpos)
    (fun c hc => digitChars_all n.digits c (List.mem_of_mem_drop hc)) hne ?_
  rw [List.take_append_drop, digitsValue_digitChars, List.length_drop,
    show -(((digitChars n.digits).length - k : Nat) : Int) = n.exponent by omega]
  exact rfl

/-- A numeral whose point comes before all its digits, with zeros between. -/
theorem readsAs_fraction (negative : Bool) {n : Numeral} (h : n.digits ≠ 0) {k : Nat}
    (hk : -(k : Int) = (digitChars n.digits).length + n.exponent) :
    ReadsAs negative n (['0'] ++ '.' :: (zeros k ++ digitChars n.digits)) := by
  have hne : zeros k ++ digitChars n.digits ≠ [] :=
    List.append_ne_nil_of_right_ne_nil _ (wholePart_digitChars h).ne_nil
  have hdigits : ∀ c ∈ zeros k ++ digitChars n.digits, isAsciiDigit c = true :=
    List.forall_mem_append.mpr ⟨zeros_all k, digitChars_all n.digits⟩
  refine readsAs_places negative wholePart_zero hdigits hne ?_
  rw [← List.append_assoc, show ['0'] ++ zeros k = zeros (k + 1) from rfl,
    digitsValue_zeros_append, digitsValue_digitChars, List.length_append, length_zeros,
    show -((k + (digitChars n.digits).length : Nat) : Int) = n.exponent by omega]
  exact rfl

/-- The form with a point and no exponent. -/
theorem readsAs_positional (negative : Bool) {n : Numeral} (h : n.digits ≠ 0) :
    ReadsAs negative n
      (let body := positional (digitChars n.digits) ((digitChars n.digits).length + n.exponent)
      if body.contains '.' then body else body ++ ['.', '0']) := by
  have hpoint : ∀ {cs ds : List Char}, (cs ++ '.' :: ds).contains '.' = true := by simp
  generalize hp : ((digitChars n.digits).length : Int) + n.exponent = point
  unfold positional
  by_cases hpos : 0 < point
  · by_cases hlong : (digitChars n.digits).length ≤ point.toNat
    · have hwhole : (digitChars n.digits ++
          zeros (point.toNat - (digitChars n.digits).length)).contains '.' = false :=
        not_contains_point (List.forall_mem_append.mpr ⟨digitChars_all n.digits, zeros_all _⟩)
      simp only [if_pos hpos, List.take_of_length_le hlong, List.drop_of_length_le hlong,
        List.isEmpty_nil, if_true, hwhole, Bool.false_eq_true, if_false]
      exact readsAs_whole negative h (by omega)
    · have hdrop : ((digitChars n.digits).drop point.toNat).isEmpty = false := by
        rw [List.isEmpty_eq_false_iff, Ne, List.drop_eq_nil_iff]
        exact hlong
      simp only [if_pos hpos, show point.toNat - (digitChars n.digits).length = 0 by omega,
        show zeros 0 = [] from rfl, List.append_nil, hdrop, Bool.false_eq_true, if_false,
        hpoint, if_true]
      exact readsAs_inside negative h (by omega) (by omega) (by omega)
  · have hplaces : (zeros (-point).toNat ++ digitChars n.digits).isEmpty = false := by
      rw [List.isEmpty_eq_false_iff]
      exact List.append_ne_nil_of_right_ne_nil _ (wholePart_digitChars h).ne_nil
    simp only [if_neg hpos, hplaces, Bool.false_eq_true, if_false, hpoint, if_true]
    exact readsAs_fraction negative h (by omega)

/-- The form with an exponent. -/
theorem readsAs_scientific (negative : Bool) {n : Numeral} (h : n.digits ≠ 0) :
    ReadsAs negative n
      (scientific (digitChars n.digits) ((digitChars n.digits).length + n.exponent)) := by
  have hlength := digitCount_pos h
  rw [← length_digitChars] at hlength
  have hdigits : ∀ c ∈ (digitChars n.digits).drop 1, isAsciiDigit c = true :=
    fun c hc => digitChars_all n.digits c (List.mem_of_mem_drop hc)
  have hvalue : SameValue
      (digitsValue 10 ((digitChars n.digits).take 1 ++ (digitChars n.digits).drop 1))
      ((digitChars n.digits).length + n.exponent - 1 - ((digitChars n.digits).drop 1).length)
      n.digits n.exponent := by
    rw [List.take_append_drop, digitsValue_digitChars, List.length_drop,
      show ((digitChars n.digits).length : Int) + n.exponent - 1 -
        (((digitChars n.digits).length - 1 : Nat) : Int) = n.exponent by omega]
    exact rfl
  refine ⟨_, _, hvalue, fun rest hrest => ?_⟩
  rw [← readNumber?_exponent negative (wholePart_take h Nat.one_pos) hdigits
    ((digitChars n.digits).length + n.exponent - 1) hrest]
  unfold scientific
  simp only [List.drop_eq_nil_iff]

/-- **A written numeral is read with its value.** -/
theorem readsAs_text (negative : Bool) (n : Numeral) (h : n.negative = false) :
    ReadsAs negative n n.text := by
  unfold Numeral.text
  rw [h]
  split
  next hzero =>
    have hdigits : ∀ c ∈ ['0'], isAsciiDigit c = true := by simp [isAsciiDigit]
    refine readsAs_places negative wholePart_zero hdigits (by simp) ?_
    unfold SameValue scaledNum
    rw [hzero, show digitsValue 10 (['0'] ++ ['0']) = 0 from rfl]
    simp
  next hne =>
    dsimp only
    split
    · exact readsAs_positional negative hne
    · exact readsAs_scientific negative hne

/-! ## Plain values -/

theorem wholePart?_head {cs : List Char} {found : List Char × List Char}
    (h : wholePart? cs = some found) : ∃ c rest, cs = c :: rest ∧ isAsciiDigit c = true := by
  unfold wholePart? at h
  split at h
  next rest => exact ⟨'0', rest, rfl, rfl⟩
  next =>
    cases cs with
    | nil => exact absurd h (by simp [digitsOf])
    | cons c rest =>
      refine ⟨c, rest, rfl, ?_⟩
      by_contra hc
      exact absurd h (by simp [digitsOf, hc])

theorem readNumber?_head {negative : Bool} {cs : List Char} {found : Json × List Char}
    (h : readNumber? negative cs = some found) :
    ∃ c rest, cs = c :: rest ∧ isAsciiDigit c = true := by
  unfold readNumber? at h
  cases hwhole : wholePart? cs with
  | none => rw [hwhole] at h; exact absurd h (by simp)
  | some => exact wholePart?_head hwhole

/-- After a minus sign stands infinity or a number. -/
theorem readPlain?_minus (cs : List Char) :
    readPlain? ('-' :: cs) =
      ((afterLead? "-Infinity".toList ('-' :: cs)).map fun rest =>
        (float (nearest true (2 ^ 1025) 1), rest)).or (readNumber? true cs) :=
  rfl

/-- A number is read as a plain value, after its sign. -/
theorem readPlain?_of_readNumber? {negative : Bool} {cs : List Char} {found : Json × List Char}
    (h : readNumber? negative cs = some found) :
    readPlain? (signText negative ++ cs) = some found := by
  obtain ⟨c, rest, rfl, hc⟩ := readNumber?_head h
  cases negative with
  | false =>
    -- A digit starts none of the words that are tried before a number.
    have hother : ∀ {d : Char} {tail : List Char}, isAsciiDigit d = false →
        c :: rest ≠ d :: tail := by
      intro d tail hd heq
      rw [(List.cons.inj heq).1, hd] at hc
      exact Bool.false_ne_true hc
    show readPlain? (c :: rest) = _
    unfold readPlain?
    dsimp only
    split
    next heq => exact absurd heq (hother rfl)
    next heq => exact absurd heq (hother rfl)
    next heq => exact absurd heq (hother rfl)
    next heq => exact absurd heq (hother rfl)
    next heq => exact absurd heq (hother rfl)
    next heq => exact absurd heq (hother rfl)
    next => exact h
  | true =>
    -- Behind a minus sign the word for infinity is tried first.
    have hword : afterLead? "-Infinity".toList ('-' :: c :: rest) = none := by
      have hne : ('I' == c) = false := by
        rw [beq_eq_false_iff_ne]
        rintro rfl
        exact absurd hc (by decide)
      rw [show "-Infinity".toList = ['-', 'I', 'n', 'f', 'i', 'n', 'i', 't', 'y'] from rfl]
      simp only [afterLead?, beq_self_eq_true, hne, if_true, Bool.false_eq_true, if_false]
    show readPlain? ('-' :: c :: rest) = _
    rw [readPlain?_minus, hword, h]
    rfl

/-- **A whole number is read back.** -/
theorem readPlain?_intText (n : Int) (hrest : EndsNumber rest) :
    readPlain? (intText n ++ rest) = some (int n, rest) := by
  have htext : intText n = signText (decide (n < 0)) ++ natText n.natAbs := by
    unfold intText signText
    by_cases h : n < 0 <;> simp [h]
  rw [htext, List.append_assoc,
    readPlain?_of_readNumber? (readNumber?_natText (decide (n < 0)) n.natAbs hrest)]
  by_cases h : n < 0
  · rw [if_pos (decide_eq_true h), show -(n.natAbs : Int) = n by omega]
  · rw [if_neg (by simpa using h), show (n.natAbs : Int) = n by omega]

theorem text_eq_signText (n : Numeral) :
    n.text = signText n.negative ++ Numeral.text { n with negative := false } := by
  unfold Numeral.text
  dsimp only
  split <;> rfl

/-- **A double is read back.** -/
theorem readPlain?_writeFloat (x : Float) (hrest : EndsNumber rest) :
    readPlain? (writeFloat x ++ rest) = some (float x, rest) := by
  unfold writeFloat
  split
  next hparts =>
    show (afterLead? "NaN".toList ("NaN".toList ++ rest)).map _ = _
    rw [afterLead?_append, parts_nan hparts]
    rfl
  next hparts =>
    show (afterLead? "Infinity".toList ("Infinity".toList ++ rest)).map _ = _
    rw [afterLead?_append, nearest_infinite hparts]
    rfl
  next hparts =>
    show readPlain? ('-' :: ("Infinity".toList ++ rest)) = _
    rw [readPlain?_minus,
      show '-' :: ("Infinity".toList ++ rest) = "-Infinity".toList ++ rest from rfl,
      afterLead?_append, nearest_infinite hparts]
    rfl
  next negative num den hparts =>
    obtain ⟨n, hshortest, hsign, hback⟩ := shortest?_toFloat hparts
    obtain ⟨digits, exponent, hvalue, hread⟩ :=
      readsAs_text negative { n with negative := false } rfl
    have htext : floatText x = n.text := by
      unfold floatText
      rw [hparts, hshortest]
      rfl
    rw [htext, text_eq_signText, hsign, List.append_assoc,
      readPlain?_of_readNumber? (hread rest hrest), ← hback]
    exact congrArg (fun y => some (float y, rest))
      (Numeral.toFloat_congr hsign.symm hvalue)

end Mooring.Json
