import Mooring.Decimal.Reading
import Mooring.Proofs.Decimal.Numerals

/-!
# What a typed number spells

The grammar of typed numbers is written down here apart from the reader (`Spells`): an optional
sign, then digits of any script with single underscores between them, a point, an exponent, or one
of the words for infinity and for what is no number.  A spelled number is the double nearest to what
its digits and its exponent say, in exact arithmetic.

The reader writes the digits of all scripts in ASCII first, which the grammar does not; no such
digit becomes or hides a sign, a point or a letter (`plain_eq_iff`).  A run of digits then is found
whole (`DigitPart.digitRun_append`), and what is found is a run of digits (`exists_run`).
-/

namespace Mooring.Decimal

open Mooring.Text

variable {c mark : Char} {d : Nat} {cs text : List Char} {ds : List Nat}

/-! ## The grammar -/

/-- Digits of any script with single underscores between them, and the values of the digits. -/
inductive DigitPart : List Char → List Nat → Prop
  | last {c : Char} {d : Nat} (hc : decimalValue? c = some d) : DigitPart [c] [d]
  | next {c : Char} {d : Nat} {cs : List Char} {ds : List Nat} (hc : decimalValue? c = some d)
      (hrest : DigitPart cs ds) : DigitPart (c :: cs) (d :: ds)
  | underscore {c : Char} {d : Nat} {cs : List Char} {ds : List Nat}
      (hc : decimalValue? c = some d) (hrest : DigitPart cs ds) :
      DigitPart (c :: '_' :: cs) (d :: ds)

/-- A sign or none; whether it is a minus. -/
inductive Sign : List Char → Bool → Prop
  | absent : Sign [] false
  | plus : Sign ['+'] false
  | minus : Sign ['-'] true

/-- Digits before and after a point; the point may be left out with what follows it. -/
inductive Mantissa : List Char → List Nat → List Nat → Prop
  | whole {cs : List Char} {ds : List Nat} (h : DigitPart cs ds) : Mantissa cs ds []
  | point {cs : List Char} {ds : List Nat} (h : DigitPart cs ds) : Mantissa (cs ++ ['.']) ds []
  | places {cs : List Char} {ds : List Nat} (h : DigitPart cs ds) : Mantissa ('.' :: cs) [] ds
  | both {cs cs' : List Char} {ds ds' : List Nat} (h : DigitPart cs ds) (h' : DigitPart cs' ds') :
      Mantissa (cs ++ '.' :: cs') ds ds'

/-- The number that some digits stand for, most significant first. -/
def wholeValue (ds : List Nat) : Nat :=
  Nat.ofDigits 10 ds.reverse

/-- An exponent, or none. -/
inductive Exponent : List Char → Int → Prop
  | absent : Exponent [] 0
  | present {mark : Char} {sign cs : List Char} {negative : Bool} {ds : List Nat}
      (hmark : mark = 'e' ∨ mark = 'E') (hsign : Sign sign negative) (hdigits : DigitPart cs ds) :
      Exponent (mark :: (sign ++ cs)) (if negative then -(wholeValue ds : Int) else wholeValue ds)

/-- The text is a word in small letters, apart from the case of its letters. -/
def IsWord (text word : List Char) : Prop :=
  List.Forall₂ (fun c letter => c = letter ∨ c.toNat + 32 = letter.toNat) text word

/-- The text spells the number. -/
inductive Spells : List Char → Float → Prop
  | numeral {sign cs es : List Char} {negative : Bool} {whole places : List Nat} {e : Int}
      (hsign : Sign sign negative) (hmantissa : Mantissa cs whole places)
      (hexponent : Exponent es e) :
      Spells (sign ++ (cs ++ es)) (nearest negative
        (scaledNum (wholeValue (whole ++ places)) (e - places.length))
        (scaledDen (e - places.length)))
  | infinity {sign name : List Char} {negative : Bool} (hsign : Sign sign negative)
      (hname : IsWord name "inf".toList ∨ IsWord name "infinity".toList) :
      Spells (sign ++ name) (infinity negative)
  | notANumber {sign name : List Char} {negative : Bool} (hsign : Sign sign negative)
      (hname : IsWord name "nan".toList) : Spells (sign ++ name) notANumber

/-! ## Digits written in ASCII -/

/-- A digit of any script written in ASCII; any other character as it is. -/
def plain (c : Char) : Char :=
  match decimalValue? c with
  | some d => digitChar d
  | none => c

/-- A typed number without the blanks around it. -/
def bareNumber (cs : List Char) : List Char :=
  dropTrailing isNumberBlank (cs.dropWhile isNumberBlank)

theorem plainNumber_eq (cs : List Char) : plainNumber cs = (bareNumber cs).map plain := rfl

theorem decimalValue?_lt (h : decimalValue? c = some d) : d < 10 := by
  unfold decimalValue? at h
  split at h
  · split at h
    next hdigit =>
      have hrange := isAsciiDigit_iff.mp hdigit
      have hzero : ('0' : Char).toNat = 48 := rfl
      have := Option.some.inj h
      omega
    next => exact absurd h (by simp)
  · obtain ⟨first, hfind, rfl⟩ := Option.map_eq_some_iff.mp h
    rw [← Array.find?_toList] at hfind
    have hrange := List.find?_some hfind
    rw [Bool.and_eq_true, decide_eq_true_iff, decide_eq_true_iff] at hrange
    omega

theorem decimalValue?_of_ascii (hc : c.toNat < 128) (hdigit : isAsciiDigit c = false) :
    decimalValue? c = none := by
  rw [decimalValue?, if_pos hc, hdigit]
  rfl

theorem plain_of_digit (h : decimalValue? c = some d) : plain c = digitChar d := by
  rw [plain, h]

theorem plain_of_none (h : decimalValue? c = none) : plain c = c := by
  rw [plain, h]

theorem isAsciiDigit_plain (c : Char) : isAsciiDigit (plain c) = (decimalValue? c).isSome := by
  cases hc : decimalValue? c with
  | some d => rw [plain_of_digit hc, isAsciiDigit_digitChar (decimalValue?_lt hc), Option.isSome]
  | none =>
    rw [plain_of_none hc, Option.isSome]
    by_contra hdigit
    have hdigit : isAsciiDigit c = true := Bool.eq_true_of_not_eq_false hdigit
    have hrange := isAsciiDigit_iff.mp hdigit
    rw [decimalValue?, if_pos (by omega), if_pos hdigit] at hc
    exact absurd hc (by simp)

/-- **Written in ASCII, a digit does not become another kind of character.** -/
theorem plain_eq_iff (hmark : decimalValue? mark = none) : plain c = mark ↔ c = mark := by
  constructor
  · intro h
    cases hc : decimalValue? c with
    | none => rwa [plain_of_none hc] at h
    | some d =>
      have hdigit := isAsciiDigit_plain c
      rw [h, ← plain_of_none hmark, isAsciiDigit_plain, hmark, hc] at hdigit
      exact absurd hdigit (by simp)
  · rintro rfl
    exact plain_of_none hmark

/-! ## Runs of digits -/

/-- The text does not start with a digit. -/
def NoDigit (cs : List Char) : Prop :=
  ∀ c rest, cs = c :: rest → decimalValue? c = none

/-- A run of digits ends before the text. -/
def Stops (cs : List Char) : Prop :=
  ∀ c rest, cs = c :: rest → decimalValue? c = none ∧ c ≠ '_'

theorem decimalValue?_underscore : decimalValue? '_' = none := by
  decide

/-- What starts with a digit does not start with an underscore. -/
theorem ne_underscore (hc : decimalValue? c = some d) (rest more : List Char) :
    c :: rest ≠ '_' :: more := by
  intro hsplit
  obtain ⟨rfl, -⟩ := List.cons.inj hsplit
  rw [decimalValue?_underscore] at hc
  exact absurd hc (by simp)

theorem noDigit_of_not (h : ¬∃ c d rest, cs = c :: rest ∧ decimalValue? c = some d) :
    NoDigit cs := by
  intro c rest hcs
  refine Option.eq_none_iff_forall_ne_some.mpr fun d hc => ?_
  exact h ⟨c, d, rest, hcs, hc⟩

theorem digitRun_noDigit (h : NoDigit cs) : digitRun (cs.map plain) = ([], cs.map plain) := by
  cases cs with
  | nil => rfl
  | cons c rest =>
    have hc : ¬isAsciiDigit (plain c) = true := by
      rw [isAsciiDigit_plain, h c rest rfl]
      exact Bool.false_ne_true
    rw [List.map_cons]
    unfold digitRun
    split
    next heq =>
      obtain ⟨rfl, hrest⟩ := List.cons.inj heq
      rw [if_neg (by simp [hc]), if_neg hc, hrest]
    next heq =>
      obtain ⟨rfl, rfl⟩ := List.cons.inj heq
      rw [if_neg hc]
    next heq => exact absurd heq (by simp)

/-- A digit before another one, or before what ends the run. -/
theorem digitRun_digit (hc : decimalValue? c = some d)
    (hnext : ∀ more, cs = '_' :: more → NoDigit more) :
    digitRun ((c :: cs).map plain) =
      (digitChar d :: (digitRun (cs.map plain)).1, (digitRun (cs.map plain)).2) := by
  have hdigit := isAsciiDigit_plain c
  rw [hc, Option.isSome] at hdigit
  rw [← plain_of_digit hc, List.map_cons]
  conv_lhs => unfold digitRun
  split
  next heq =>
    -- An underscore follows, and then no digit: the run ends before it.
    obtain ⟨rfl, hrest⟩ := List.cons.inj heq
    obtain ⟨mark, more, rfl, hmark, hmore⟩ := List.map_eq_cons_iff.mp hrest
    obtain rfl := (plain_eq_iff decimalValue?_underscore).mp hmark
    obtain ⟨c', more, rfl, rfl, rfl⟩ := List.map_eq_cons_iff.mp hmore
    have hc' : isAsciiDigit (plain c') = false := by
      rw [isAsciiDigit_plain, hnext _ rfl c' more rfl]
      rfl
    have hstop : NoDigit ('_' :: c' :: more) := by
      intro mark rest hsplit
      obtain ⟨rfl, -⟩ := List.cons.inj hsplit
      exact decimalValue?_underscore
    rw [hdigit, hc', digitRun_noDigit hstop, hrest]
    rfl
  next heq =>
    obtain ⟨rfl, rfl⟩ := List.cons.inj heq
    rw [if_pos hdigit]
  next heq => exact absurd heq (by simp)

theorem digitRun_underscore (hc : decimalValue? c = some d) {c' : Char} {d' : Nat}
    (hc' : decimalValue? c' = some d') :
    digitRun ((c :: '_' :: c' :: cs).map plain) =
      (digitChar d :: (digitRun ((c' :: cs).map plain)).1,
        (digitRun ((c' :: cs).map plain)).2) := by
  have hdigit : isAsciiDigit (plain c) = true := by rw [isAsciiDigit_plain, hc]; rfl
  have hdigit' : isAsciiDigit (plain c') = true := by rw [isAsciiDigit_plain, hc']; rfl
  rw [List.map_cons, List.map_cons, plain_of_none decimalValue?_underscore, List.map_cons, digitRun]
  rw [hdigit, hdigit', Bool.and_true, if_pos rfl, plain_of_digit hc]

/-- **Every text starts with a run of digits**, or with none, and the reader finds it. -/
theorem exists_digitPart : ∀ {c : Char} {d : Nat} {cs : List Char}, decimalValue? c = some d →
    ∃ front back ds, c :: cs = front ++ back ∧ DigitPart front ds ∧
      digitRun ((c :: cs).map plain) = (ds.map digitChar, back.map plain) := by
  intro c d cs hc
  induction hlength : cs.length using Nat.strong_induction_on generalizing c d cs with
  | _ length ih =>
  subst hlength
  by_cases hmore : ∃ c' d' more, cs = c' :: more ∧ decimalValue? c' = some d'
  · obtain ⟨c', d', more, rfl, hc'⟩ := hmore
    obtain ⟨front, back, ds, hsplit, hfront, hrun⟩ := ih _ (Nat.lt_succ_self _) hc' rfl
    refine ⟨c :: front, back, d :: ds, by rw [hsplit, List.cons_append], .next hc hfront, ?_⟩
    rw [digitRun_digit hc fun more' hmore' => absurd hmore' (ne_underscore hc' more more'), hrun]
    rfl
  · by_cases hunder : ∃ c' d' more, cs = '_' :: c' :: more ∧ decimalValue? c' = some d'
    · obtain ⟨c', d', more, rfl, hc'⟩ := hunder
      obtain ⟨front, back, ds, hsplit, hfront, hrun⟩ := ih more.length (by simp) hc' rfl
      refine ⟨c :: '_' :: front, back, d :: ds, by rw [hsplit]; rfl, .underscore hc hfront, ?_⟩
      rw [digitRun_underscore hc hc', hrun]
      rfl
    · have hnext (more : List Char) (hcs : cs = '_' :: more) : NoDigit more :=
        noDigit_of_not fun ⟨c', d', more', hmore', hc'⟩ =>
          hunder ⟨c', d', more', by rw [hcs, hmore'], hc'⟩
      refine ⟨[c], cs, [d], rfl, .last hc, ?_⟩
      rw [digitRun_digit hc hnext, digitRun_noDigit (noDigit_of_not hmore)]
      rfl

theorem DigitPart.exists_digit (h : DigitPart cs ds) :
    ∃ c d rest, cs = c :: rest ∧ decimalValue? c = some d := by
  cases h with
  | last hc => exact ⟨_, _, _, rfl, hc⟩
  | next hc _ => exact ⟨_, _, _, rfl, hc⟩
  | underscore hc _ => exact ⟨_, _, _, rfl, hc⟩

/-- **The reader takes all digits of a run.** -/
theorem DigitPart.digitRun_append (h : DigitPart cs ds) (hstop : Stops text) :
    digitRun ((cs ++ text).map plain) = (ds.map digitChar, text.map plain) := by
  induction h with
  | last hc =>
    have hnext (more : List Char) (hmore : text = '_' :: more) : NoDigit more :=
      absurd rfl (hstop _ _ hmore).2
    rw [List.singleton_append, digitRun_digit hc hnext,
      digitRun_noDigit fun c rest hsplit => (hstop c rest hsplit).1]
    rfl
  | next hc hrest ih =>
    obtain ⟨c', d', rest, rfl, hc'⟩ := hrest.exists_digit
    have hnext (more : List Char) (hmore : c' :: rest ++ text = '_' :: more) : NoDigit more :=
      absurd hmore (ne_underscore hc' (rest ++ text) more)
    rw [List.cons_append, digitRun_digit hc hnext, ih]
    rfl
  | underscore hc hrest ih =>
    obtain ⟨c', d', rest, rfl, hc'⟩ := hrest.exists_digit
    rw [List.cons_append, List.cons_append, List.cons_append, digitRun_underscore hc hc',
      ← List.cons_append, ih]
    rfl

theorem digitsValue_digits (hds : ∀ d ∈ ds, d < 10) :
    digitsValue 10 (ds.map digitChar) = wholeValue ds := by
  have hvalue := digitsValue_map_digitChar ds.reverse fun d hd => hds d (List.mem_reverse.mp hd)
  rwa [List.reverse_reverse] at hvalue

theorem DigitPart.lt (h : DigitPart cs ds) : ∀ d ∈ ds, d < 10 := by
  induction h with
  | last hc => exact List.forall_mem_singleton.mpr (decimalValue?_lt hc)
  | next hc _ ih => exact List.forall_mem_cons.mpr ⟨decimalValue?_lt hc, ih⟩
  | underscore hc _ ih => exact List.forall_mem_cons.mpr ⟨decimalValue?_lt hc, ih⟩

theorem DigitPart.ne_nil (h : DigitPart cs ds) : ds ≠ [] := by
  cases h <;> exact List.cons_ne_nil _ _

/-- A run of digits, or none, and what follows it. -/
def Run (cs front back : List Char) (ds : List Nat) : Prop :=
  cs = front ++ back ∧ (front = [] ∧ ds = [] ∧ NoDigit back ∨ DigitPart front ds) ∧
    digitRun (cs.map plain) = (ds.map digitChar, back.map plain)

theorem exists_run (cs : List Char) : ∃ front back ds, Run cs front back ds := by
  by_cases hdigit : ∃ c d rest, cs = c :: rest ∧ decimalValue? c = some d
  · obtain ⟨c, d, rest, rfl, hc⟩ := hdigit
    obtain ⟨front, back, ds, hsplit, hfront, hrun⟩ := exists_digitPart hc
    exact ⟨front, back, ds, hsplit, Or.inr hfront, hrun⟩
  · have hnone : NoDigit cs := noDigit_of_not hdigit
    exact ⟨[], cs, [], rfl, Or.inl ⟨rfl, rfl, hnone⟩, digitRun_noDigit hnone⟩

theorem Run.lt {front back : List Char} (h : Run cs front back ds) : ∀ d ∈ ds, d < 10 := by
  rcases h.2.1 with ⟨-, rfl, -⟩ | hdigits
  · exact fun d hd => absurd hd List.not_mem_nil
  · exact hdigits.lt

end Mooring.Decimal
