import Mathlib.Data.Bool.AllAny
import Mooring.Proofs.Json.RoundTrip
import Mooring.Text.Lines

/-!
# A written file has no carriage return

Reading a text file unifies its line ends.  That leaves a written value alone
(`unifyNewlines_render`): the only control in it is the line feed, which the writer puts between
items (`printed_write`).
-/

namespace Mooring.Json

open Mooring.Decimal Mooring.Text

/-- A line feed, or no control. -/
def Printed (c : Char) : Prop :=
  c = '\n' ∨ 32 ≤ c.toNat

instance : DecidablePred Printed :=
  fun c => inferInstanceAs (Decidable (c = '\n' ∨ 32 ≤ c.toNat))

theorem printed_of_isAsciiDigit {c : Char} (h : isAsciiDigit c = true) : Printed c := by
  rw [isAsciiDigit_iff] at h
  exact Or.inr (by omega)

/-! ## Numbers -/

theorem printed_zeros (n : Nat) : ∀ c ∈ zeros n, Printed c := by
  intro c hc
  rw [List.eq_of_mem_replicate hc]
  decide

theorem printed_natText (n : Nat) : ∀ c ∈ natText n, Printed c :=
  fun c hc => printed_of_isAsciiDigit (natText_all n c hc)

theorem printed_intText (n : Int) : ∀ c ∈ intText n, Printed c := by
  unfold intText
  split
  · exact List.forall_mem_cons.mpr ⟨by decide, printed_natText _⟩
  · exact printed_natText _

theorem printed_exponentText (e : Int) : ∀ c ∈ exponentText e, Printed c := by
  unfold exponentText
  refine List.forall_mem_cons.mpr ⟨by decide, List.forall_mem_cons.mpr ⟨?_, ?_⟩⟩
  · split <;> decide
  · exact List.forall_mem_append.mpr ⟨printed_zeros _, printed_natText _⟩

variable {digits : List Char}

theorem printed_positional (h : ∀ c ∈ digits, Printed c) (point : Int) :
    ∀ c ∈ positional digits point, Printed c := by
  have hwhole : ∀ c ∈ (if 0 < point then
      digits.take point.toNat ++ zeros (point.toNat - digits.length) else ['0']), Printed c := by
    split
    · exact List.forall_mem_append.mpr ⟨fun c hc => h c (List.mem_of_mem_take hc), printed_zeros _⟩
    · exact List.forall_mem_cons.mpr ⟨by decide, by simp⟩
  have hplaces : ∀ c ∈ (if 0 < point then digits.drop point.toNat
      else zeros (-point).toNat ++ digits), Printed c := by
    split
    · exact fun c hc => h c (List.mem_of_mem_drop hc)
    · exact List.forall_mem_append.mpr ⟨printed_zeros _, h⟩
  unfold positional
  dsimp only
  generalize (if 0 < point then digits.take point.toNat ++ zeros (point.toNat - digits.length)
    else ['0']) = whole at hwhole ⊢
  generalize (if 0 < point then digits.drop point.toNat else zeros (-point).toNat ++ digits) =
    places at hplaces ⊢
  split
  · exact hwhole
  · exact List.forall_mem_append.mpr ⟨hwhole, List.forall_mem_cons.mpr ⟨by decide, hplaces⟩⟩

theorem printed_scientific (h : ∀ c ∈ digits, Printed c) (point : Int) :
    ∀ c ∈ scientific digits point, Printed c := by
  unfold scientific
  refine List.forall_mem_append.mpr ⟨List.forall_mem_append.mpr ⟨?_, ?_⟩, printed_exponentText _⟩
  · exact fun c hc => h c (List.mem_of_mem_take hc)
  · split
    · simp
    · exact List.forall_mem_cons.mpr ⟨by decide, fun c hc => h c (List.mem_of_mem_drop hc)⟩

theorem printed_text (n : Numeral) : ∀ c ∈ n.text, Printed c := by
  have hdigits : ∀ c ∈ digitChars n.digits, Printed c :=
    fun c hc => printed_of_isAsciiDigit (digitChars_all _ c hc)
  have hsign : ∀ c ∈ signText n.negative, Printed c := by
    unfold signText
    split
    · exact List.forall_mem_cons.mpr ⟨by decide, by simp⟩
    · simp
  have hpositional := printed_positional hdigits ((digitChars n.digits).length + n.exponent)
  have hzero : ∀ c ∈ ['.', '0'], Printed c := List.all_iff_forall_prop.mp (by decide)
  unfold Numeral.text
  split
  · refine List.forall_mem_append.mpr ⟨hsign, List.forall_mem_cons.mpr ⟨by decide, hzero⟩⟩
  · refine List.forall_mem_append.mpr ⟨hsign, ?_⟩
    dsimp only
    split
    · split
      · exact hpositional
      · exact List.forall_mem_append.mpr ⟨hpositional, hzero⟩
    · exact printed_scientific hdigits _

theorem printed_writeFloat (x : Float) : ∀ c ∈ writeFloat x, Printed c := by
  unfold writeFloat
  split
  · exact List.all_iff_forall_prop.mp (by decide)
  · exact List.all_iff_forall_prop.mp (by decide)
  · exact List.all_iff_forall_prop.mp (by decide)
  next hparts =>
    obtain ⟨n, hshortest, -⟩ := shortest?_toFloat hparts
    unfold floatText
    rw [hparts, hshortest]
    exact printed_text n

/-! ## Values -/

theorem printed_lineStart (level : Nat) : ∀ c ∈ lineStart fileStyle level, Printed c := by
  refine List.forall_mem_cons.mpr ⟨Or.inl rfl, fun c hc => ?_⟩
  rw [List.eq_of_mem_replicate hc]
  decide

theorem printed_comma (level : Nat) : ∀ c ∈ comma fileStyle level, Printed c :=
  List.forall_mem_cons.mpr ⟨by decide, printed_lineStart level⟩

theorem printed_writeText (s : String) : ∀ c ∈ writeText fileStyle s, Printed c := by
  refine List.forall_mem_cons.mpr ⟨by decide, List.forall_mem_append.mpr ⟨?_, ?_⟩⟩
  · intro c hc
    obtain ⟨d, -, hd⟩ := List.mem_flatMap.mp hc
    exact Or.inr (writeChar_printable d c hd)
  · exact List.forall_mem_cons.mpr ⟨by decide, by simp⟩

mutual

/-- **Only line feeds and printed characters are written.** -/
theorem printed_write (level : Nat) : ∀ value : Json, ∀ c ∈ write fileStyle level value, Printed c
  | null => by simp [write, Printed]
  | bool true => by simp [write, Printed]
  | bool false => by simp [write, Printed]
  | int n => printed_intText n
  | float x => printed_writeFloat x
  | string s => printed_writeText s
  | array [] => by simp [write, Printed]
  | array (item :: rest) => by
    have hitem := printed_write (level + 1) item
    have hrest := printed_writeItems (level + 1) rest
    unfold write
    simp only [List.forall_mem_append, List.forall_mem_cons]
    exact ⟨⟨⟨⟨⟨by decide, printed_lineStart _⟩, hitem⟩, hrest⟩, printed_lineStart _⟩, by decide,
      by simp⟩
  | object [] => by simp [write, Printed]
  | object ((name, value) :: rest) => by
    have hvalue := printed_write (level + 1) value
    have hrest := printed_writeFields (level + 1) rest
    unfold write
    simp only [List.forall_mem_append, List.forall_mem_cons]
    exact ⟨⟨⟨⟨⟨⟨⟨by decide, printed_lineStart _⟩, printed_writeText _⟩, by decide, by decide,
      by simp⟩, hvalue⟩, hrest⟩, printed_lineStart _⟩, by decide, by simp⟩

theorem printed_writeItems (level : Nat) : ∀ items : List Json,
    ∀ c ∈ writeItems fileStyle level items, Printed c
  | [] => by simp [writeItems]
  | item :: rest => by
    have hitem := printed_write level item
    have hrest := printed_writeItems level rest
    unfold writeItems
    simp only [List.forall_mem_append]
    exact ⟨⟨printed_comma _, hitem⟩, hrest⟩

theorem printed_writeFields (level : Nat) : ∀ fields : List (String × Json),
    ∀ c ∈ writeFields fileStyle level fields, Printed c
  | [] => by simp [writeFields]
  | (name, value) :: rest => by
    have hvalue := printed_write level value
    have hrest := printed_writeFields level rest
    unfold writeFields
    simp only [List.forall_mem_append, List.forall_mem_cons]
    exact ⟨⟨⟨⟨printed_comma _, printed_writeText _⟩, by decide, by decide, by simp⟩, hvalue⟩, hrest⟩

end

/-- Unifying line ends leaves a text without carriage returns alone. -/
theorem unifyNewlines_of_printed : ∀ {cs : List Char}, (∀ c ∈ cs, Printed c) →
    unifyNewlines cs = cs := by
  intro cs
  induction cs with
  | nil => exact fun _ => rfl
  | cons c rest ih =>
    intro h
    obtain ⟨hc, hrest⟩ := List.forall_mem_cons.mp h
    have hne : c ≠ '\r' := by
      rintro rfl
      exact absurd hc (by decide)
    rw [unifyNewlines]
    · rw [if_neg (by simpa using hne), ih hrest]
    · exact fun _ heq _ => hne heq

/-- **A written value is not changed by reading it as a text file.** -/
theorem unifyNewlines_render (value : Json) :
    unifyNewlines (value.render fileStyle ++ "\n").toList =
      (value.render fileStyle ++ "\n").toList := by
  apply unifyNewlines_of_printed
  rw [String.toList_append, render, String.toList_ofList]
  exact List.forall_mem_append.mpr
    ⟨printed_write 0 value, List.forall_mem_singleton.mpr (Or.inl rfl)⟩

end Mooring.Json
