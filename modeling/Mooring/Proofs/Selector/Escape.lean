import Mathlib.Data.List.Basic
import Mathlib.Data.List.Induction
import Mooring.Proofs.Text.Finding
import Mooring.Selector.Generate

/-!
# Escaped texts

Inside a quoted value each quote and each backslash has a backslash in front of it.  A text is
determined by its escaped form (`escaped_inj`), and it is its own escaped form just if it has neither
quotes nor backslashes (`escaped_eq_iff`).

A text that is shifted is not its own escaped form either: put something in front of it, and
something behind its escaped form, and they differ if only escaped characters were put behind and
the last character that was put in front is none (`append_ne_escaped`).  And a text in which nothing
is escaped occurs in the escaped form just where it occurs in the text (`infix_escaped_iff`).
-/

namespace Mooring.Selector

open Mooring.Text

/-- The character gets a backslash. -/
def isEscaped (c : Char) : Bool :=
  c == '\\' || c == '"'

theorem escapeChar_of_escaped {c : Char} (h : isEscaped c = true) : escapeChar c = ['\\', c] :=
  if_pos h

theorem escapeChar_of_plain {c : Char} (h : isEscaped c = false) : escapeChar c = [c] :=
  if_neg (by rw [← isEscaped, h]; exact Bool.false_ne_true)

theorem escapeChar_append_inj {c d : Char} {cs ds : List Char}
    (h : escapeChar c ++ cs = escapeChar d ++ ds) : c = d ∧ cs = ds := by
  have hback (c : Char) (hplain : ¬(c == '\\' || c == '"') = true) : '\\' ≠ c := by
    rintro rfl
    exact hplain rfl
  unfold escapeChar at h
  split at h <;> split at h
  · exact ⟨(List.cons.inj (List.cons.inj h).2).1, (List.cons.inj (List.cons.inj h).2).2⟩
  next _ hplain => exact absurd (List.cons.inj h).1 (hback d hplain)
  next hplain _ => exact absurd (List.cons.inj h).1.symm (hback c hplain)
  · exact List.cons.inj h

/-- A text in its escaped form. -/
def escaped (cs : List Char) : List Char :=
  cs.flatMap escapeChar

theorem toList_escape (value : String) : (escape value).toList = escaped value.toList :=
  String.toList_ofList

theorem escaped_cons (c : Char) (cs : List Char) : escaped (c :: cs) = escapeChar c ++ escaped cs :=
  List.flatMap_cons

theorem escaped_append (cs ds : List Char) : escaped (cs ++ ds) = escaped cs ++ escaped ds :=
  List.flatMap_append

/-- **A text is determined by its escaped form.** -/
theorem escaped_inj : ∀ {cs ds : List Char}, escaped cs = escaped ds → cs = ds := by
  have hfilled (c : Char) (rest : List Char) : escapeChar c ++ rest ≠ [] := by
    unfold escapeChar
    split <;> simp
  intro cs
  induction cs with
  | nil =>
    intro ds h
    cases ds with
    | nil => rfl
    | cons d ds => exact absurd h.symm (hfilled d _)
  | cons c cs ih =>
    intro ds h
    cases ds with
    | nil => exact absurd h (hfilled c _)
    | cons d ds =>
      obtain ⟨rfl, hrest⟩ := escapeChar_append_inj h
      rw [ih hrest]

theorem length_le_escaped (cs : List Char) : cs.length ≤ (escaped cs).length := by
  induction cs with
  | nil => exact Nat.le_refl _
  | cons c rest ih =>
    have hone : 1 ≤ (escapeChar c).length := by
      unfold escapeChar
      split <;> simp
    rw [escaped_cons, List.length_append, List.length_cons]
    omega

/-- **A text is its own escaped form** just if nothing in it is escaped. -/
theorem escaped_eq_iff {cs : List Char} :
    escaped cs = cs ↔ ∀ c ∈ cs, isEscaped c = false := by
  induction cs with
  | nil => exact iff_of_true rfl (by simp)
  | cons c rest ih =>
    rw [escaped_cons, List.forall_mem_cons]
    cases hc : isEscaped c with
    | true =>
      rw [escapeChar_of_escaped hc]
      refine iff_of_false (fun h => ?_) (by simp)
      have hlength := congrArg List.length h
      have hle := length_le_escaped rest
      simp only [List.length_append, List.length_cons, List.length_nil] at hlength
      omega
    | false =>
      rw [escapeChar_of_plain hc, List.singleton_append, List.cons_inj_right, ih]
      exact ⟨fun h => ⟨rfl, h⟩, fun h => h.2⟩

theorem mem_escaped {c : Char} {cs : List Char} (h : c ∈ escaped cs) : c ∈ cs ∨ c = '\\' := by
  obtain ⟨d, hd, hc⟩ := List.mem_flatMap.mp h
  cases hescaped : isEscaped d with
  | true =>
    rw [escapeChar_of_escaped hescaped, List.mem_cons, List.mem_singleton] at hc
    rcases hc with rfl | rfl
    · exact Or.inr rfl
    · exact Or.inl hd
  | false =>
    rw [escapeChar_of_plain hescaped, List.mem_singleton] at hc
    exact Or.inl (hc ▸ hd)

/-- Escaping adds no quotes. -/
theorem count_escaped (cs : List Char) : (escaped cs).count '"' = cs.count '"' := by
  induction cs with
  | nil => rfl
  | cons c rest ih =>
    rw [escaped_cons, List.count_append, ih, List.count_cons, Nat.add_comm]
    congr 1
    cases hescaped : isEscaped c with
    | true => rw [escapeChar_of_escaped hescaped, List.count_cons, List.count_singleton]; simp
    | false => rw [escapeChar_of_plain hescaped, List.count_singleton]

theorem not_mem_escaped {cs : List Char} (h : '"' ∉ cs) : '"' ∉ escaped cs := by
  rw [← List.count_eq_zero, count_escaped]
  exact List.count_eq_zero.mpr h

/-- Escaping neither makes nor breaks what holds no escaped character. -/
theorem prefix_escaped_iff : ∀ {needle cs : List Char}, (∀ c ∈ needle, isEscaped c = false) →
    (needle <+: escaped cs ↔ needle <+: cs)
  | [], _, _ => iff_of_true List.nil_prefix List.nil_prefix
  | _ :: _, [], _ => Iff.rfl
  | d :: needle, c :: cs, h => by
    obtain ⟨hd, hneedle⟩ := List.forall_mem_cons.mp h
    rw [escaped_cons]
    cases hc : isEscaped c with
    | false =>
      rw [escapeChar_of_plain hc, List.singleton_append, List.cons_prefix_cons,
        List.cons_prefix_cons, prefix_escaped_iff hneedle]
    | true =>
      have hback : d ≠ '\\' := fun heq => by rw [heq] at hd; exact absurd hd (by decide)
      have hsame : d ≠ c := fun heq => by rw [heq, hc] at hd; exact absurd hd (by decide)
      rw [escapeChar_of_escaped hc, List.cons_append, List.cons_prefix_cons,
        List.cons_prefix_cons]
      exact iff_of_false (fun h => hback h.1) (fun h => hsame h.1)

theorem infix_escaped_iff {needle cs : List Char} (hne : needle ≠ [])
    (h : ∀ c ∈ needle, isEscaped c = false) : needle <:+: escaped cs ↔ needle <:+: cs := by
  induction cs with
  | nil => exact Iff.rfl
  | cons c cs ih =>
    have hlead : needle <+: escaped (c :: cs) ↔ needle <+: c :: cs := prefix_escaped_iff h
    rw [List.infix_cons_iff, ← hlead, escaped_cons]
    cases hc : isEscaped c with
    | false => rw [escapeChar_of_plain hc, List.singleton_append, List.infix_cons_iff, ih]
    | true =>
      have hfree {d : Char} (hd : isEscaped d = true) : d ∉ needle := fun hmem => by
        rw [h d hmem] at hd
        exact absurd hd Bool.false_ne_true
      -- Neither the backslash nor the character behind it can be part of an occurrence.
      have hbackslash : ¬needle <+: '\\' :: c :: escaped cs := by
        rw [← List.nil_append ('\\' :: c :: escaped cs), prefix_append_cons_iff (hfree (by decide)),
          List.prefix_nil]
        exact hne
      have hsecond : needle <:+: c :: escaped cs ↔ needle <:+: escaped cs := by
        rw [← List.nil_append (c :: escaped cs), infix_append_cons_iff (hfree hc), List.infix_nil]
        exact or_iff_right hne
      rw [escapeChar_of_escaped hc, List.cons_append, List.singleton_append, List.infix_cons_iff,
        or_iff_right hbackslash, or_iff_right hbackslash, hsecond, ih]

/-- **A shifted text is not its own escaped form.** -/
theorem append_ne_escaped {front back : List Char}
    (hfront : ∀ c, front.getLast? = some c → isEscaped c = false) (hne : back ≠ [])
    (hback : ∀ c ∈ back, isEscaped c = true) (cs : List Char) :
    front ++ cs ≠ escaped cs ++ back := by
  induction cs using List.reverseRecOn generalizing back with
  | nil =>
    intro h
    rw [List.append_nil] at h
    -- What was put behind is what was put in front.
    have hlast := hfront (back.getLast hne) (by rw [h]; exact List.getLast?_eq_some_getLast hne)
    rw [hback _ (List.getLast_mem hne)] at hlast
    exact absurd hlast (by decide)
  | append_singleton cs c ih =>
    intro h
    have hends : (front ++ cs) ++ [c] =
        (escaped cs ++ (escapeChar c ++ back.dropLast)) ++ [back.getLast hne] := by
      rw [List.append_assoc, h, escaped_append, List.append_assoc, List.append_assoc,
        List.append_assoc, List.dropLast_concat_getLast hne]
      simp [escaped]
    obtain ⟨hshift, hlast⟩ := List.append_inj' hends rfl
    have hescaped : isEscaped c = true := by
      rw [List.singleton_inj.mp hlast]
      exact hback _ (List.getLast_mem hne)
    -- The last character has a backslash, so there is one more of them behind what is left.
    rw [escapeChar_of_escaped hescaped] at hshift
    refine ih (by simp) (fun d hd => ?_) hshift
    rcases List.mem_append.mp hd with hd | hd
    · rcases List.mem_pair.mp hd with rfl | rfl
      · rfl
      · exact hescaped
    · exact hback d (List.dropLast_subset back hd)

/-- An escaped text is cut where the text itself is, behind a character that is not escaped. -/
theorem exists_split_escaped : ∀ {cs front back : List Char} {c : Char},
    escaped cs = front ++ back → front.getLast? = some c → isEscaped c = false →
    ∃ first rest, cs = first ++ rest ∧ first.getLast? = some c ∧ escaped rest = back := by
  intro cs
  induction cs with
  | nil =>
    intro front back c h hlast _
    rw [(List.append_eq_nil_iff.mp h.symm).1] at hlast
    exact absurd hlast (by simp)
  | cons d cs ih =>
    intro front back c h hlast hplain
    rw [escaped_cons] at h
    have hlonger : ∀ {later : List Char}, escaped cs = later ++ back → later.getLast? = some c →
        ∃ first rest, d :: cs = first ++ rest ∧ first.getLast? = some c ∧ escaped rest = back := by
      intro later hlater hlast
      obtain ⟨first, rest, hsplit, hfirst, hrest⟩ := ih hlater hlast hplain
      refine ⟨d :: first, rest, congrArg (List.cons d) hsplit, ?_, hrest⟩
      rw [List.getLast?_cons, hfirst]
      rfl
    cases hd : isEscaped d with
    | true =>
      -- The cut is not behind either of the first two characters.
      rw [escapeChar_of_escaped hd] at h
      have hcut : c ∉ ['\\', d] := by
        intro hmem
        rcases List.mem_pair.mp hmem with rfl | rfl
        · exact absurd hplain (by decide)
        · exact absurd hplain (by rw [hd]; decide)
      rcases List.append_eq_append_iff.mp h with ⟨later, rfl, hlater⟩ | ⟨extra, hextra, -⟩
      · refine hlonger hlater ?_
        rw [List.getLast?_append] at hlast
        rcases Option.or_eq_some_iff.mp hlast with hlast | ⟨-, hlast⟩
        · exact hlast
        · exact absurd (List.mem_of_getLast? hlast) hcut
      · refine absurd ?_ hcut
        rw [hextra]
        exact List.mem_append_left _ (List.mem_of_getLast? hlast)
    | false =>
      rw [escapeChar_of_plain hd, List.singleton_append] at h
      cases front with
      | nil => exact absurd hlast (by simp)
      | cons f later =>
        obtain ⟨rfl, hlater⟩ := List.cons.inj h
        rw [List.getLast?_cons] at hlast
        cases hlast' : later.getLast? with
        | none =>
          rw [hlast'] at hlast
          rw [List.getLast?_eq_none_iff.mp hlast'] at hlater
          exact ⟨[d], cs, rfl, hlast, hlater⟩
        | some c' =>
          rw [hlast'] at hlast
          exact hlonger hlater (hlast'.trans hlast)

end Mooring.Selector
