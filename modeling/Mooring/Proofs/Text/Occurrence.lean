import Mooring.Proofs.Text.Finding

/-!
# Where a text occurs

Squeezing blanks does not make or break an occurrence of a text without blanks
(`infix_squeeze_iff`): it lies within one word (`infix_iff_words`), and the words stay as they are.

An occurrence is pinned down by a character that the whole text has in one place only
(`append_cons_inj`), and by a first character that the front of the text does not have
(`infix_behind_iff`).
-/

namespace Mooring.Text

variable {c : Char} {cs lead rest front back tail needle : List Char}

/-! ## Pinning an occurrence down -/

/-- A character that a text has in one place splits it in one way. -/
theorem append_cons_inj (hlead : c ∉ lead) (htail : c ∉ tail)
    (h : front ++ c :: back = lead ++ c :: tail) : front = lead ∧ back = tail := by
  obtain ⟨more, rfl, hrest⟩ := exists_of_lead_append hlead h.symm
  cases more with
  | nil => exact ⟨List.append_nil lead, (List.cons.inj hrest).2.symm⟩
  | cons d more =>
    obtain ⟨-, hmore⟩ := List.cons.inj hrest
    exact absurd (hmore ▸ List.mem_append_right more List.mem_cons_self) htail

/-- What starts with a character that the front does not have occurs behind the front. -/
theorem infix_behind_iff (hc : c ∉ front) :
    (c :: needle) <:+: front ++ back ↔ (c :: needle) <:+: back := by
  induction front with
  | nil => exact Iff.rfl
  | cons d front ih =>
    obtain ⟨hne, hfront⟩ := not_or.mp (mt List.mem_cons.mpr hc)
    rw [List.cons_append, List.infix_cons_iff, ih hfront, List.cons_prefix_cons, or_iff_right]
    exact fun h => hne h.1

/-- What holds a character that a text does not hold does not occur in it. -/
theorem not_infix_of_mem (hneedle : c ∈ needle) (hc : c ∉ cs) : ¬needle <:+: cs :=
  fun h => hc (h.subset hneedle)

/-! ## Occurrences in words -/

section Words

variable {p : Char → Bool}

/-- A text without separators starts a text just if it starts the first run of it. -/
theorem prefix_firstRun_iff (hsolid : ∀ c ∈ needle, p c = false) :
    needle <+: (firstRun p cs).1 ↔ needle <+: cs := by
  induction cs generalizing needle with
  | nil => exact Iff.rfl
  | cons d rest ih =>
    rw [firstRun]
    dsimp only
    cases needle with
    | nil => exact iff_of_true List.nil_prefix List.nil_prefix
    | cons c needle =>
      obtain ⟨hc, hneedle⟩ := List.forall_mem_cons.mp hsolid
      split
      next hd =>
        refine iff_of_false (by simp) fun h => ?_
        rw [(List.cons_prefix_cons.mp h).1, hd] at hc
        exact absurd hc (by simp)
      next => rw [List.cons_prefix_cons, List.cons_prefix_cons, ih hneedle]

theorem exists_mem_consRun (hne : needle ≠ []) (run : List Char) (later : List (List Char)) :
    (∃ word ∈ consRun run later, needle <:+: word) ↔
      needle <:+: run ∨ ∃ word ∈ later, needle <:+: word := by
  cases run with
  | nil =>
    rw [or_iff_right]
    · rfl
    · exact fun h => hne (List.infix_nil.mp h)
  | cons c run => simp [consRun]

variable (hne : needle ≠ []) (hsolid : ∀ c ∈ needle, p c = false)
include hne hsolid

theorem infix_firstRun_iff : needle <:+: cs ↔
    needle <:+: (firstRun p cs).1 ∨ ∃ run ∈ (firstRun p cs).2, needle <:+: run := by
  induction cs with
  | nil => simp [firstRun]
  | cons d rest ih =>
    have hstart := @prefix_firstRun_iff (d :: rest) needle p hsolid
    rw [firstRun] at hstart ⊢
    dsimp only at hstart ⊢
    rw [List.infix_cons_iff, ← hstart, ih]
    split
    next => rw [exists_mem_consRun hne, List.prefix_nil, List.infix_nil]
    next => rw [List.infix_cons_iff, or_assoc]

/-- **A text without separators occurs within a run.** -/
theorem infix_iff_runs : needle <:+: cs ↔ ∃ run ∈ runs p cs, needle <:+: run := by
  rw [infix_firstRun_iff hne hsolid, runs, exists_mem_consRun hne]

omit hne hsolid

theorem infix_join_iff {words : List (List Char)} (hne : needle ≠ []) (hc : c ∉ needle) :
    needle <:+: join [c] words ↔ ∃ word ∈ words, needle <:+: word := by
  induction words with
  | nil => simp [join, hne]
  | cons word more ih =>
    cases more with
    | nil => simp [join]
    | cons next more =>
      have hjoin : join [c] (word :: next :: more) = word ++ c :: join [c] (next :: more) :=
        List.append_assoc word [c] _
      rw [hjoin, infix_append_cons_iff hc, ih]
      simp only [List.mem_cons, exists_eq_or_imp]

end Words

/-- **Squeezing blanks does not make or break an occurrence** of a text without blanks. -/
theorem infix_squeeze_iff (hne : needle ≠ []) (hsolid : ∀ c ∈ needle, isBlank c = false) :
    needle <:+: squeeze cs ↔ needle <:+: cs := by
  have hspace : ' ' ∉ needle := fun h => absurd (hsolid ' ' h) (by decide)
  rw [squeeze, infix_join_iff hne hspace, words, ← infix_iff_runs hne hsolid]

end Mooring.Text
