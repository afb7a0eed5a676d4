import Mooring.Proofs.Selector.Generated

/-!
# Which values come back from a selector

An attribute's selector puts a backslash before each quote and each backslash of the value.  The
reader takes none of them out again, and for it a quote ends the value, backslash or not.  So a value
without either comes back, and the selector finds the elements that have it; a value with backslashes
comes back with twice as many; and a value with a quote does not come back
(`ofSelector_attributeSelector`).

It does not come back as part of something else either, wherever the reader looks for a value in what
is left when the quote has ended the value.  A value that is read stands in the selector between
delimiters (`enclosedIn_of_value`).  So the value would have to stand there as it was before it was
escaped, behind a character that is not escaped.  But the escaped rest of the value stands there, and
a shifted text is not its own escaped form.
-/

namespace Mooring.Selector

open Mooring.Markup Mooring.Text

/-! ## Values that are read stand between delimiters -/

/-- A value is enclosed by what stands before and after it: by quotes that are not in it; or it holds
no blanks and no closing brackets, stands behind a blank or an equals sign, and goes on up to a blank
or a closing bracket. -/
inductive Enclosed (before value after : List Char) : Prop
  | quoted (quote : Char) (mark : quote = '"' ∨ quote = '\'')
      (opens : before.getLast? = some quote) (inside : quote ∉ value)
      (closes : after.head? = some quote)
  | bare (opening closing : Char) (opens : before.getLast? = some opening)
      (mark : opening = '=' ∨ isBlank opening = true)
      (inside : ∀ c ∈ value, c ≠ ']' ∧ isBlank c = false)
      (closes : after.head? = some closing) (stop : closing = ']' ∨ isBlank closing = true)

/-- More text on either side encloses a value as well. -/
theorem Enclosed.wider {before value after : List Char} (h : Enclosed before value after)
    (front back : List Char) : Enclosed (front ++ before) value (after ++ back) := by
  have hopens : ∀ {c : Char}, before.getLast? = some c → (front ++ before).getLast? = some c := by
    intro c hc
    rw [List.getLast?_append, hc]
    rfl
  have hcloses : ∀ {c : Char}, after.head? = some c → (after ++ back).head? = some c := by
    intro c hc
    rw [List.head?_append, hc]
    rfl
  cases h with
  | quoted quote mark opens inside closes =>
    exact .quoted quote mark (hopens opens) inside (hcloses closes)
  | bare opening closing opens mark inside closes stop =>
    exact .bare opening closing (hopens opens) mark inside (hcloses closes) stop

/-- The value stands enclosed somewhere in the text. -/
def EnclosedIn (value cs : List Char) : Prop :=
  ∃ before after, cs = before ++ (value ++ after) ∧ Enclosed before value after

theorem EnclosedIn.within {value part cs : List Char} (h : EnclosedIn value part)
    (hpart : part <:+: cs) : EnclosedIn value cs := by
  obtain ⟨before, after, rfl, henclosed⟩ := h
  obtain ⟨front, back, rfl⟩ := hpart
  exact ⟨front ++ before, after ++ back, by simp only [List.append_assoc],
    henclosed.wider front back⟩

theorem afterBracket?_eq_some {cs rest : List Char} (h : afterBracket? cs = some rest) :
    rest <:+ cs ∧ ∃ c, cs.head? = some c ∧ (c = ']' ∨ isBlank c = true) := by
  unfold afterBracket? at h
  split at h
  next more hmore =>
    obtain rfl := Option.some.inj h
    refine ⟨(List.suffix_cons _ _).trans (hmore ▸ List.dropWhile_suffix _), ?_⟩
    cases cs with
    | nil => exact absurd hmore (by simp)
    | cons c cs =>
      refine ⟨c, rfl, ?_⟩
      cases hblank : isBlank c with
      | true => exact Or.inr rfl
      | false =>
        rw [List.dropWhile_cons_of_neg (by simp [hblank])] at hmore
        exact Or.inl (List.cons.inj hmore).1
  next => exact absurd h (by simp)

theorem operator?_eq_some {cs rest : List Char} {exact : Bool}
    (h : operator? cs = some (exact, rest)) : ∃ front, cs = front ++ '=' :: rest := by
  unfold operator? at h
  split at h
  next more =>
    obtain ⟨-, rfl⟩ := Prod.mk.inj (Option.some.inj h)
    exact ⟨[], rfl⟩
  next mark more _ =>
    split at h
    · obtain ⟨-, rfl⟩ := Prod.mk.inj (Option.some.inj h)
      exact ⟨[mark], rfl⟩
    · exact absurd h (by simp)
  next => exact absurd h (by simp)

theorem quotedAttrValue?_eq_some {cs value rest : List Char}
    (h : quotedAttrValue? cs = some (value, rest)) : ∃ quote after,
    (quote = '"' ∨ quote = '\'') ∧ cs = quote :: (value ++ quote :: after) ∧ quote ∉ value ∧
      rest <:+ after := by
  cases cs with
  | nil => exact absurd h (by simp [quotedAttrValue?])
  | cons quote more =>
    rw [quotedAttrValue?] at h
    split at h
    next mark =>
      rw [Bool.or_eq_true, beq_iff_eq, beq_iff_eq] at mark
      cases hsplit : splitBefore? (· == quote) more with
      | none => rw [hsplit] at h; exact absurd h (by simp)
      | some pair =>
        obtain ⟨lead, here⟩ := pair
        rw [hsplit] at h
        obtain ⟨rest', hbracket, heq⟩ := Option.map_eq_some_iff.mp h
        obtain ⟨rfl, rfl⟩ := Prod.mk.inj heq
        obtain ⟨rfl, hlead, c, after, rfl, hc⟩ := splitBefore?_eq_some hsplit
        obtain rfl : c = quote := eq_of_beq hc
        refine ⟨c, after, mark, rfl, fun hmem => ?_, (afterBracket?_eq_some hbracket).1⟩
        exact absurd (hlead c hmem) (by simp)
    next => exact absurd h (by simp)

theorem bareAttrValue?_eq_some {cs value rest : List Char}
    (h : bareAttrValue? cs = some (value, rest)) : ∃ after closing,
    cs = value ++ after ∧ (∀ c ∈ value, c ≠ ']' ∧ isBlank c = false) ∧
      after.head? = some closing ∧ (closing = ']' ∨ isBlank closing = true) ∧ rest <:+ after := by
  unfold bareAttrValue? at h
  dsimp only at h
  split at h
  · exact absurd h (by simp)
  · obtain ⟨rest', hbracket, heq⟩ := Option.map_eq_some_iff.mp h
    obtain ⟨rfl, rfl⟩ := Prod.mk.inj heq
    obtain ⟨hsuffix, closing, hhead, hstop⟩ := afterBracket?_eq_some hbracket
    refine ⟨_, closing, (List.prefix_iff_eq_append.mp (List.takeWhile_prefix _)).symm,
      fun c hc => ?_, hhead, hstop, hsuffix⟩
    have hinside := List.mem_takeWhile_imp hc
    simpa using hinside

/-- A value that is read behind an equals sign or a blank is enclosed. -/
theorem enclosedIn_of_value {lead here value rest : List Char} {opening : Char}
    (hopens : lead.getLast? = some opening) (mark : opening = '=' ∨ isBlank opening = true)
    (h : (quotedAttrValue? here).or (bareAttrValue? here) = some (value, rest)) :
    rest <:+ here ∧ EnclosedIn value (lead ++ here) := by
  rcases Option.or_eq_some_iff.mp h with hquoted | ⟨-, hbare⟩
  · obtain ⟨quote, after, hmark, rfl, hinside, hrest⟩ := quotedAttrValue?_eq_some hquoted
    refine ⟨hrest.trans ⟨quote :: (value ++ [quote]), by simp⟩, lead ++ [quote], quote :: after,
      by simp, ?_⟩
    exact .quoted quote hmark List.getLast?_concat hinside rfl
  · obtain ⟨after, closing, rfl, hinside, hhead, hstop, hrest⟩ := bareAttrValue?_eq_some hbare
    exact ⟨hrest.trans (List.suffix_append _ _), lead, after, rfl,
      .bare opening closing hopens mark hinside hhead hstop⟩

/-- **The value of an attribute part stands enclosed in the text** that the part is read from. -/
theorem attrPart?_eq_some {cs rest : List Char} {part : AttrPart}
    (h : attrPart? cs = some (part, rest)) :
    rest <:+ cs ∧ ∀ value, part.value = some value → EnclosedIn value.toList cs := by
  unfold attrPart? at h
  dsimp only at h
  split at h
  · exact absurd h (by simp)
  · have hsuffix : ((cs.dropWhile isBlank).dropWhile isAttrNameChar).dropWhile isBlank <:+ cs :=
      ((List.dropWhile_suffix _).trans (List.dropWhile_suffix _)).trans (List.dropWhile_suffix _)
    split at h
    next hoperator =>
      obtain ⟨rest', hbracket, heq⟩ := Option.map_eq_some_iff.mp h
      obtain ⟨rfl, rfl⟩ := Prod.mk.inj heq
      refine ⟨(afterBracket?_eq_some hbracket).1.trans hsuffix, fun value hvalue => ?_⟩
      exact absurd hvalue (by simp)
    next exact more hoperator =>
      obtain ⟨⟨found, rest'⟩, hfound, heq⟩ := Option.map_eq_some_iff.mp h
      obtain ⟨rfl, rfl⟩ := Prod.mk.inj heq
      obtain ⟨front, hfront⟩ := operator?_eq_some hoperator
      obtain ⟨lead, hlead⟩ := hfront ▸ hsuffix
      -- What stands before the value ends with the equals sign or with a blank behind it.
      have hopens : ∃ opening,
          (lead ++ (front ++ '=' :: more.takeWhile isBlank)).getLast? = some opening ∧
            (opening = '=' ∨ isBlank opening = true) := by
        rw [List.getLast?_append, List.getLast?_append, List.getLast?_cons]
        refine ⟨_, rfl, ?_⟩
        cases hlast : (more.takeWhile isBlank).getLast? with
        | none => exact Or.inl rfl
        | some blank => exact Or.inr (List.mem_takeWhile_imp (List.mem_of_getLast? hlast))
      have hcs : cs = (lead ++ (front ++ '=' :: more.takeWhile isBlank)) ++
          more.dropWhile isBlank := by
        rw [← hlead]
        simp
      obtain ⟨opening, hopening, hmark⟩ := hopens
      obtain ⟨hrest, henclosed⟩ := enclosedIn_of_value hopening hmark hfound
      refine ⟨hrest.trans ⟨_, hcs.symm⟩, fun value hvalue => ?_⟩
      have hsame : value.toList = found := by
        dsimp only at hvalue
        split at hvalue
        · rw [← Option.some.inj hvalue, String.toList_ofList]
        · exact absurd hvalue (by simp)
      rw [hsame, hcs]
      exact henclosed

theorem enclosedIn_of_mem {part : AttrPart} {value : String}
    (hvalue : part.value = some value) : ∀ (fuel : Nat) (cs : List Char),
    part ∈ (takeAttrParts fuel cs).1 → EnclosedIn value.toList cs
  | 0, cs, h => absurd h (by simp [takeAttrParts])
  | _ + 1, [], h => absurd h (by simp [takeAttrParts])
  | fuel + 1, c :: rest, h => by
    rw [takeAttrParts] at h
    split at h
    next found after hfound =>
      split at hfound
      · obtain ⟨hsuffix, hread⟩ := attrPart?_eq_some hfound
        -- A value further back stands in the whole text as well.
        rcases List.mem_cons.mp h with rfl | hlater
        · exact (hread value hvalue).within (List.suffix_cons c rest).isInfix
        · exact (enclosedIn_of_mem hvalue fuel after hlater).within
            (hsuffix.trans (List.suffix_cons c rest)).isInfix
      · exact absurd hfound (by simp)
    next =>
      exact (enclosedIn_of_mem hvalue fuel rest h).within (List.suffix_cons c rest).isInfix

theorem lastFrom_suffix (n : Nesting) (current cs : List Char) :
    lastFrom n current cs <:+ current.reverse ++ cs := by
  induction cs generalizing n current with
  | nil => exact ⟨[], by simp [lastFrom]⟩
  | cons c rest ih =>
    rw [lastFrom]
    split
    · exact (ih n []).trans ⟨current.reverse ++ [c], by simp⟩
    · exact (ih (n.after c) (c :: current)).trans ⟨[], by simp⟩

/-- The last compound is part of the selector. -/
theorem infix_lastCompound (selector : List Char) : lastCompound selector <:+: selector :=
  (infix_trim _).trans (lastFrom_suffix {} [] selector).isInfix

/-- What a compound demands of attributes, one of its parts says. -/
theorem mem_attrs_compoundShape {compound : List Char} {pair : String × Option String}
    (h : pair ∈ (compoundShape compound).attrs) :
    ∃ part ∈ (takeAttrParts compound.length compound).1, (part.name, part.value) = pair := by
  have hkept : ∀ {table : Table (Option String)} {other : String} {taken : Bool},
      pair ∈ (if taken then table.without other else table) → pair ∈ table := by
    intro table other taken hpair
    cases taken with
    | true => exact (List.mem_filter.mp hpair).1
    | false => exact hpair
  have hparts : pair ∈ Table.ofPairs
      ((takeAttrParts compound.length compound).1.map fun part => (part.name, part.value)) :=
    hkept (hkept h)
  exact List.mem_map.mp (Table.mem_of_mem_ofPairs hparts)

/-- What a compound demands of an attribute stands enclosed in it. -/
theorem enclosedIn_of_compoundShape {compound : List Char} {name value : String}
    (h : (name, some value) ∈ (compoundShape compound).attrs) :
    EnclosedIn value.toList compound := by
  obtain ⟨part, hpart, heq⟩ := mem_attrs_compoundShape h
  exact enclosedIn_of_mem (Prod.mk.inj heq).2 _ _ hpart

/-! ## A value with a quote is not enclosed in its own selector -/

/-- A text with a quote, something of it in front of the escaped rest, does not end with a quote and
a bracket as the selector does. -/
theorem append_ne_escaped_part {first rest after : List Char} {c : Char}
    (hlast : first.getLast? = some c) (hplain : isEscaped c = false)
    (hquote : '"' ∈ first ++ rest) (hafter : after ≠ []) :
    first ++ (rest ++ after) ≠ escaped rest ++ ['"', ']'] := by
  intro h
  have hfirst : ∀ d, first.getLast? = some d → isEscaped d = false := by
    intro d hd
    rw [← Option.some.inj (hlast.symm.trans hd)]
    exact hplain
  have hmark : ∀ {mark : Char}, isEscaped mark = true → ∀ d ∈ [mark], isEscaped d = true :=
    fun hmark => List.forall_mem_singleton.mpr hmark
  by_cases hmem : '"' ∈ after
  · -- There is one quote more on the right, so none in the first piece: cut at the first one.
    have hcount := congrArg (List.count '"') h
    rw [List.count_append, List.count_append, List.count_append, count_escaped] at hcount
    have hone := List.count_pos_iff.mpr hmem
    have hnone : '"' ∉ first := by
      rw [← List.count_eq_zero]
      have hends : ['"', ']'].count '"' = 1 := rfl
      omega
    obtain ⟨front, back, rfl, hfront⟩ :=
      List.eq_append_cons_of_mem ((List.mem_append.mp hquote).resolve_left hnone)
    have hcut : (first ++ front) ++ '"' :: (back ++ after) =
        (escaped front ++ ['\\']) ++ '"' :: (escaped back ++ ['"', ']']) := by
      rw [escaped_append, escaped_cons, escapeChar_of_escaped rfl] at h
      simpa using h
    have htake : ∀ {cs : List Char} (more : List Char), '"' ∉ cs →
        (cs ++ '"' :: more).takeWhile (· != '"') = cs := fun more hcs =>
      takeWhile_stop (fun d hd => bne_iff_ne.mpr fun heq : d = '"' => hcs (heq ▸ hd))
        (by decide) more
    have hsame := congrArg (List.takeWhile (· != '"')) hcut
    rw [htake, htake] at hsame
    · exact append_ne_escaped hfirst (by simp) (hmark rfl) front hsame
    · simp [not_mem_escaped hfront]
    · simp [hnone, hfront]
  · -- Without a quote only the bracket is behind the value, and one quote is over.
    obtain ⟨behind, last, rfl⟩ := (List.eq_nil_or_concat after).resolve_left hafter
    have hends : (first ++ (rest ++ behind)) ++ [last] = (escaped rest ++ ['"']) ++ [']'] := by
      simpa using h
    have hshift := (List.append_inj' hends rfl).1
    rcases List.eq_nil_or_concat behind with rfl | ⟨behind, last', rfl⟩
    · rw [List.append_nil] at hshift
      exact append_ne_escaped hfirst (by simp) (hmark rfl) rest hshift
    · have hends' : (first ++ (rest ++ behind)) ++ [last'] = escaped rest ++ ['"'] := by
        simpa using hshift
      rw [List.singleton_inj.mp (List.append_inj' hends' rfl).2] at hmem
      exact hmem (by simp)

/-- What opens an enclosed value with a quote in it, is not escaped. -/
theorem Enclosed.exists_opening {before value after : List Char} (h : Enclosed before value after)
    (hquote : '"' ∈ value) : after ≠ [] ∧ ∃ c, before.getLast? = some c ∧ isEscaped c = false ∧
      (c = '\'' ∨ c = '=' ∨ isBlank c = true) := by
  have hfilled : ∀ {c : Char}, after.head? = some c → after ≠ [] := by
    rintro c hc rfl
    exact absurd hc (by simp)
  cases h with
  | quoted quote mark opens inside closes =>
    refine ⟨hfilled closes, quote, opens, ?_⟩
    rcases mark with rfl | rfl
    · exact absurd hquote inside
    · exact ⟨by decide, Or.inl rfl⟩
  | bare opening closing opens mark inside closes stop =>
    refine ⟨hfilled closes, opening, opens, ?_, Or.inr mark⟩
    rw [← Bool.not_eq_true]
    intro hescaped
    rw [isEscaped, Bool.or_eq_true, beq_iff_eq, beq_iff_eq] at hescaped
    rcases hescaped with rfl | rfl
    · exact absurd mark (by decide)
    · exact absurd mark (by decide)

/-- Right behind the equals sign of its selector, a value with a quote in it is not enclosed. -/
theorem not_enclosed_first {before value after : List Char}
    (hopens : before.getLast? = some '=')
    (h : '"' :: (escaped value ++ ['"', ']']) = value ++ after) : ¬Enclosed before value after := by
  intro henclosed
  have hlonger := length_le_escaped value
  cases henclosed with
  | quoted quote mark opens inside closes =>
    rw [← Option.some.inj (hopens.symm.trans opens)] at mark
    exact absurd mark (by decide)
  | bare opening closing opens mark inside closes stop =>
    have hends : ('"' :: (escaped value ++ ['"'])) ++ [']'] = value ++ after := by simpa using h
    rcases List.append_eq_append_iff.mp hends with ⟨extra, hextra, -⟩ | ⟨extra, hextra, rfl⟩
    · have hlength := congrArg List.length hextra
      simp only [List.length_append, List.length_cons, List.length_nil] at hlength
      omega
    · cases extra with
      | nil =>
        have hlength := congrArg List.length hextra
        simp only [List.length_append, List.length_cons, List.length_nil] at hlength
        omega
      | cons d extra =>
        -- What closes the value would be a quote or a character of the escaped value.
        obtain rfl : d = closing := Option.some.inj closes
        have hmem : d ∈ '"' :: (escaped value ++ ['"']) := by
          rw [hextra]
          simp
        have hcases : d = '"' ∨ d = '\\' ∨ d ∈ value := by
          simp only [List.mem_cons, List.mem_append, List.not_mem_nil, or_false] at hmem
          rcases hmem with hmem | hmem | hmem
          · exact Or.inl hmem
          · exact (mem_escaped hmem).elim (fun hd => Or.inr (Or.inr hd)) fun hd => Or.inr (Or.inl hd)
          · exact Or.inl hmem
        rcases hcases with rfl | rfl | hd
        · exact absurd stop (by decide)
        · exact absurd stop (by decide)
        · obtain ⟨hbracket, hblank⟩ := inside d hd
          rcases stop with rfl | hstop
          · exact hbracket rfl
          · exact absurd hstop (by simp [hblank])

/-- Nor is it further on, behind what opens the quoted value. -/
theorem not_enclosed_behind {lead front value after : List Char}
    (h : escaped value ++ ['"', ']'] = front ++ (value ++ after)) (hquote : '"' ∈ value) :
    ¬Enclosed (lead ++ '"' :: front) value after := by
  intro henclosed
  obtain ⟨hafter, c, hopens, hplain, -⟩ := henclosed.exists_opening hquote
  have hlast : front.getLast? = some c := by
    rw [List.getLast?_append, List.getLast?_cons] at hopens
    cases hfront : front.getLast? with
    | none =>
      rw [hfront] at hopens
      rw [← Option.some.inj hopens] at hplain
      exact absurd hplain (by decide)
    | some d =>
      rw [hfront] at hopens
      exact hopens
  have hsplit : ∃ back, escaped value = front ++ back ∧ value ++ after = back ++ ['"', ']'] := by
    rcases List.append_eq_append_iff.mp h with ⟨extra, rfl, hextra⟩ | hsplit
    · -- There is no room for the value and what closes it behind the escaped one.
      have hlength := congrArg List.length hextra
      have hvalue := List.length_pos_of_mem hquote
      have hbehind := List.length_pos_iff.mpr hafter
      simp only [List.length_append, List.length_cons, List.length_nil] at hlength
      obtain rfl : extra = [] := List.length_eq_zero_iff.mp (by omega)
      exact ⟨[], by simp, hextra.symm⟩
    · exact hsplit
  obtain ⟨back, hfront, hback⟩ := hsplit
  obtain ⟨first, rest, rfl, hfirst, rfl⟩ := exists_split_escaped hfront hlast hplain
  rw [List.append_assoc] at hback
  exact append_ne_escaped_part hfirst hplain hquote hafter hback

/-- Nor does it start in the name. -/
theorem not_enclosed_name {name before value after extra : List Char} (hname : LowName name)
    (hquote : '"' ∈ value) (h : '[' :: name = before ++ extra) : ¬Enclosed before value after := by
  intro henclosed
  obtain ⟨-, c, hopens, -, hc⟩ := henclosed.exists_opening hquote
  have hmem : c ∈ '[' :: name := by
    rw [h]
    exact List.mem_append_left _ (List.mem_of_getLast? hopens)
  rcases List.mem_cons.mp hmem with rfl | hmem
  · exact absurd hc (by decide)
  · have hlow := hname.chars c hmem
    rcases hc with rfl | rfl | hblank
    · exact absurd hlow (by decide)
    · exact absurd hlow (by decide)
    · rw [isBlank_of_isNameChar (isNameChar_of_isLowNameChar hlow)] at hblank
      exact absurd hblank (by decide)

/-- **A value with a quote is not enclosed anywhere in its own selector.** -/
theorem not_enclosedIn_part {name value : List Char} (hname : LowName name)
    (hquote : '"' ∈ value) : ¬EnclosedIn value (part name (escaped value)) := by
  rintro ⟨before, after, h, henclosed⟩
  have hheader : ('[' :: (name ++ ['='])) ++ '"' :: (escaped value ++ ['"', ']']) =
      before ++ (value ++ after) := by
    rw [← h]
    simp [part]
  have hequals : ('[' :: (name ++ ['='])).getLast? = some '=' :=
    List.getLast?_concat (l := '[' :: name)
  rcases List.append_eq_append_iff.mp hheader with ⟨front, rfl, hrest⟩ | ⟨extra, hextra, hrest⟩
  · cases front with
    | nil => exact not_enclosed_first hequals hrest (by rwa [List.append_nil] at henclosed)
    | cons quote front =>
      obtain ⟨rfl, hinner⟩ := List.cons.inj hrest
      exact not_enclosed_behind hinner hquote henclosed
  · rcases List.eq_nil_or_concat extra with rfl | ⟨extra, last, rfl⟩
    · rw [List.append_nil] at hextra
      exact not_enclosed_first (hextra ▸ hequals) hrest.symm henclosed
    · have hends : ('[' :: name) ++ ['='] = (before ++ extra) ++ [last] := by simpa using hextra
      exact not_enclosed_name hname hquote (List.append_inj' hends rfl).1 henclosed

/-! ## Values that come back -/

/-- An attribute part is read as a compound. -/
theorem ofSelector_of_part {selector : String} {name value : List Char}
    (h : selector.toList = part name value) :
    Shape.ofSelector selector = compoundShape (lastCompound selector.toList) := by
  have hlead : ∀ {lead : List Char} {c : Char} {more : List Char}, lead = c :: more → c ≠ '[' →
      afterLead? lead selector.toList = none := by
    rintro _ c more rfl hc
    rw [h, part, afterLead?, if_neg (by simpa using hc)]
  refine ofSelector_compound (trim_of_edges ?_ ?_) ?_ (hlead rfl (by decide))
    (hlead rfl (by decide)) (hlead rfl (by decide))
  · intro c hc
    rw [h] at hc
    rw [← Option.some.inj hc]
    decide
  · intro c hc
    rw [h, ← List.nil_append (part name value), getLast?_part] at hc
    rw [← Option.some.inj hc]
    decide
  · rw [h]
    exact List.cons_ne_nil _ _

/-- **A value with a quote does not come back.** -/
theorem ofSelector_attributeSelector_ne {name value : String} (hname : LowName name.toList)
    (hquote : '"' ∈ value.toList) :
    Shape.ofSelector (attributeSelector name value) ≠ { attrs := [(name, some value)] } := by
  intro h
  have hpart := toList_attributeSelector name value
  rw [ofSelector_of_part hpart, hpart] at h
  have hmem : (name, some value) ∈
      (compoundShape (lastCompound (part name.toList (escaped value.toList)))).attrs := by
    rw [h]
    exact List.mem_singleton_self _
  exact not_enclosedIn_part hname hquote
    ((enclosedIn_of_compoundShape hmem).within (infix_lastCompound _))

/-- A value without quotes comes back escaped. -/
theorem ofSelector_attributeSelector_escaped {name value : String}
    (hname : name ∈ stableAttributeNames) (hquote : '"' ∉ value.toList) :
    Shape.ofSelector (attributeSelector name value) =
      { attrs := [(name, some (escape value))] } := by
  obtain ⟨hplain, hid, hrole, -⟩ := describingNames_plain (List.mem_append_left _ hname)
  have hfree : name.toList ≠ ("id").toList ∧ name.toList ≠ ("role").toList :=
    ⟨fun heq => hid (String.toList_inj.mp heq), fun heq => hrole (String.toList_inj.mp heq)⟩
  have hpart := toList_attributeSelector name value
  rw [← toList_escape] at hpart
  rw [@ofSelector_part _ none _ _ hpart (by simp) hplain hfree
    (by rw [toList_escape]; exact not_mem_escaped hquote)]
  simp

/-- What demands one attribute finds the elements that have it. -/
theorem findByTagAndAttrs_attribute (index : Index) {name : String}
    (hname : name ∈ stableAttributeNames) (value : String) :
    let shape : Shape := { attrs := [(name, some value)] }
    index.findByTagAndAttrs shape.tag shape.constraints = index.findByAttribute name value := by
  obtain ⟨-, -, -, hclass⟩ := describingNames_plain (List.mem_append_left _ hname)
  intro shape
  have hconstraints : shape.constraints = [(name, some value)] := rfl
  rw [hconstraints]
  refine List.filter_congr fun node _ => ?_
  show (true && (node.satisfies name (some value) && true)) = _
  rw [Bool.true_and, Bool.and_true, Node.satisfies]
  cases hget : node.attrs.get? name with
  | none => rfl
  | some own =>
    dsimp only
    rw [if_neg hclass]
    rfl

/-- **Which values come back from the selector of a durable attribute**: those without quotes and
backslashes, and nothing else comes back with them.  Then the selector finds just the elements that
have the attribute with the value.  A value that has backslashes but no quotes comes back with all of
them doubled. -/
theorem ofSelector_attributeSelector {name : String} (hname : name ∈ stableAttributeNames)
    (value : String) :
    (Shape.ofSelector (attributeSelector name value) = { attrs := [(name, some value)] } ↔
      '"' ∉ value.toList ∧ '\\' ∉ value.toList) ∧
    ('"' ∉ value.toList → Shape.ofSelector (attributeSelector name value) =
      { attrs := [(name, some (escape value))] }) ∧
    ('"' ∉ value.toList ∧ '\\' ∉ value.toList → ∀ index : Index,
      let shape := Shape.ofSelector (attributeSelector name value)
      index.findByTagAndAttrs shape.tag shape.constraints = index.findByAttribute name value) := by
  obtain ⟨hplain, -⟩ := describingNames_plain (List.mem_append_left _ hname)
  have hiff : Shape.ofSelector (attributeSelector name value) = { attrs := [(name, some value)] } ↔
      '"' ∉ value.toList ∧ '\\' ∉ value.toList := by
    by_cases hquote : '"' ∈ value.toList
    · exact iff_of_false (ofSelector_attributeSelector_ne hplain hquote) fun h => h.1 hquote
    · rw [ofSelector_attributeSelector_escaped hname hquote]
      have hsame : escape value = value ↔ '\\' ∉ value.toList := by
        rw [← String.toList_inj, toList_escape, escaped_eq_iff]
        refine ⟨fun h hmem => absurd (h _ hmem) (by decide), fun h c hc => ?_⟩
        have hback : c ≠ '\\' := fun heq => h (heq ▸ hc)
        have hmark : c ≠ '"' := fun heq => hquote (heq ▸ hc)
        simp [isEscaped, hback, hmark]
      simp [hsame, hquote]
  refine ⟨hiff, ofSelector_attributeSelector_escaped hname, fun hfree index => ?_⟩
  rw [hiff.mpr hfree]
  exact findByTagAndAttrs_attribute index hname value

theorem ofSelector_attributeSelector_brackets :
    let value := "a ]\n['b'] =c"
    "data-testid" ∈ stableAttributeNames ∧ '"' ∉ value.toList ∧ '\\' ∉ value.toList ∧
      Shape.ofSelector (attributeSelector "data-testid" value) =
        { attrs := [("data-testid", some value)] } := by
  intro value
  have hname : "data-testid" ∈ stableAttributeNames := by decide
  have hfree : '"' ∉ value.toList ∧ '\\' ∉ value.toList := by decide
  obtain ⟨hiff, -⟩ := ofSelector_attributeSelector hname value
  exact ⟨hname, hfree.1, hfree.2, hiff.mpr hfree⟩

/-- A value with a quote comes back with the quotes around it and the backslash in it. -/
theorem ofSelector_attributeSelector_quote :
    "data-testid" ∈ stableAttributeNames ∧
      Shape.ofSelector (attributeSelector "data-testid" "a\"b") =
        { attrs := [("data-testid", some "\"a\\\"b\"")] } ∧
      Shape.ofSelector (attributeSelector "data-testid" "a\"b") ≠
        { attrs := [("data-testid", some "a\"b")] } := by
  have hread : Shape.ofSelector (attributeSelector "data-testid" "a\"b") =
      { attrs := [("data-testid", some "\"a\\\"b\"")] } := by decide +kernel
  exact ⟨by decide, hread, by rw [hread]; decide⟩

end Mooring.Selector
