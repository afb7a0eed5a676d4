import Mooring.Proofs.Fragment.Plain

/-!
# Names: the lower-casing passes come to rest

`lowerTags` and `lowerNames` each find names at certain places and lower-case them.  Afterwards the
names at those places are small (`TagsLow`, `NamesLow`), and a text with that property is left alone
by the pass.  Two things have to be watched.  The lower case of a name may hold a character that
ends a name, so what is found afterwards is only a part of what was lower-cased
(`mem_takeWhile_append`); and the second pass must not spoil what the first one established
(`TagsLow.lowerNames`), for which it is enough that it changes nothing up to the first character
that opens a name (`takeWhile_dropWhile_lowerNames`).
-/

namespace Mooring.Fragment

open Mooring.Text

/-! ## Names at the start of a text -/

/-- The name at the start of a text whose first character `isFirst` admits. -/
def nameAt (isFirst : Char → Bool) : List Char → List Char
  | [] => []
  | c :: rest => if isFirst c then c :: rest.takeWhile isNameChar else []

theorem lowerNameAt_eq (isFirst : Char → Bool) (cs : List Char) :
    (lowerNameAt isFirst cs).1 = lower (nameAt isFirst cs) ∧
      cs = nameAt isFirst cs ++ (lowerNameAt isFirst cs).2 := by
  cases cs with
  | nil => exact ⟨rfl, rfl⟩
  | cons c rest =>
    simp only [lowerNameAt, nameAt]
    split
    · exact ⟨rfl, by rw [List.cons_append, List.takeWhile_append_dropWhile]⟩
    · exact ⟨rfl, rfl⟩

/-- A run that ends where the second text starts lies in the first. -/
theorem mem_takeWhile_append {p : Char → Bool} {first second : List Char}
    (h : ∀ d, second.head? = some d → p d = false) {c : Char}
    (hc : c ∈ (first ++ second).takeWhile p) : c ∈ first := by
  induction first with
  | nil =>
    cases second with
    | nil => exact hc
    | cons d second => simp [h d rfl] at hc
  | cons d first ih =>
    rw [List.cons_append] at hc
    cases hd : p d with
    | true =>
      rw [List.takeWhile_cons_of_pos hd] at hc
      rcases List.mem_cons.mp hc with rfl | hc
      · exact List.mem_cons_self ..
      · exact List.mem_cons_of_mem _ (ih hc)
    | false => simp [hd] at hc

/-- A name at the start of two texts lies in the first, if the second starts with no character of
a name. -/
theorem mem_nameAt_append {isFirst : Char → Bool}
    (hfirst : ∀ c, isFirst c = true → isNameChar c = true) {first second : List Char}
    (h : ∀ d, second.head? = some d → isNameChar d = false) {c : Char}
    (hc : c ∈ nameAt isFirst (first ++ second)) : c ∈ first := by
  cases first with
  | nil =>
    cases second with
    | nil => exact hc
    | cons d second =>
      have hd : ¬ isFirst d = true := fun hd => by simpa [h d rfl] using hfirst d hd
      rw [List.nil_append, nameAt, if_neg hd] at hc
      exact hc
  | cons d first =>
    rw [List.cons_append, nameAt] at hc
    split at hc
    · rcases List.mem_cons.mp hc with rfl | hc
      · exact List.mem_cons_self ..
      · exact List.mem_cons_of_mem _ (mem_takeWhile_append h hc)
    · exact absurd hc (by simp)

/-- What follows a name at the start of a text starts with no character of a name, unless there is
no name. -/
theorem head?_lowerNameAt {isFirst : Char → Bool} {cs : List Char} (hne : nameAt isFirst cs ≠ [])
    {d : Char} (hd : (lowerNameAt isFirst cs).2.head? = some d) : isNameChar d = false := by
  cases cs with
  | nil => exact absurd rfl hne
  | cons c rest =>
    simp only [lowerNameAt, nameAt] at hd hne
    split at hd
    next => simpa [hd] using List.head?_dropWhile_not isNameChar rest
    next hc => exact absurd (if_neg hc) hne

/-! ## Tags -/

/-- The name of the tag that a text starts in, after its opening bracket. -/
def tagName : List Char → List Char
  | '/' :: more => nameAt isAsciiLetter more
  | more => nameAt isAsciiLetter more

/-- Every tag has a name of small characters. -/
def TagsLow : List Char → Prop
  | [] => True
  | c :: rest => (c = '<' → ∀ d ∈ tagName rest, isSmall d = true) ∧ TagsLow rest

theorem TagsLow.of_append {cs : List Char} :
    ∀ before : List Char, TagsLow (before ++ cs) → TagsLow cs := by
  intro before
  induction before with
  | nil => intro h; exact h
  | cons c before ih => intro h; exact ih h.2

/-- What has no bracket adds no tags. -/
theorem TagsLow.append {before cs : List Char} (hbefore : ∀ c ∈ before, c ≠ '<')
    (h : TagsLow cs) : TagsLow (before ++ cs) := by
  induction before with
  | nil => exact h
  | cons c before ih =>
    exact ⟨fun hc => absurd hc (hbefore c (List.mem_cons_self ..)),
      ih fun d hd => hbefore d (List.mem_cons_of_mem _ hd)⟩

/-- A text whose tags are small is left alone. -/
theorem lowerTags_of_tagsLow (cs : List Char) (h : TagsLow cs) : lowerTags cs = cs := by
  fun_induction lowerTags cs with
  | case1 => rfl
  | case2 c hc more named ih =>
    -- A closing tag: its name stands behind the slash.
    obtain ⟨hlower, hsplit⟩ := lowerNameAt_eq isAsciiLetter more
    have hsmall : ∀ d ∈ nameAt isAsciiLetter more, isSmall d = true := h.1 (beq_iff_eq.mp hc)
    have hafter : TagsLow named.2 := by
      have hmore : TagsLow more := h.2.2
      rw [hsplit] at hmore
      exact TagsLow.of_append _ hmore
    have hname : named.1 = nameAt isAsciiLetter more := by
      rw [show named.1 = _ from hlower, lower_of_small hsmall]
    rw [ih hafter, hname, beq_iff_eq.mp hc, List.cons_append, List.cons_append, ← hsplit]
  | case3 c hc more hmore named ih =>
    -- An opening tag; `hmore` says that no slash follows the bracket.
    obtain ⟨hlower, hsplit⟩ := lowerNameAt_eq isAsciiLetter more
    have htag : tagName more = nameAt isAsciiLetter more := by
      unfold tagName
      split
      next rest => exact absurd rfl (hmore rest)
      next => rfl
    have hsmall : ∀ d ∈ nameAt isAsciiLetter more, isSmall d = true := htag ▸ h.1 (beq_iff_eq.mp hc)
    have hafter : TagsLow named.2 := by
      have hrest := h.2
      rw [hsplit] at hrest
      exact TagsLow.of_append _ hrest
    have hname : named.1 = nameAt isAsciiLetter more := by
      rw [show named.1 = _ from hlower, lower_of_small hsmall]
    rw [ih hafter, hname, beq_iff_eq.mp hc, List.cons_append, ← hsplit]
  | case4 c rest hc ih => rw [ih h.2]

/-- Lower-casing tags keeps the first character. -/
theorem head?_lowerTags (cs : List Char) : (lowerTags cs).head? = cs.head? := by
  fun_cases lowerTags cs with
  | case1 => rfl
  | case2 c hc more named => rw [beq_iff_eq.mp hc]; rfl
  | case3 c hc more hmore named => rw [beq_iff_eq.mp hc]; rfl
  | case4 c rest hc => rfl

theorem nameAt_eq_nil {isFirst : Char → Bool} {cs : List Char} :
    nameAt isFirst cs = [] ↔ ∀ c, cs.head? = some c → isFirst c = false := by
  cases cs with
  | nil => simp [nameAt]
  | cons c rest => simp [nameAt]

/-- The lower case of a name at the start of a text is plain. -/
theorem isPlain_lowerNameAt {isFirst : Char → Bool}
    (hfirst : ∀ c, isFirst c = true → isNameChar c = true) (cs : List Char) :
    ∀ c ∈ (lowerNameAt isFirst cs).1, isPlain c = true := by
  intro c hc
  rw [(lowerNameAt_eq isFirst cs).1] at hc
  refine isPlain_of_mem_lowerFrom (fun d hd => ?_) hc
  cases cs with
  | nil => exact absurd hd (by simp [nameAt])
  | cons e rest =>
    rw [nameAt] at hd
    split at hd
    next he =>
      rcases List.mem_cons.mp hd with rfl | hd
      · exact hfirst _ he
      · exact List.mem_takeWhile_imp hd
    next => exact absurd hd (by simp)

/-- Once the name at the start of a text is lower-cased, the name found there is small, if what
follows starts as it did. -/
theorem small_nameAt {isFirst : Char → Bool}
    (hfirst : ∀ c, isFirst c = true → isNameChar c = true) {cs after : List Char}
    (hhead : after.head? = (lowerNameAt isFirst cs).2.head?) :
    ∀ d ∈ nameAt isFirst ((lowerNameAt isFirst cs).1 ++ after), isSmall d = true := by
  intro d hd
  obtain ⟨hlower, hsplit⟩ := lowerNameAt_eq isFirst cs
  -- Where no name was, none is found afterwards; where one was, the name that is found
  -- afterwards lies within its lower case.
  by_cases hne : nameAt isFirst cs = []
  · have hempty : nameAt isFirst after = [] := by
      rw [hne, List.nil_append] at hsplit
      rw [nameAt_eq_nil, hhead, ← hsplit]
      exact nameAt_eq_nil.mp hne
    rw [hlower, hne, show lower [] = [] from rfl, List.nil_append, hempty] at hd
    exact absurd hd (by simp)
  · have hmem := mem_nameAt_append hfirst
      (fun e he => head?_lowerNameAt hne (hhead ▸ he)) hd
    rw [hlower] at hmem
    exact isSmall_of_mem_lowerFrom hmem

theorem tagName_of_head? {cs : List Char} (h : cs.head? ≠ some '/') :
    tagName cs = nameAt isAsciiLetter cs := by
  unfold tagName
  split
  next more => exact absurd rfl h
  next => rfl

theorem ne_bracket_of_isPlain {c : Char} (h : isPlain c = true) : c ≠ '<' := by
  rintro rfl
  exact absurd h (by decide)

/-- What starts with a plain run starts with no slash. -/
theorem head?_plain {name : List Char} (hne : name ≠ []) (hplain : ∀ c ∈ name, isPlain c = true)
    (cs : List Char) : (name ++ cs).head? ≠ some '/' := by
  cases name with
  | nil => exact absurd rfl hne
  | cons c name =>
    intro hslash
    have hc := hplain c (List.mem_cons_self ..)
    rw [Option.some.inj hslash] at hc
    exact absurd hc (by decide)

/-- **After lower-casing tags every tag is small.** -/
theorem tagsLow_lowerTags (cs : List Char) : TagsLow (lowerTags cs) := by
  have hletter : ∀ c, isAsciiLetter c = true → isNameChar c = true :=
    fun c => isNameChar_of_isAsciiLetter
  fun_induction lowerTags cs with
  | case1 => trivial
  | case2 c hc more named ih =>
    have hplain := isPlain_lowerNameAt hletter more
    refine ⟨fun _ => small_nameAt hletter (head?_lowerTags _), fun he => absurd he (by decide), ?_⟩
    exact ih.append fun d hd => ne_bracket_of_isPlain (hplain d hd)
  | case3 c hc more hmore named ih =>
    have hplain := isPlain_lowerNameAt hletter more
    -- The bracket still opens no closing tag: lower-casing puts no slash behind it.
    have hhead : (named.1 ++ lowerTags named.2).head? ≠ some '/' := by
      by_cases hname : named.1 = []
      · obtain ⟨hlower, hsplit⟩ := lowerNameAt_eq isAsciiLetter more
        have hnone : nameAt isAsciiLetter more = [] := by
          by_contra hne
          exact lowerFrom_ne_nil hne (hlower.symm.trans hname)
        rw [hnone, List.nil_append] at hsplit
        rw [hname, List.nil_append, head?_lowerTags, show named.2 = more from hsplit.symm]
        intro hslash
        cases more with
        | nil => exact absurd hslash (by simp)
        | cons d rest => exact hmore rest (by rw [Option.some.inj hslash])
      · exact head?_plain hname hplain _
    refine ⟨fun _ => ?_, ?_⟩
    · rw [List.append_eq, tagName_of_head? hhead]
      exact small_nameAt hletter (head?_lowerTags _)
    · exact ih.append fun d hd => ne_bracket_of_isPlain (hplain d hd)
  | case4 c rest hc ih => exact ⟨fun he => absurd (beq_iff_eq.mpr he) hc, ih⟩

/-! ## Attributes -/

/-- Every attribute that is assigned has a name of small characters. -/
def NamesLow : List Char → Prop
  | [] => True
  | c :: rest =>
    (opensName c = true → ∀ name after, assignedName? rest = some (name, after) →
      ∀ d ∈ name, isSmall d = true) ∧ NamesLow rest

theorem NamesLow.of_append {cs : List Char} :
    ∀ before : List Char, NamesLow (before ++ cs) → NamesLow cs := by
  intro before
  induction before with
  | nil => intro h; exact h
  | cons c before ih => intro h; exact ih h.2

/-- What opens no name adds no attributes. -/
theorem NamesLow.append {before cs : List Char} (hbefore : ∀ c ∈ before, opensName c = false)
    (h : NamesLow cs) : NamesLow (before ++ cs) := by
  induction before with
  | nil => exact h
  | cons c before ih =>
    refine ⟨fun hc => ?_, ih fun d hd => hbefore d (List.mem_cons_of_mem _ hd)⟩
    exact absurd hc (by simp [hbefore c (List.mem_cons_self ..)])

/-- What is plain opens no name. -/
theorem opensName_of_isPlain {c : Char} (h : isPlain c = true) : opensName c = false := by
  cases ho : opensName c with
  | false => rfl
  | true =>
    obtain ⟨hblank, -⟩ := isPlain_cases h
    simp only [opensName, hblank, Bool.false_or, Bool.or_eq_true, beq_iff_eq] at ho
    rcases ho with (rfl | rfl) | rfl
    all_goals exact absurd h (by decide)

/-- A text whose assigned names are small is left alone. -/
theorem lowerNames_of_namesLow (cs : List Char) (h : NamesLow cs) : lowerNames cs = cs := by
  fun_induction lowerNames cs with
  | case1 => rfl
  | case2 c rest hc name after hassigned ih =>
    have hsmall := h.1 hc name after hassigned
    obtain ⟨hsplit, -⟩ := assignedName?_eq_some hassigned
    have hafter : NamesLow after := NamesLow.of_append name (hsplit ▸ h.2)
    have hlower : lower (c :: name) = c :: name := by
      refine lower_of_small fun d hd => ?_
      rcases List.mem_cons.mp hd with rfl | hd
      · exact isSmall_of_opensName hc
      · exact hsmall d hd
    rw [hlower, ih hafter, List.cons_append, ← hsplit]
  | case3 c rest hc hnone ih => rw [ih h.2]
  | case4 c rest hc ih => rw [ih h.2]

/-- Lower-casing attribute names changes nothing before the first character that opens a name. -/
theorem lowerNames_cons {c : Char} (hc : opensName c = false) (rest : List Char) :
    lowerNames (c :: rest) = c :: lowerNames rest := by
  rw [lowerNames, if_neg (by simp [hc])]

/-- Lower-casing attribute names keeps the first character. -/
theorem head?_lowerNames (cs : List Char) : (lowerNames cs).head? = cs.head? := by
  fun_cases lowerNames cs with
  | case1 => rfl
  | case2 c rest hc name after hassigned =>
    obtain ⟨afterCased, hlower⟩ := lower_cons_small (isSmall_of_opensName hc) name
    rw [hlower]
    rfl
  | case3 c rest hc hnone => rfl
  | case4 c rest hc => rfl

/-- Lower-casing attribute names changes no run of characters of a name at the start of a text. -/
theorem takeWhile_dropWhile_lowerNames (cs : List Char) :
    (lowerNames cs).takeWhile isNameChar = cs.takeWhile isNameChar ∧
      (lowerNames cs).dropWhile isNameChar = lowerNames (cs.dropWhile isNameChar) := by
  induction cs with
  | nil => simp [lowerNames]
  | cons c rest ih =>
    cases hc : isNameChar c with
    | true =>
      have hopen := opensName_of_isPlain (isPlain_of_isNameChar hc)
      rw [lowerNames_cons hopen, List.takeWhile_cons_of_pos hc, List.takeWhile_cons_of_pos hc,
        List.dropWhile_cons_of_pos hc, List.dropWhile_cons_of_pos hc, ih.1, ih.2]
      exact ⟨rfl, rfl⟩
    | false =>
      have hneg : ¬ isNameChar c = true := by simp [hc]
      -- The run ends at once, and it still does, since the pass keeps the first character.
      obtain ⟨more, hmore⟩ : ∃ more, lowerNames (c :: rest) = c :: more := by
        have hhead := head?_lowerNames (c :: rest)
        cases hlow : lowerNames (c :: rest) with
        | nil => rw [hlow] at hhead; exact absurd hhead (by simp)
        | cons d more => rw [hlow] at hhead; exact ⟨more, by rw [Option.some.inj hhead]⟩
      rw [List.takeWhile_cons_of_neg hneg, List.dropWhile_cons_of_neg hneg, hmore,
        List.takeWhile_cons_of_neg hneg, List.dropWhile_cons_of_neg hneg]
      exact ⟨rfl, rfl⟩

/-- A first character of a name opens no name. -/
theorem isNameChar_of_isNameStart {c : Char} (h : isNameStart c = true) : isNameChar c = true := by
  simp only [isNameStart, Bool.or_eq_true, beq_iff_eq] at h
  rcases h with (hletter | rfl) | rfl
  · exact isNameChar_of_isAsciiLetter hletter
  all_goals decide

/-- Lower-casing attribute names changes no name at the start of a text. -/
theorem nameAt_lowerNames {isFirst : Char → Bool}
    (hfirst : ∀ c, isFirst c = true → isNameChar c = true) (cs : List Char) :
    nameAt isFirst (lowerNames cs) = nameAt isFirst cs := by
  cases cs with
  | nil => simp [lowerNames]
  | cons c rest =>
    cases hc : isFirst c with
    | true =>
      have hopen := opensName_of_isPlain (isPlain_of_isNameChar (hfirst c hc))
      rw [lowerNames_cons hopen, nameAt, nameAt, if_pos hc, if_pos hc,
        (takeWhile_dropWhile_lowerNames rest).1]
    | false =>
      have hnone : nameAt isFirst (c :: rest) = [] := by rw [nameAt, if_neg (by simp [hc])]
      rw [hnone, nameAt_eq_nil, head?_lowerNames]
      exact nameAt_eq_nil.mp hnone

theorem tagName_lowerNames (cs : List Char) : tagName (lowerNames cs) = tagName cs := by
  have hletter : ∀ c, isAsciiLetter c = true → isNameChar c = true :=
    fun c => isNameChar_of_isAsciiLetter
  by_cases hslash : cs.head? = some '/'
  · cases cs with
    | nil => exact absurd hslash (by simp)
    | cons c rest =>
      obtain rfl : c = '/' := Option.some.inj hslash
      rw [lowerNames_cons (by decide)]
      exact nameAt_lowerNames hletter rest
  · rw [tagName_of_head? hslash, tagName_of_head? (by rw [head?_lowerNames]; exact hslash),
      nameAt_lowerNames hletter]

/-- Lower-casing attribute names assigns no name that was not assigned. -/
theorem assignedName?_lowerNames {cs : List Char} (h : assignedName? cs = none) :
    assignedName? (lowerNames cs) = none := by
  cases cs with
  | nil => simp [lowerNames, assignedName?]
  | cons c rest =>
    cases hc : isNameStart c with
    | true =>
      have hopen := opensName_of_isPlain (isPlain_of_isNameChar (isNameChar_of_isNameStart hc))
      have hhead := head?_lowerNames (rest.dropWhile isNameChar)
      simp only [assignedName?, hc, if_true] at h
      rw [lowerNames_cons hopen]
      simp only [assignedName?, hc, if_true]
      rw [(takeWhile_dropWhile_lowerNames rest).2]
      split
      -- An equals sign behind the name afterwards was there before.
      next more hmore =>
        rw [hmore] at hhead
        split at h
        next => exact absurd h (by simp)
        next hno =>
          cases hrest : rest.dropWhile isNameChar with
          | nil => rw [hrest] at hhead; exact absurd hhead (by simp)
          | cons d after =>
            rw [hrest] at hhead
            exact absurd hrest (hno after ∘ fun he => by rw [he, ← Option.some.inj hhead])
      next => rfl
    | false =>
      have hhead := head?_lowerNames (c :: rest)
      cases hlow : lowerNames (c :: rest) with
      | nil => rfl
      | cons d more =>
        rw [hlow] at hhead
        obtain rfl : d = c := Option.some.inj hhead
        simp [assignedName?, hc]

/-- What follows an assigned name starts with an equals sign, which belongs to no name. -/
theorem not_isNameChar_assigned {rest name after : List Char}
    (h : assignedName? rest = some (name, after)) :
    ∀ d, (lowerNames after).head? = some d → isNameChar d = false := by
  obtain ⟨-, -, -, more, rfl⟩ := assignedName?_eq_some h
  intro d hd
  rw [head?_lowerNames] at hd
  rw [← Option.some.inj hd]
  decide

theorem assignedName?_eq_nameAt {cs name after : List Char}
    (h : assignedName? cs = some (name, after)) : name = nameAt isNameStart cs := by
  cases cs with
  | nil => simp [assignedName?] at h
  | cons c rest =>
    simp only [assignedName?] at h
    rw [nameAt]
    split at h
    next hc =>
      rw [if_pos hc]
      split at h
      next => exact (congrArg Prod.fst (Option.some.inj h)).symm
      next => simp at h
    next => simp at h

/-- **After lower-casing attribute names every assigned name is small.** -/
theorem namesLow_lowerNames (cs : List Char) : NamesLow (lowerNames cs) := by
  fun_induction lowerNames cs with
  | case1 => trivial
  | case2 c rest hc name after hassigned ih =>
    obtain ⟨-, hne, hname, -⟩ := assignedName?_eq_some hassigned
    obtain ⟨afterCased, hlower⟩ := lower_cons_small (isSmall_of_opensName hc) name
    have hplain := fun d (hd : d ∈ lowerFrom afterCased name) => isPlain_of_mem_lowerFrom hname hd
    have hend := not_isNameChar_assigned hassigned
    rw [hlower, List.cons_append]
    refine ⟨fun _ found more hfound d hd => ?_,
      ih.append fun d hd => opensName_of_isPlain (hplain d hd)⟩
    -- What is assigned afterwards begins with part of the lower case of the old name.
    rw [assignedName?_eq_nameAt hfound] at hd
    exact isSmall_of_mem_lowerFrom (mem_nameAt_append (fun e => isNameChar_of_isNameStart) hend hd)
  | case3 c rest hc hnone ih =>
    refine ⟨fun _ name after hassigned => ?_, ih⟩
    rw [assignedName?_lowerNames hnone] at hassigned
    exact absurd hassigned (by simp)
  | case4 c rest hc ih => exact ⟨fun he => absurd he hc, ih⟩

/-- **Lower-casing attribute names keeps tags small.** -/
theorem TagsLow.lowerNames {cs : List Char} (h : TagsLow cs) : TagsLow (lowerNames cs) := by
  fun_induction Fragment.lowerNames cs with
  | case1 => trivial
  | case2 c rest hc name after hassigned ih =>
    obtain ⟨hsplit, hne, hname, -⟩ := assignedName?_eq_some hassigned
    obtain ⟨afterCased, hlower⟩ := lower_cons_small (isSmall_of_opensName hc) name
    have hplain := fun d (hd : d ∈ lowerFrom afterCased name) => isPlain_of_mem_lowerFrom hname hd
    rw [hlower, List.cons_append]
    refine ⟨fun _ d hd => ?_, ?_⟩
    · rw [tagName_of_head? (head?_plain (lowerFrom_ne_nil hne) hplain _)] at hd
      exact isSmall_of_mem_lowerFrom (mem_nameAt_append (fun e => isNameChar_of_isAsciiLetter)
        (not_isNameChar_assigned hassigned) hd)
    · exact (ih (TagsLow.of_append name (hsplit ▸ h.2))).append
        fun d hd => ne_bracket_of_isPlain (hplain d hd)
  | case3 c rest hc hnone ih => exact ⟨fun he => tagName_lowerNames rest ▸ h.1 he, ih h.2⟩
  | case4 c rest hc ih => exact ⟨fun he => absurd (by rw [he]; decide) hc, ih h.2⟩

end Mooring.Fragment
