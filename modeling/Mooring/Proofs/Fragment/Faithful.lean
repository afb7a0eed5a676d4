import Mooring.Proofs.Fragment.Canonical
import Mooring.Proofs.Text.Finding

/-!
# The canonical form keeps the content

What an element says in the value of its attribute and in its text can be read off its canonical
form, up to blanks (`canonical_faithful`).  Each pass works on its own on what stands to both sides
of a character that it cannot look across: `requoteFrom_append_text`, `settle_append`,
`lowerTags_append`, `lowerNames_append`.  So a canonical form is cut at the quotes and brackets of
the element, and the value and the text are what stands between them (`canonicalText_element`).

The passes know names and quotes by what stands beside them, not by where they stand.  What looks
like an attribute inside a value or a text is treated as one, and then more than blanks is lost
(`canonical_confuses`).  `KeptValue` and `KeptText` say that nothing of the kind stands there.
-/

namespace Mooring.Fragment

open Mooring.Text

/-! ## Cutting a text for each pass -/

theorem nextQuote?_append_iff {rest : List Char} (h : nextQuote? rest ≠ some '\'') (cs : List Char) :
    nextQuote? (cs ++ rest) = some '\'' ↔ nextQuote? cs = some '\'' := by
  induction cs with
  | nil => simp [h, nextQuote?]
  | cons c cs ih =>
    cases hc : isQuote c with
    | true => simp [nextQuote?, hc]
    | false => rw [List.cons_append, nextQuote?_cons_other hc, nextQuote?_cons_other hc, ih]

/-- Whether a value opens is not decided behind a text without a single quote of its own. -/
theorem opensSingle_append {rest : List Char} (h : nextQuote? rest ≠ some '\'') (cs : List Char) :
    opensSingle (cs ++ rest) = opensSingle cs := by
  induction cs with
  | nil =>
    cases hopen : opensSingle rest with
    | false => rw [List.nil_append, hopen, opensSingle]
    | true => exact absurd (nextQuote?_of_opensSingle hopen) h
  | cons c cs ih =>
    cases hc : isBlank c with
    | true => rw [List.cons_append, opensSingle_cons_blank hc, opensSingle_cons_blank hc, ih]
    | false =>
      rw [List.cons_append, opensSingle_cons_solid hc, opensSingle_cons_solid hc, Bool.eq_iff_iff]
      simp [nextQuote?_append_iff h]

/-- **Requoting ends its values before a text whose next quote is not a single one.** -/
theorem requoteFrom_append_text {rest : List Char} (h : nextQuote? rest ≠ some '\'')
    (cs : List Char) : ∀ mode : QuoteMode, mode.Holds cs →
      requoteFrom mode (cs ++ rest) = requoteFrom mode cs ++ requoteFrom .text rest := by
  induction cs with
  | nil =>
    intro mode hmode
    cases mode with
    | text => rfl
    | opening => exact absurd hmode Bool.false_ne_true
    | value => exact absurd hmode (by simp [QuoteMode.Holds, nextQuote?])
  | cons c cs ih =>
    intro mode hmode
    have hnext : mode.next c (cs ++ rest) = mode.next c cs := by
      cases mode with
      | text => rw [QuoteMode.next, QuoteMode.next, opensSingle_append h]
      | opening => rfl
      | value => rfl
    rw [List.cons_append, requoteFrom, requoteFrom, hnext, ih _ (mode.holds_next hmode),
      List.cons_append]

theorem requote_append {rest : List Char} (h : nextQuote? rest ≠ some '\'') (cs : List Char) :
    requote (cs ++ rest) = requote cs ++ requote rest := by
  rw [← requoteFrom_text, ← requoteFrom_text, ← requoteFrom_text,
    requoteFrom_append_text h cs .text trivial]

theorem requote_cons {c : Char} (hc : c ≠ '=') (rest : List Char) :
    requote (c :: rest) = c :: requote rest := by
  rw [← requoteFrom_text, ← requoteFrom_text, requoteFrom, QuoteMode.write_text,
    QuoteMode.next_text_other hc]

theorem nextQuote?_of_not_mem {cs : List Char} (h : '\'' ∉ cs) : nextQuote? cs ≠ some '\'' := by
  intro hquote
  obtain ⟨value, after, rfl, -⟩ := nextQuote?_split hquote
  exact h (by simp)

theorem isBlank_of_isPunctuation {c : Char} (h : isPunctuation c = true) : isBlank c = false := by
  simp only [isPunctuation, Bool.or_eq_true, beq_iff_eq, or_assoc] at h
  rcases h with rfl | rfl | rfl | rfl | rfl | rfl | rfl | rfl | rfl | rfl | rfl <;> decide

theorem atEdge_append {c : Char} (hc : isPunctuation c = true) (cs rest : List Char) :
    atEdge (cs ++ c :: rest) = atEdge cs := by
  induction cs with
  | nil => rw [List.nil_append, atEdge_cons_solid (isBlank_of_isPunctuation hc), hc, atEdge]
  | cons d cs ih =>
    cases hd : isBlank d with
    | true => rw [List.cons_append, atEdge_cons_blank hd, atEdge_cons_blank hd, ih]
    | false => rw [List.cons_append, atEdge_cons_solid hd, atEdge_cons_solid hd]

/-- **Punctuation is an end and a start for the blanks around it.** -/
theorem settle_append {c : Char} (hc : isPunctuation c = true) (cs rest : List Char) :
    ∀ loose, settle loose (cs ++ c :: rest) = settle loose cs ++ c :: settle true rest := by
  induction cs with
  | nil =>
    intro loose
    rw [List.nil_append, settle_cons_solid (isBlank_of_isPunctuation hc), hc, settle_nil,
      List.nil_append]
  | cons d cs ih =>
    intro loose
    cases hd : isBlank d with
    | true =>
      rw [List.cons_append, settle_cons_blank hd, settle_cons_blank hd, atEdge_append hc, ih]
      split
      · rfl
      · rfl
    | false =>
      rw [List.cons_append, settle_cons_solid hd, settle_cons_solid hd, ih, List.cons_append]

/-- A run of characters ends where a character ends all runs. -/
theorem runs_append {p : Char → Bool} {stop : Char} (hstop : p stop = false)
    (cs rest : List Char) : (cs ++ stop :: rest).takeWhile p = cs.takeWhile p ∧
      (cs ++ stop :: rest).dropWhile p = cs.dropWhile p ++ stop :: rest := by
  induction cs with
  | nil => simp [hstop]
  | cons c cs ih =>
    cases hc : p c with
    | true => simpa [hc] using ih
    | false => simp [hc]

/-- A name at the start of a text ends where a character ends all names. -/
theorem lowerNameAt_append {stop : Char} (hstop : isNameChar stop = false) (cs rest : List Char) :
    lowerNameAt isAsciiLetter (cs ++ stop :: rest) =
      ((lowerNameAt isAsciiLetter cs).1, (lowerNameAt isAsciiLetter cs).2 ++ stop :: rest) := by
  cases cs with
  | nil =>
    have hnone : ¬ isAsciiLetter stop = true := fun h => by
      simp [isNameChar_of_isAsciiLetter h] at hstop
    rw [List.nil_append, lowerNameAt, if_neg hnone]
    rfl
  | cons c cs =>
    obtain ⟨htake, hdrop⟩ := runs_append hstop cs rest
    rw [List.cons_append, lowerNameAt, lowerNameAt, htake, hdrop]
    split <;> rfl

theorem lowerTags_cons {c : Char} (hc : c ≠ '<') (rest : List Char) :
    lowerTags (c :: rest) = c :: lowerTags rest := by
  rw [lowerTags.eq_def]
  exact if_neg (by simpa using hc)

theorem lowerTags_close (more : List Char) : lowerTags ('<' :: '/' :: more) =
    '<' :: '/' :: ((lowerNameAt isAsciiLetter more).1 ++
      lowerTags (lowerNameAt isAsciiLetter more).2) := by
  rw [lowerTags.eq_def]
  rfl

theorem lowerTags_open {more : List Char} (h : more.head? ≠ some '/') : lowerTags ('<' :: more) =
    '<' :: ((lowerNameAt isAsciiLetter more).1 ++ lowerTags (lowerNameAt isAsciiLetter more).2) := by
  rw [lowerTags.eq_def]
  dsimp only
  rw [if_pos (by decide)]
  split
  next rest => exact absurd rfl h
  next => rfl

/-- **The names of tags are lower-cased on their own** on both sides of a character that ends
names. -/
theorem lowerTags_append {stop : Char} (hstop : isNameChar stop = false) (hslash : stop ≠ '/')
    (cs rest : List Char) :
    lowerTags (cs ++ stop :: rest) = lowerTags cs ++ lowerTags (stop :: rest) := by
  fun_induction lowerTags cs with
  | case1 => rfl
  | case2 c hc more named ih =>
    obtain rfl := beq_iff_eq.mp hc
    have hname := lowerNameAt_append hstop more rest
    rw [List.cons_append, List.cons_append, lowerTags_close, hname, ih]
    simp [named]
  | case3 c hc more hmore named ih =>
    obtain rfl := beq_iff_eq.mp hc
    have hname := lowerNameAt_append hstop more rest
    have hhead : (more ++ stop :: rest).head? ≠ some '/' := by
      cases more with
      | nil => simpa using hslash
      | cons d more => exact fun hd => hmore more (by rw [Option.some.inj hd])
    rw [List.cons_append, lowerTags_open hhead, hname, ih]
    simp [named]
  | case4 c cs hc ih =>
    rw [List.cons_append, lowerTags_cons (by simpa using hc), ih, List.cons_append]

/-- Without brackets, there are no tags. -/
theorem lowerTags_of_not_mem {cs : List Char} (h : '<' ∉ cs) : lowerTags cs = cs := by
  induction cs with
  | nil => rw [lowerTags]
  | cons c cs ih =>
    rw [lowerTags_cons (fun hc => h (hc ▸ List.mem_cons_self)),
      ih fun hmem => h (List.mem_cons_of_mem _ hmem)]

theorem assignedName?_cons (c : Char) (rest : List Char) : assignedName? (c :: rest) =
    if isNameStart c = true ∧ (rest.dropWhile isNameChar).head? = some '=' then
      some (c :: rest.takeWhile isNameChar, rest.dropWhile isNameChar)
    else none := by
  rw [assignedName?]
  cases isNameStart c with
  | false => simp
  | true =>
    cases rest.dropWhile isNameChar with
    | nil => simp
    | cons d after =>
      by_cases hd : d = '='
      · subst hd
        simp
      · rw [if_pos rfl, if_neg (by simpa using hd)]
        split
        next heq => exact absurd (List.cons.inj heq).1 hd
        next => rfl

/-- An assigned name ends where a character ends all names and assigns nothing. -/
theorem assignedName?_append {stop : Char} (hstop : isNameChar stop = false) (hequals : stop ≠ '=')
    (cs rest : List Char) : assignedName? (cs ++ stop :: rest) =
      (assignedName? cs).map fun (name, after) => (name, after ++ stop :: rest) := by
  cases cs with
  | nil =>
    have hnone : ¬ isNameStart stop = true := fun h => by
      simp [isNameChar_of_isNameStart h] at hstop
    rw [List.nil_append, assignedName?, if_neg hnone]
    rfl
  | cons c cs =>
    obtain ⟨htake, hdrop⟩ := runs_append hstop cs rest
    have hhead : (cs.dropWhile isNameChar ++ stop :: rest).head? = some '=' ↔
        (cs.dropWhile isNameChar).head? = some '=' := by
      cases cs.dropWhile isNameChar with
      | nil => simp [hequals]
      | cons d after => rfl
    rw [List.cons_append, assignedName?_cons, assignedName?_cons, htake, hdrop]
    simp only [hhead]
    split <;> rfl

theorem lowerNames_some {c : Char} (hc : opensName c = true) {rest name after : List Char}
    (h : assignedName? rest = some (name, after)) :
    lowerNames (c :: rest) = lower (c :: name) ++ lowerNames after := by
  rw [lowerNames.eq_def]
  dsimp only
  rw [if_pos hc]
  split
  next heq =>
    rw [h] at heq
    obtain ⟨rfl, rfl⟩ := Prod.mk.inj (Option.some.inj heq)
    rfl
  next heq => simp [h] at heq

theorem lowerNames_none {c : Char} {rest : List Char} (h : assignedName? rest = none) :
    lowerNames (c :: rest) = c :: lowerNames rest := by
  rw [lowerNames.eq_def]
  dsimp only
  split
  · split
    next heq => simp [h] at heq
    next => rfl
  · rfl

/-- **Assigned names are lower-cased on their own** on both sides of a character that ends names and
assigns nothing. -/
theorem lowerNames_append {stop : Char} (hstop : isNameChar stop = false) (hequals : stop ≠ '=')
    (cs rest : List Char) :
    lowerNames (cs ++ stop :: rest) = lowerNames cs ++ lowerNames (stop :: rest) := by
  fun_induction lowerNames cs with
  | case1 => rfl
  | case2 c cs hc name after hassigned ih =>
    have happend := assignedName?_append hstop hequals cs rest
    rw [hassigned] at happend
    rw [List.cons_append, lowerNames_some hc happend, ih, List.append_assoc]
  | case3 c cs hc hnone ih =>
    have happend := assignedName?_append hstop hequals cs rest
    rw [hnone] at happend
    rw [List.cons_append, lowerNames_none happend, ih, List.cons_append]
  | case4 c cs hc ih => rw [List.cons_append, lowerNames, if_neg hc, ih, List.cons_append]

/-! ## What the passes keep -/

/-- A single quote for either quote. -/
def singled (c : Char) : Char :=
  if c = '"' then '\'' else c

/-- Requoting changes nothing but the kind of quotes. -/
theorem map_singled_requoteFrom (cs : List Char) : ∀ mode : QuoteMode,
    (requoteFrom mode cs).map singled = cs.map singled := by
  induction cs with
  | nil => intro mode; rfl
  | cons c cs ih =>
    intro mode
    have hwrite : singled (mode.write c) = singled c := by
      rw [QuoteMode.write]
      split
      next h =>
        rw [h.2]
        rfl
      next => rfl
    rw [requoteFrom, List.map_cons, hwrite, ih, List.map_cons]

theorem map_singled_of_not_mem {cs : List Char} (h : '"' ∉ cs) : cs.map singled = cs := by
  have hself : ∀ c ∈ cs, singled c = id c := fun c hc =>
    if_neg fun heq => h (by rw [← heq]; exact hc)
  rw [List.map_congr_left hself, List.map_id]

/-- Settling changes nothing but blanks. -/
theorem filter_settle (cs : List Char) : ∀ loose,
    (settle loose cs).filter (!isBlank ·) = cs.filter (!isBlank ·) := by
  induction cs with
  | nil => intro loose; rfl
  | cons c cs ih =>
    intro loose
    cases hc : isBlank c with
    | true =>
      have hspace : isBlank ' ' = true := by decide
      rw [settle_cons_blank hc]
      split
      · simp [hc, ih]
      · simp [hc, hspace, ih]
    | false =>
      rw [settle_cons_solid hc]
      simp [hc, ih]

theorem mem_of_mem_settle {loose : Bool} {cs : List Char} {c : Char} (hc : isBlank c = false)
    (h : c ∈ settle loose cs) : c ∈ cs := by
  have hsolid : c ∈ (settle loose cs).filter (!isBlank ·) := List.mem_filter.mpr ⟨h, by simp [hc]⟩
  rw [filter_settle] at hsolid
  exact (List.mem_filter.mp hsolid).1

theorem mem_of_mem_requote {cs : List Char} {c : Char} (hc : isQuote c = false)
    (h : c ∈ requote cs) : c ∈ cs := by
  have hself : ∀ d, singled d = c → d = c := by
    intro d hd
    rw [singled] at hd
    split at hd
    · rw [← hd] at hc
      exact absurd hc (by decide)
    · exact hd
  have hsame : singled c = c := if_neg fun heq => by rw [heq] at hc; exact absurd hc (by decide)
  have hmem := List.mem_map_of_mem (f := singled) h
  rw [← requoteFrom_text, map_singled_requoteFrom, hsame] at hmem
  obtain ⟨d, hd, heq⟩ := List.mem_map.mp hmem
  exact hself d heq ▸ hd

/-- Without equals signs, no name is assigned. -/
theorem namesLow_of_not_mem {cs : List Char} (h : '=' ∉ cs) : NamesLow cs := by
  induction cs with
  | nil => trivial
  | cons c cs ih =>
    refine ⟨fun _ name after hassigned => ?_, ih fun hmem => h (List.mem_cons_of_mem _ hmem)⟩
    obtain ⟨rfl, -, -, rest, rfl⟩ := assignedName?_eq_some hassigned
    exact absurd (by simp) h

/-! ## The content of an element -/

/-- The source of an element with an attribute and a text. -/
def element (tag name value text : String) : String :=
  "<" ++ tag ++ " " ++ name ++ "=\"" ++ value ++ "\">" ++ text ++ "</" ++ tag ++ ">"

/-- A text without its blanks. -/
def solid (text : String) : List Char :=
  text.toList.filter (!isBlank ·)

/-- A value in double quotes that no pass takes for markup: once it is requoted and settled, it
assigns no name with a capital. -/
structure KeptValue (value : List Char) : Prop where
  quotes : '"' ∉ value
  brackets : '<' ∉ value ∧ '>' ∉ value
  names : NamesLow ('"' :: settle true (requote value))

/-- A text that no pass takes for markup: it opens no value in single quotes, and once it is settled,
it assigns no name with a capital. -/
structure KeptText (text : List Char) : Prop where
  brackets : '<' ∉ text
  quotes : Requoted text
  names : NamesLow (settle true text)

/-- A value without an equals sign is kept. -/
theorem KeptValue.of_not_mem {value : List Char} (hquotes : '"' ∉ value)
    (hbrackets : '<' ∉ value ∧ '>' ∉ value) (hequals : '=' ∉ value) : KeptValue value := by
  refine ⟨hquotes, hbrackets, namesLow_of_not_mem fun hmem => hequals ?_⟩
  rcases List.mem_cons.mp hmem with heq | hmem
  · exact absurd heq (by decide)
  · exact mem_of_mem_requote (by decide) (mem_of_mem_settle (by decide) hmem)

/-- A text without an equals sign is kept. -/
theorem KeptText.of_not_mem {text : List Char} (hbrackets : '<' ∉ text) (hequals : '=' ∉ text) :
    KeptText text := by
  have hquotes : Requoted text := by
    clear hbrackets
    induction text with
    | nil => trivial
    | cons c text ih =>
      exact ⟨fun heq => absurd (heq ▸ List.mem_cons_self) hequals,
        ih fun hmem => hequals (List.mem_cons_of_mem _ hmem)⟩
  exact ⟨hbrackets, hquotes,
    namesLow_of_not_mem fun hmem => hequals (mem_of_mem_settle (by decide) hmem)⟩

/-- What the passes that lower-case names leave of an element that is requoted and settled. -/
theorem lowerNames_element (opening closing : List Char) {value text : List Char}
    (hvalue : '<' ∉ value) (hvalueNames : NamesLow ('"' :: value)) (htext : '<' ∉ text)
    (htextNames : NamesLow text) :
    lowerNames (lowerTags (opening ++ '"' :: (value ++ '"' :: '>' :: (text ++ '<' :: closing)))) =
      lowerNames (lowerTags opening) ++ '"' :: (value ++ '"' :: '>' ::
        (text ++ lowerNames (lowerTags ('<' :: closing)))) := by
  have htags : lowerTags (opening ++ '"' :: (value ++ '"' :: '>' :: (text ++ '<' :: closing))) =
      lowerTags opening ++ '"' :: (value ++ '"' :: '>' ::
        (text ++ lowerTags ('<' :: closing))) := by
    rw [lowerTags_append (by decide) (by decide), lowerTags_cons (by decide),
      lowerTags_append (by decide) (by decide), lowerTags_of_not_mem hvalue,
      lowerTags_cons (by decide), lowerTags_cons (by decide),
      lowerTags_append (by decide) (by decide), lowerTags_of_not_mem htext]
  obtain ⟨close, hclose⟩ : ∃ close, lowerTags ('<' :: closing) = '<' :: close := by
    have hhead := head?_lowerTags ('<' :: closing)
    exact List.head?_eq_some_iff.mp hhead
  have hsplit : '"' :: (value ++ '"' :: '>' :: (text ++ '<' :: close)) =
      ('"' :: value) ++ '"' :: '>' :: (text ++ '<' :: close) := rfl
  rw [htags, hclose, lowerNames_append (by decide) (by decide), hsplit,
    lowerNames_append (by decide) (by decide), lowerNames_of_namesLow _ hvalueNames,
    lowerNames_none (c := '"') rfl, lowerNames_cons (c := '>') (by decide),
    lowerNames_append (by decide) (by decide), lowerNames_of_namesLow _ htextNames]
  rfl

/-- **The canonical form of an element** has the settled value between the quotes of the attribute
and the settled text behind the start tag.  Nothing else in it depends on them. -/
theorem canonicalText_element (opening : List Char) {closing : List Char}
    (hclosing : '\'' ∉ closing) : ∃ lead close, close.head? = some '<' ∧ ∀ {value text},
      KeptValue value → KeptText text →
        canonicalText (opening ++ '"' :: (value ++ '"' :: '>' :: (text ++ '<' :: closing))) =
          lead ++ '"' :: (settle true (requote value) ++ '"' :: '>' ::
            (settle true text ++ close)) := by
  refine ⟨lowerNames (lowerTags (settle true (requote opening))),
    lowerNames (lowerTags ('<' :: settle true (requote closing))), ?_, ?_⟩
  · rw [head?_lowerNames, head?_lowerTags, List.head?_cons]
  intro value text hvalue htext
  have hquotes : requote (opening ++ '"' :: (value ++ '"' :: '>' :: (text ++ '<' :: closing))) =
      requote opening ++ '"' :: (requote value ++ '"' :: '>' ::
        (text ++ '<' :: requote closing)) := by
    have htail : nextQuote? ('<' :: closing) ≠ some '\'' :=
      nextQuote?_of_not_mem (List.not_mem_cons_of_ne_of_not_mem (by decide) hclosing)
    have hdouble : ∀ rest, nextQuote? ('"' :: rest) ≠ some '\'' := fun rest h =>
      absurd (Option.some.inj h) (by decide)
    have hsame : requote text = text := by
      rw [← requoteFrom_text, requoteFrom_of_requoted htext.quotes]
    rw [requote_append (hdouble _), requote_cons (by decide), requote_append (hdouble _),
      requote_cons (by decide), requote_cons (by decide), requote_append htail, hsame,
      requote_cons (by decide)]
  have hblanks : settle true (requote opening ++ '"' :: (requote value ++ '"' :: '>' ::
      (text ++ '<' :: requote closing))) =
      settle true (requote opening) ++ '"' :: (settle true (requote value) ++ '"' :: '>' ::
        (settle true text ++ '<' :: settle true (requote closing))) := by
    rw [settle_append (by decide), settle_append (by decide),
      settle_cons_solid (c := '>') (by decide), settle_append (by decide)]
    rfl
  have hvalueOpen : '<' ∉ settle true (requote value) := fun hmem =>
    hvalue.brackets.1 (mem_of_mem_requote (by decide) (mem_of_mem_settle (by decide) hmem))
  have htextOpen : '<' ∉ settle true text := fun hmem =>
    htext.brackets (mem_of_mem_settle (by decide) hmem)
  rw [canonicalText, hquotes, hblanks,
    lowerNames_element _ _ hvalueOpen hvalue.names htextOpen htext.names]

/-- A value is what the settled, requoted value is, up to blanks. -/
theorem KeptValue.solid_eq {value : List Char} (h : KeptValue value) :
    ((settle true (requote value)).filter (!isBlank ·)).map singled =
      value.filter (!isBlank ·) := by
  have hsingled : ∀ c, isBlank (singled c) = isBlank c := by
    intro c
    rw [singled]
    split
    next hc =>
      rw [hc]
      decide
    next => rfl
  have hmap := map_singled_requoteFrom value .text
  rw [requoteFrom_text, map_singled_of_not_mem h.quotes] at hmap
  have hfilter : ((requote value).filter (!isBlank ·)).map singled =
      ((requote value).map singled).filter (!isBlank ·) := by
    rw [List.filter_map]
    congr 1
    refine List.filter_congr fun c _ => ?_
    simp [hsingled]
  rw [filter_settle, hfilter, hmap]

/-- **The canonical form is faithful.**  Elements with the same tag and the same attribute have the
same canonical form only if their values and their texts agree up to blanks, so far as no pass takes
anything in them for markup. -/
theorem canonical_faithful {tag name value value' text text' : String} (htag : '\'' ∉ tag.toList)
    (hvalue : KeptValue value.toList) (hvalue' : KeptValue value'.toList)
    (htext : KeptText text.toList) (htext' : KeptText text'.toList)
    (h : canonical (element tag name value text) = canonical (element tag name value' text')) :
    solid value = solid value' ∧ solid text = solid text' := by
  have hclosing : '\'' ∉ '/' :: (tag.toList ++ ['>']) := by simp [htag]
  obtain ⟨lead, close, hclose, hform⟩ := canonicalText_element
    ('<' :: (tag.toList ++ ' ' :: (name.toList ++ ['=']))) hclosing
  have hchars : ∀ value text : String, (element tag name value text).toList =
      ('<' :: (tag.toList ++ ' ' :: (name.toList ++ ['=']))) ++ '"' :: (value.toList ++
        '"' :: '>' :: (text.toList ++ '<' :: '/' :: (tag.toList ++ ['>']))) := by
    intro value text
    simp [element]
  obtain ⟨rest, rfl⟩ := List.head?_eq_some_iff.mp hclose
  rw [canonical_eq, canonical_eq, hchars, hchars, hform hvalue htext, hform hvalue' htext',
    String.ofList_inj, List.append_cancel_left_eq, List.cons_inj_right] at h
  -- The value ends where the start tag does, and the text where the end tag begins.
  have hends : ∀ {value : String}, KeptValue value.toList →
      '>' ∉ settle true (requote value.toList) ++ ['"'] := by
    intro value hvalue hmem
    rcases List.mem_append.mp hmem with hmem | hmem
    · exact hvalue.brackets.2 (mem_of_mem_requote (by decide) (mem_of_mem_settle (by decide) hmem))
    · exact absurd hmem (by decide)
  have hbegins : ∀ {text : String}, KeptText text.toList → '<' ∉ settle true text.toList :=
    fun htext hmem => htext.brackets (mem_of_mem_settle (by decide) hmem)
  have hquoted : ∀ cs more : List Char, cs ++ '"' :: '>' :: more = (cs ++ ['"']) ++ '>' :: more :=
    fun cs more => by simp
  rw [hquoted, hquoted] at h
  obtain ⟨hstart, hbehind⟩ := eq_of_append_cons (hends hvalue) (hends hvalue') h
  obtain ⟨hsettled, -⟩ := eq_of_append_cons (hbegins htext) (hbegins htext') hbehind
  constructor
  · rw [solid, solid, ← hvalue.solid_eq, ← hvalue'.solid_eq, (List.append_left_inj _).mp hstart]
  · rw [solid, solid, ← filter_settle text.toList true, hsettled, filter_settle]

/-- Blanks are what two elements with the same canonical form may differ in. -/
theorem canonical_faithful_spaced :
    canonical (element "p" "title" "Pay  now" "It's due.") =
        canonical (element "p" "title" "Pay now" " It's\tdue.") ∧
      solid "Pay  now" = solid "Pay now" ∧ solid "It's due." = solid " It's\tdue." := by
  have hsame : canonical (element "p" "title" "Pay  now" "It's due.") =
      canonical (element "p" "title" "Pay now" " It's\tdue.") := by
    decide +kernel
  exact ⟨hsame, canonical_faithful (by decide)
    (.of_not_mem (by decide) (by decide) (by decide))
    (.of_not_mem (by decide) (by decide) (by decide))
    (.of_not_mem (by decide) (by decide)) (.of_not_mem (by decide) (by decide)) hsame⟩

/-! ## Content that is taken for markup -/

/-- **Not every difference is kept.**  A quoted word behind an equals sign is requoted in a text
too. -/
theorem canonical_confuses : ¬ ∀ tag name value value' text text' : String,
    (∀ c ∈ ['"', '<', '>'], c ∉ value.toList ∧ c ∉ value'.toList) →
    (∀ c ∈ ['<', '>'], c ∉ text.toList ∧ c ∉ text'.toList) →
    canonical (element tag name value text) = canonical (element tag name value' text') →
    solid value = solid value' ∧ solid text = solid text' := by
  intro h
  have hsame : canonical (element "p" "title" "Pay" "Set x='y'") =
      canonical (element "p" "title" "Pay" "Set x=\"y\"") := by
    decide +kernel
  obtain ⟨-, htext⟩ := h "p" "title" "Pay" "Pay" "Set x='y'" "Set x=\"y\"" (by simp) (by simp)
    hsame
  exact absurd htext (by decide)

end Mooring.Fragment
