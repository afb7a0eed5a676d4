import Mathlib.Data.List.Forall2
import Mooring.Proofs.Fragment.Words

/-!
# Start tags, and the letter case of their names

Two start tags have the same frame if they differ in nothing but the names of the tag and of the
attributes.  `canonical_recased` says when they have the same canonical form: when the tags' names
agree in lower case and the attributes' names agree as they are kept.  A name is kept in lower case
if it is recognised, and else as it is written.  `Attribute.recognised` spells out what that takes:
the attribute is given a value, the name is one that `assignedName?` knows, and the value before it
leaves something that opens a name.

So the case of names does not matter in a tag all of whose names are recognised, and it does matter
where one is not (`canonical_recased_unrecognised`): a name without a value is never recognised, and
neither is one behind a bare value that ends in a slash, because the blank between them goes before
names are looked for.

What the passes leave between two names depends on the frame alone (`exists_stop`), so they are
followed from one attribute to the next (`finish_attribute`), and from the whole the names can be
read off again (`finish_attributes`).
-/

namespace Mooring.Fragment

open Mooring.Text

/-! ## Start tags and their frames -/

/-- A character of a value that stands without marks. -/
def isBare (c : Char) : Bool :=
  !isBlank c && !isQuote c && c != '<' && c != '>' && c != '='

/-- A value as it is written.  Between the marks of the three marked forms any text may stand. -/
inductive Value
  | double (text : List Char)
  | single (text : List Char)
  | braced (text : List Char)
  | bare (text : List Char) (nonempty : text ≠ []) (bare : ∀ c ∈ text, isBare c = true)

namespace Value

/-- The last character of a value. -/
def last : Value → Char
  | double _ => '"'
  | single _ => '\''
  | braced _ => '\x7d'
  | bare text nonempty _ => text.getLast nonempty

/-- What stands before the last character. -/
def front : Value → List Char
  | double text => '"' :: text
  | single text => '\'' :: text
  | braced text => '\x7b' :: text
  | bare text _ _ => text.dropLast

/-- The source of a value. -/
def source (v : Value) : List Char :=
  v.front ++ [v.last]

end Value

/-- An equals sign and a value, with the blanks before and after the sign. -/
structure Assignment where
  before : List Char
  after : List Char
  value : Value
  before_blank : ∀ c ∈ before, isBlank c = true
  after_blank : ∀ c ∈ after, isBlank c = true

/-- The source of what follows the name of an attribute. -/
def assignedSource : Option Assignment → List Char
  | none => []
  | some a => a.before ++ '=' :: (a.after ++ a.value.source)

/-- An attribute with the blanks before it.  No blank, quote or markup punctuation stands in its
name. -/
structure Attribute where
  gap : List Char
  name : List Char
  assigned : Option Assignment
  gap_ne : gap ≠ []
  gap_blank : ∀ c ∈ gap, isBlank c = true
  name_ne : name ≠ []
  name_plain : ∀ c ∈ name, isPlain c = true

/-- An attribute behind one space. -/
def Attribute.spaced (name : List Char) (assigned : Option Assignment) (name_ne : name ≠ [])
    (name_plain : ∀ c ∈ name, isPlain c = true) : Attribute :=
  ⟨[' '], name, assigned, by simp, List.forall_mem_singleton.mpr (by decide), name_ne, name_plain⟩

/-- The source of attributes. -/
def attributesSource : List Attribute → List Char
  | [] => []
  | a :: rest => a.gap ++ (a.name ++ (assignedSource a.assigned ++ attributesSource rest))

/-- The end of a start tag comes first, up to blanks. -/
def Closes (close : List Char) : Prop :=
  (close.dropWhile isBlank).head? = some '>' ∨ (close.dropWhile isBlank).head? = some '/'

/-- A start tag, and `close`, its end with whatever follows. -/
structure StartTag where
  tag : List Char
  attributes : List Attribute
  close : List Char
  tag_letter : tag.head?.any isAsciiLetter = true
  tag_named : ∀ c ∈ tag, isNameChar c = true
  closes : Closes close

def StartTag.source (t : StartTag) : String :=
  String.ofList ('<' :: (t.tag ++ (attributesSource t.attributes ++ t.close)))

/-- Two attributes differ in nothing but their names. -/
structure Attribute.SameFrame (a b : Attribute) : Prop where
  gap : a.gap = b.gap
  assigned : a.assigned = b.assigned

theorem Attribute.SameFrame.spaced {name name' : List Char} {assigned : Option Assignment}
    {ne ne' plain plain'} : (Attribute.spaced name assigned ne plain).SameFrame
      (Attribute.spaced name' assigned ne' plain') :=
  ⟨rfl, rfl⟩

/-- Two start tags differ in nothing but names. -/
structure StartTag.SameFrame (t u : StartTag) : Prop where
  attributes : List.Forall₂ Attribute.SameFrame t.attributes u.attributes
  close : t.close = u.close

/-! ## What becomes of a name -/

/-- A name can be recognised behind what is assigned.  A value that ends in punctuation takes the
blank after it away, and then that punctuation has to open the name. -/
def opensAfter : Option Assignment → Bool
  | none => true
  | some a => !isPunctuation a.value.last || opensName a.value.last

/-- The attribute's name is recognised, where `opens` says that the place allows it. -/
def Attribute.recognised (opens : Bool) (a : Attribute) : Bool :=
  opens && a.assigned.isSome && isAttributeName a.name

/-- The attribute's name as the canonical form has it. -/
def Attribute.kept (opens : Bool) (a : Attribute) : List Char :=
  if a.recognised opens then lower a.name else a.name

/-- The names of attributes as the canonical form has them. -/
def keptNames (opens : Bool) : List Attribute → List (List Char)
  | [] => []
  | a :: rest => a.kept opens :: keptNames (opensAfter a.assigned) rest

/-- Every attribute's name is recognised. -/
def AllRecognised (opens : Bool) : List Attribute → Prop
  | [] => True
  | a :: rest => a.recognised opens = true ∧ AllRecognised (opensAfter a.assigned) rest

/-- Names that are all recognised are all kept in lower case. -/
theorem keptNames_of_allRecognised :
    ∀ {as : List Attribute} {opens : Bool}, AllRecognised opens as →
      keptNames opens as = as.map (lower ·.name) := by
  intro as
  induction as with
  | nil => intro _ _; rfl
  | cons a as ih =>
    intro opens h
    rw [keptNames, Attribute.kept, if_pos h.1, ih h.2, List.map_cons]

/-! ## One attribute -/

theorem isBare_cases {c : Char} (h : isBare c = true) :
    isBlank c = false ∧ isQuote c = false ∧ c ≠ '<' ∧ c ≠ '>' ∧ c ≠ '=' := by
  simpa [isBare, and_assoc] using h

/-- The last character of a value is no blank, and only a bare value ends in a slash. -/
theorem Value.ending (v : Value) : isBlank v.last = false ∧ Ending v.front v.last := by
  cases v with
  | double text => exact ⟨rfl, .of_ne _ '"' (by decide)⟩
  | single text => exact ⟨rfl, .of_ne _ '\'' (by decide)⟩
  | braced text => exact ⟨rfl, .of_ne _ '\x7d' (by decide)⟩
  | bare text nonempty bare =>
    obtain ⟨hblank, -, hbracket, -, hequals⟩ := isBare_cases (bare _ (List.getLast_mem nonempty))
    refine ⟨hblank, hequals, hbracket, fun _ hmem => ?_⟩
    have htext : '<' ∈ text := (List.dropLast_sublist text).subset hmem
    exact absurd rfl (isBare_cases (bare _ htext)).2.2.1

/-- **A value and the blanks behind it are requoted without regard to the words that follow.** -/
theorem requoteFrom_assigned (a : Assignment) {gap : List Char}
    (hblank : ∀ c ∈ gap, isBlank c = true) (mode : QuoteMode) (cs : List Char) :
    ∃ front last mode', isBlank last = false ∧ Ending front last ∧
      (!isPunctuation last || opensName last) = opensAfter (some a) ∧ ∀ ds, Reworded cs ds →
        requoteFrom mode (assignedSource (some a) ++ (gap ++ ds)) =
          front ++ last :: (gap ++ requoteFrom mode' ds) := by
  obtain ⟨hsolid, hending⟩ := a.value.ending
  obtain ⟨front, mode₁, hfront, hrequote⟩ := requoteFrom_frame (a.value.last :: (gap ++ cs))
    (a.before ++ '=' :: (a.after ++ a.value.front)) mode
  have hwhole : ∀ ds, Reworded cs ds →
      requoteFrom mode (assignedSource (some a) ++ (gap ++ ds)) = front ++
        mode₁.write a.value.last ::
          (gap ++ requoteFrom (mode₁.next a.value.last (gap ++ cs)) ds) := by
    intro ds hds
    have hsource : assignedSource (some a) ++ (gap ++ ds) =
        (a.before ++ '=' :: (a.after ++ a.value.front)) ++ a.value.last :: (gap ++ ds) := by
      simp [assignedSource, Value.source]
    rw [hsource, hrequote _ (.keep _ (hds.append_left gap)), requoteFrom,
      QuoteMode.next_reworded (hds.append_left gap), requoteFrom_blanks hblank]
  rcases mode₁.write_cases a.value.last with hself | ⟨hsingle, hdouble⟩
  · rw [hself] at hwhole
    refine ⟨front, a.value.last, _, hsolid, ⟨hending.ne_equals, hending.ne_bracket,
      fun hslash hmem => ?_⟩, rfl, hwhole⟩
    -- The bracket would stand among blanks, be the equals sign, or stand in the value.
    have hback := (hfront _ hmem).resolve_right (by decide)
    simp only [List.mem_append, List.mem_cons] at hback
    rcases hback with hbefore | heq | hafter | hvalue
    · exact absurd (a.before_blank _ hbefore) (by decide)
    · exact absurd heq (by decide)
    · exact absurd (a.after_blank _ hafter) (by decide)
    · exact hending.slash hslash hvalue
  · rw [hdouble] at hwhole
    refine ⟨front, '"', _, rfl, .of_ne front '"' (by decide), ?_, hwhole⟩
    rw [opensAfter, hsingle]
    decide

/-- **A value and the blanks behind it settle without regard to the name that follows.**  The blanks
go if the value ends in punctuation. -/
theorem settle_assigned {front gap : List Char} {last : Char} (hsolid : isBlank last = false)
    (hending : Ending front last) (hgap : gap ≠ []) (hblank : ∀ c ∈ gap, isBlank c = true) :
    ∃ front' stop, Stop front' stop ∧ opensName stop = (!isPunctuation last || opensName last) ∧
      ∀ name rest, name ≠ [] → (∀ c ∈ name, isPlain c = true) →
        settle false (front ++ last :: (gap ++ (name ++ rest))) =
          front' ++ stop :: (name ++ settle false rest) := by
  obtain ⟨front', hfront, hsettle⟩ := settle_frame hsolid front false
  cases hpunct : isPunctuation last with
  | true =>
    refine ⟨front', last, ⟨⟨hending.ne_equals, hending.ne_bracket, fun hslash hmem => ?_⟩,
      Or.inr hpunct⟩, rfl, fun name rest hne hplain => ?_⟩
    · exact hending.slash hslash ((hfront _ hmem).resolve_right (by decide))
    · rw [hsettle, hpunct, settle_gap hgap hblank hne hplain]
      rfl
  | false =>
    refine ⟨front' ++ [last], ' ', .space _, rfl, fun name rest hne hplain => ?_⟩
    rw [hsettle, hpunct, settle_gap hgap hblank hne hplain]
    simp

/-- **Between two names**, requoting and settling leave the same text whatever the names are.  It
ends in a stop, and that opens a name where the place allows it. -/
theorem exists_stop (assigned : Option Assignment) {gap : List Char} (hgap : gap ≠ [])
    (hblank : ∀ c ∈ gap, isBlank c = true) (mode : QuoteMode) (cs : List Char) :
    ∃ front stop mode', Stop front stop ∧ opensName stop = opensAfter assigned ∧
      ∀ name ds, name ≠ [] → (∀ c ∈ name, isPlain c = true) → Reworded cs (name ++ ds) →
        settle false (requoteFrom mode (assignedSource assigned ++ (gap ++ (name ++ ds)))) =
          front ++ stop :: (name ++ settle false (requoteFrom mode' ds)) := by
  cases assigned with
  | none =>
    refine ⟨[], ' ', mode, .space [], rfl, fun name ds hne hplain _ => ?_⟩
    rw [assignedSource, List.nil_append, requoteFrom_blanks hblank, requoteFrom_plain hplain,
      settle_gap hgap hblank hne hplain]
    rfl
  | some a =>
    obtain ⟨front, last, mode', hsolid, hending, hopens, hrequote⟩ :=
      requoteFrom_assigned a hblank mode cs
    obtain ⟨front', stop, hstop, hstopOpens, hsettle⟩ :=
      settle_assigned hsolid hending hgap hblank
    refine ⟨front', stop, mode', hstop, hstopOpens.trans hopens, fun name ds hne hplain hcs => ?_⟩
    rw [hrequote _ hcs, requoteFrom_plain hplain, hsettle _ _ hne hplain]

/-- Blanks before punctuation go. -/
theorem exists_punctuation {blanks : List Char} (hblanks : ∀ d ∈ blanks, isBlank d = true)
    {c : Char} (hc : isPunctuation c = true) (mode : QuoteMode) (rest : List Char) :
    ∃ more, settle false (requoteFrom mode (blanks ++ c :: rest)) = c :: more := by
  have hloose : isLoose c = true := by rw [isLoose, hc, Bool.or_true]
  have hstarts : ∀ more, startsLoose (c :: more) = true := fun _ => hloose
  rw [requoteFrom_blanks hblanks, requoteFrom, mode.write_loose hloose,
    settle_blanks hblanks (Or.inr (hstarts _)), settle_cons_solid (isBlank_of_isPunctuation hc)]
  exact ⟨_, rfl⟩

/-- What follows a name starts with an equals sign if the name is assigned a value, and else with
something else that is not plain. -/
theorem exists_next (assigned : Option Assignment) (as : List Attribute) {close : List Char}
    (hclose : Closes close) (mode : QuoteMode) :
    ∃ next rest, settle false (requoteFrom mode (assignedSource assigned ++
      (attributesSource as ++ close))) = next :: rest ∧ isPlain next = false ∧
        (next == '=') = assigned.isSome := by
  cases assigned with
  | some a =>
    obtain ⟨rest, hrest⟩ := exists_punctuation a.before_blank (c := '=') (by decide) mode
      (a.after ++ a.value.source ++ (attributesSource as ++ close))
    refine ⟨'=', rest, ?_, rfl, rfl⟩
    rw [← hrest]
    simp [assignedSource]
  | none =>
    cases as with
    | nil =>
      have hend : ∀ c, (close.dropWhile isBlank).head? = some c → isPunctuation c = true →
          ∃ rest, settle false (requoteFrom mode close) = c :: rest := by
        intro c hhead hc
        obtain ⟨more, hmore⟩ := List.head?_eq_some_iff.mp hhead
        have hblanks : ∀ d ∈ close.takeWhile isBlank, isBlank d = true :=
          fun d => List.mem_takeWhile_imp
        have hrest := exists_punctuation hblanks hc mode more
        rwa [← hmore, List.takeWhile_append_dropWhile] at hrest
      rcases hclose with hhead | hhead
      · obtain ⟨rest, hrest⟩ := hend '>' hhead (by decide)
        exact ⟨'>', rest, hrest, rfl, rfl⟩
      · obtain ⟨rest, hrest⟩ := hend '/' hhead (by decide)
        exact ⟨'/', rest, hrest, rfl, rfl⟩
    | cons a as =>
      refine ⟨' ', a.name ++ settle false (requoteFrom mode
        (assignedSource a.assigned ++ (attributesSource as ++ close))), ?_, rfl, rfl⟩
      rw [assignedSource, attributesSource, List.nil_append, List.append_assoc, List.append_assoc,
        List.append_assoc, requoteFrom_blanks a.gap_blank, requoteFrom_plain a.name_plain,
        settle_gap a.gap_ne a.gap_blank a.name_ne a.name_plain]
      rfl

/-! ## The whole tag -/

/-- What all passes leave of the text behind a name, where requoting stands in `mode`. -/
def finish (mode : QuoteMode) (cs : List Char) : List Char :=
  lowerNames (lowerTags (settle false (requoteFrom mode cs)))

/-- What is left behind a name starts with something that is not plain. -/
theorem finish_next (assigned : Option Assignment) (as : List Attribute) {close : List Char}
    (hclose : Closes close) (mode : QuoteMode) :
    ∃ next rest, isPlain next = false ∧
      finish mode (assignedSource assigned ++ (attributesSource as ++ close)) = next :: rest := by
  obtain ⟨next, rest, hsettle, hplain, -⟩ := exists_next assigned as hclose mode
  have hhead : (finish mode (assignedSource assigned ++ (attributesSource as ++ close))).head? =
      some next := by
    rw [finish, head?_lowerNames, head?_lowerTags, hsettle, List.head?_cons]
  obtain ⟨more, hmore⟩ := List.head?_eq_some_iff.mp hhead
  exact ⟨next, more, hplain, hmore⟩

/-- **One attribute.**  What the passes leave in front of its name is the same for all attributes
with that frame, and so is what they do with the name. -/
theorem finish_attribute (assigned : Option Assignment) (a : Attribute) (as : List Attribute)
    {close : List Char} (hclose : Closes close) (mode : QuoteMode) :
    ∃ front mode', ∀ b bs, a.SameFrame b →
      Reworded (attributesSource as ++ close) (attributesSource bs ++ close) →
        finish mode (assignedSource assigned ++ (attributesSource (b :: bs) ++ close)) =
          front ++ (b.kept (opensAfter assigned) ++
            finish mode' (assignedSource b.assigned ++ (attributesSource bs ++ close))) := by
  obtain ⟨front, stop, mode', hstop, hopens, hsettle⟩ := exists_stop assigned a.gap_ne a.gap_blank
    mode (a.name ++ (assignedSource a.assigned ++ (attributesSource as ++ close)))
  refine ⟨lowerNames (lowerTags front) ++ [stop], mode', fun b bs hframe hbs => ?_⟩
  have hwords : Reworded (a.name ++ (assignedSource a.assigned ++ (attributesSource as ++ close)))
      (b.name ++ (assignedSource b.assigned ++ (attributesSource bs ++ close))) := by
    rw [hframe.assigned]
    exact .word a.name_ne b.name_ne a.name_plain b.name_plain (hbs.append_left _)
  have hsource : assignedSource assigned ++ (attributesSource (b :: bs) ++ close) =
      assignedSource assigned ++ (a.gap ++ (b.name ++
        (assignedSource b.assigned ++ (attributesSource bs ++ close)))) := by
    rw [hframe.gap]
    simp [attributesSource]
  obtain ⟨next, rest, hnext, hplain, hequals⟩ := exists_next b.assigned bs hclose mode'
  have hnone : '<' ∉ b.name := fun hmem => ne_bracket_of_isPlain (b.name_plain _ hmem) rfl
  obtain ⟨rest', hrest'⟩ := exists_lowerTags next rest
  rw [finish, finish, hsource, hsettle b.name _ b.name_ne b.name_plain hwords, hstop.lowerTags_eq,
    lowerTags_pass hnone, hnext, hrest', hstop.lowerNames_eq,
    lowerNames_word hstop.loose b.name_plain hplain, hopens, hequals]
  simp [Attribute.kept, Attribute.recognised]

/-- A name is plain as it is kept. -/
theorem Attribute.kept_plain (opens : Bool) (a : Attribute) :
    ∀ c ∈ a.kept opens, isPlain c = true := by
  intro c hc
  rw [kept] at hc
  split at hc
  next hrecognised =>
    rw [recognised, Bool.and_eq_true] at hrecognised
    exact isPlain_of_mem_lowerFrom (isNameChar_of_mem hrecognised.2) hc
  next => exact a.name_plain c hc

theorem reworded_attributes {as bs : List Attribute} (h : List.Forall₂ Attribute.SameFrame as bs)
    (close : List Char) :
    Reworded (attributesSource as ++ close) (attributesSource bs ++ close) := by
  induction h with
  | nil => exact .refl close
  | @cons a b as bs hab hrest ih =>
    have hwords := (Reworded.word a.name_ne b.name_ne a.name_plain b.name_plain
      (ih.append_left (assignedSource b.assigned))).append_left b.gap
    simpa [attributesSource, hab.gap, hab.assigned] using hwords

/-- **All attributes.**  Attributes with the same frame leave the same text behind a name exactly if
their names are kept alike. -/
theorem finish_attributes {close : List Char} (hclose : Closes close) {as bs : List Attribute}
    (h : List.Forall₂ Attribute.SameFrame as bs) :
    ∀ (assigned : Option Assignment) (mode : QuoteMode),
      finish mode (assignedSource assigned ++ (attributesSource as ++ close)) =
          finish mode (assignedSource assigned ++ (attributesSource bs ++ close)) ↔
        keptNames (opensAfter assigned) as = keptNames (opensAfter assigned) bs := by
  induction h with
  | nil => exact fun _ _ => ⟨fun _ => rfl, fun _ => rfl⟩
  | @cons a b as bs hab hrest ih =>
    intro assigned mode
    obtain ⟨front, mode', hattribute⟩ := finish_attribute assigned a as hclose mode
    obtain ⟨c, more, hc, hmore⟩ := finish_next a.assigned as hclose mode'
    obtain ⟨d, more', hd, hmore'⟩ := finish_next a.assigned bs hclose mode'
    rw [hattribute a as ⟨rfl, rfl⟩ (.refl _), hattribute b bs hab (reworded_attributes hrest close),
      List.append_cancel_left_eq, ← hab.assigned, hmore, hmore',
      append_plain_inj (a.kept_plain _) (b.kept_plain _) hc hd, ← hmore, ← hmore', ih, keptNames,
      keptNames, ← hab.assigned, List.cons.injEq]

theorem StartTag.tag_ne (t : StartTag) : t.tag ≠ [] := by
  intro hnil
  have hletter := t.tag_letter
  rw [hnil] at hletter
  exact Bool.false_ne_true hletter

theorem StartTag.lowerNameAt_tag (t : StartTag) :
    lowerNameAt isAsciiLetter t.tag = (lower t.tag, []) := by
  have hletter := t.tag_letter
  have hnamed := t.tag_named
  cases htag : t.tag with
  | nil => exact absurd htag t.tag_ne
  | cons c name =>
    rw [htag] at hletter hnamed
    have hname : ∀ d ∈ name, isNameChar d = true := fun d hd => hnamed d (List.mem_cons_of_mem c hd)
    rw [lowerNameAt, if_pos (by simpa using hletter), List.takeWhile_eq_self_iff.mpr hname,
      List.dropWhile_eq_nil_iff.mpr hname]

/-- **The canonical form of a start tag** has the tag's name in lower case, and then what is left of
the attributes. -/
theorem canonicalText_startTag (t : StartTag) : canonicalText t.source.toList =
    '<' :: (lower t.tag ++ finish .text (attributesSource t.attributes ++ t.close)) := by
  have hplain : ∀ c ∈ t.tag, isPlain c = true :=
    fun c hc => isPlain_of_isNameChar (t.tag_named c hc)
  obtain ⟨next, rest, hnext, hstop, hequals⟩ := exists_next none t.attributes t.closes .text
  rw [assignedSource, List.nil_append] at hnext
  obtain ⟨rest', hrest'⟩ := exists_lowerTags next rest
  have hsettled : settle true (requote t.source.toList) = '<' :: (t.tag ++ next :: rest) := by
    rw [StartTag.source, String.toList_ofList, requote_cons (by decide), ← requoteFrom_text,
      requoteFrom_plain hplain, settle_cons_solid (by decide), settle_plain t.tag_ne hplain, hnext]
  have htags : lowerTags ('<' :: (t.tag ++ next :: rest)) =
      '<' :: (lower t.tag ++ next :: rest') := by
    rw [lowerTags_open (head?_plain t.tag_ne hplain _), lowerNameAt_append (not_isNameChar hstop),
      t.lowerNameAt_tag, List.nil_append, hrest']
  have hlow : ∀ c ∈ lower t.tag, isPlain c = true := fun c => isPlain_of_mem_lowerFrom t.tag_named
  rw [canonicalText, hsettled, htags, lowerNames_word (Or.inr (by decide)) hlow hstop, hequals,
    finish, hnext, hrest']
  simp

/-- **Letter case of names.**  Start tags with the same frame have the same canonical form exactly
if the tags' names agree in lower case and the attributes' names are kept alike; and if all names
are recognised, exactly if all names agree in lower case. -/
theorem canonical_recased {t u : StartTag} (h : t.SameFrame u) :
    (canonical t.source = canonical u.source ↔
      lower t.tag = lower u.tag ∧ keptNames true t.attributes = keptNames true u.attributes) ∧
    (AllRecognised true t.attributes → AllRecognised true u.attributes →
      (canonical t.source = canonical u.source ↔
        lower t.tag = lower u.tag ∧
          t.attributes.map (lower ·.name) = u.attributes.map (lower ·.name))) := by
  have hkept : canonical t.source = canonical u.source ↔
      lower t.tag = lower u.tag ∧ keptNames true t.attributes = keptNames true u.attributes := by
    have hplain : ∀ s : StartTag, ∀ c ∈ lower s.tag, isPlain c = true :=
      fun s c => isPlain_of_mem_lowerFrom s.tag_named
    obtain ⟨c, more, hc, hmore⟩ := finish_next none t.attributes t.closes .text
    obtain ⟨d, more', hd, hmore'⟩ := finish_next none u.attributes t.closes .text
    have hattributes := finish_attributes t.closes h.attributes none .text
    rw [assignedSource, List.nil_append] at hmore
    rw [assignedSource, List.nil_append] at hmore'
    simp only [assignedSource, List.nil_append, opensAfter] at hattributes
    rw [canonical_eq, canonical_eq, String.ofList_inj, canonicalText_startTag,
      canonicalText_startTag, List.cons_inj_right, ← h.close, hmore, hmore',
      append_plain_inj (hplain t) (hplain u) hc hd, ← hmore, ← hmore', hattributes]
  refine ⟨hkept, fun ht hu => ?_⟩
  rw [hkept, keptNames_of_allRecognised ht, keptNames_of_allRecognised hu]

theorem canonical_recased_button : ∃ t u : StartTag, t.SameFrame u ∧
    t.source = "<BUTTON ID='Save' onClick=\x7bgo\x7d>" ∧
    u.source = "<button id='Save' onclick=\x7bgo\x7d>" ∧
    canonical t.source = canonical u.source := by
  let t : StartTag := ⟨"BUTTON".toList,
    [.spaced "ID".toList (some ⟨[], [], .single "Save".toList, by simp, by simp⟩) (by decide)
        (List.all_eq_true.mp (by decide)),
      .spaced "onClick".toList (some ⟨[], [], .braced "go".toList, by simp, by simp⟩) (by decide)
        (List.all_eq_true.mp (by decide))],
    ['>'], by decide, List.all_eq_true.mp (by decide), .inl (by decide)⟩
  let u : StartTag := ⟨"button".toList,
    [.spaced "id".toList (some ⟨[], [], .single "Save".toList, by simp, by simp⟩) (by decide)
        (List.all_eq_true.mp (by decide)),
      .spaced "onclick".toList (some ⟨[], [], .braced "go".toList, by simp, by simp⟩) (by decide)
        (List.all_eq_true.mp (by decide))],
    ['>'], by decide, List.all_eq_true.mp (by decide), .inl (by decide)⟩
  have hframe : t.SameFrame u := ⟨.cons .spaced (.cons .spaced .nil), rfl⟩
  have ht : AllRecognised true t.attributes := ⟨by decide, by decide, trivial⟩
  have hu : AllRecognised true u.attributes := ⟨by decide, by decide, trivial⟩
  exact ⟨t, u, hframe, by decide, by decide,
    ((canonical_recased hframe).2 ht hu).mpr ⟨by decide, by decide⟩⟩

/-- **The letter case of a name that is not recognised is kept**, so it matters: no name without a
value is recognised. -/
theorem canonical_recased_unrecognised : ¬ ∀ t u : StartTag, t.SameFrame u →
    lower t.tag = lower u.tag →
    t.attributes.map (lower ·.name) = u.attributes.map (lower ·.name) →
    canonical t.source = canonical u.source := by
  intro h
  let t : StartTag := ⟨"input".toList, [.spaced "DISABLED".toList none (by decide)
      (List.all_eq_true.mp (by decide))],
    ['>'], by decide, List.all_eq_true.mp (by decide), .inl (by decide)⟩
  let u : StartTag := ⟨"input".toList, [.spaced "disabled".toList none (by decide)
      (List.all_eq_true.mp (by decide))],
    ['>'], by decide, List.all_eq_true.mp (by decide), .inl (by decide)⟩
  have hsame : canonical t.source = canonical u.source :=
    h t u ⟨.cons .spaced .nil, rfl⟩ (by decide) (by decide)
  have hdiffer : canonical t.source ≠ canonical u.source := by decide +kernel
  exact hdiffer hsame

end Mooring.Fragment
