import Mathlib.Data.List.Basic
import Mooring.Proofs.Fragment.Plain
import Mooring.Proofs.Text.Finding
import Mooring.Proofs.Text.LowName
import Mooring.Selector.Shape

/-!
# Chains of compound selectors

A chain in writing is a row of compound selectors with combinators between them, and a compound is a
tag, an identifier, classes and conditions on attributes, in this order and each of them optional
(`Chain`, `Compound`, `Condition`).  The types carry what makes them well-formed, so whatever is
built of them can be written down (`Chain.render`).

The last compound of a chain is found whatever stands before it (`Chain.lastCompound_render`).  The
scan for combinators passes a value in double quotes without looking at it (`Test.passes`), so the
value may hold anything but a double quote.
-/

namespace Mooring.Selector

open Mooring.Text

/-! ## The characters of names -/

theorem ne_of_isNameChar {c d : Char} (h : isNameChar c = true) (hd : isNameChar d = false) :
    c ≠ d := by
  rintro rfl
  rw [h] at hd
  exact absurd hd (by decide)

theorem isBlank_of_isNameChar {c : Char} (h : isNameChar c = true) : isBlank c = false := by
  refine (Fragment.isPlain_cases (Fragment.isPlain_of_isNameChar ?_)).1
  simp only [isNameChar, Bool.or_eq_true] at h
  simp only [Fragment.isNameChar, Bool.or_eq_true]
  exact h.elim (fun hword => .inl (.inl (.inl hword))) .inr

theorem isNameChar_of_isLowNameChar {c : Char} (h : isLowNameChar c = true) :
    isNameChar c = true := by
  have hcode := isLowNameChar_iff.mp h
  have hascii : c.toNat < 128 := by omega
  simp only [isLowNameChar, Bool.or_eq_true] at h
  simp only [isNameChar, isWord, hascii, if_true, Bool.or_eq_true]
  rcases h with (hletter | hdigit) | hhyphen
  · exact .inl (.inl (.inl (by rw [isAsciiLetter, hletter, Bool.true_or])))
  · exact .inl (.inl (.inr hdigit))
  · exact .inr hhyphen

/-- A character of names, or the mark of an identifier or a class. -/
def isMarkChar (c : Char) : Bool :=
  isNameChar c || c == '#' || c == '.'

theorem isMarkChar_of_isNameChar {c : Char} (h : isNameChar c = true) : isMarkChar c = true := by
  rw [isMarkChar, h]
  rfl

theorem ne_of_isMarkChar {c d : Char} (h : isMarkChar c = true) (hd : isMarkChar d = false) :
    c ≠ d := by
  rintro rfl
  rw [h] at hd
  exact absurd hd (by decide)

theorem isBlank_of_isMarkChar {c : Char} (h : isMarkChar c = true) : isBlank c = false := by
  simp only [isMarkChar, Bool.or_eq_true, beq_iff_eq] at h
  rcases h with (hname | rfl) | rfl
  · exact isBlank_of_isNameChar hname
  · decide
  · decide

/-- A name that is there as a whole. -/
structure WholeName (isFirst : Char → Bool) (name : List Char) : Prop where
  first : ∃ c rest, name = c :: rest ∧ isFirst c = true
  chars : ∀ c ∈ name, isNameChar c = true

namespace WholeName

variable {isFirst : Char → Bool} {name : List Char}

theorem ofLowName (h : LowName name) : WholeName isAsciiLetter name :=
  ⟨h.isAsciiLetter_first, fun c hc => isNameChar_of_isLowNameChar (h.chars c hc)⟩

/-- The name is read up to what ends it. -/
theorem nameAt? (h : WholeName isFirst name) {rest : List Char}
    (hrest : ∀ c, rest.head? = some c → isNameChar c = false) :
    nameAt? isFirst (name ++ rest) = some (name, rest) := by
  obtain ⟨c, more, rfl, hc⟩ := h.first
  obtain ⟨-, hmore⟩ := List.forall_mem_cons.mp h.chars
  rw [List.cons_append, Selector.nameAt?, if_pos hc]
  cases rest with
  | nil => rw [List.append_nil, takeWhile_all hmore, List.dropWhile_eq_nil_iff.mpr hmore]
  | cons d rest => rw [takeWhile_stop hmore (hrest d rfl), dropWhile_stop hmore (hrest d rfl)]

end WholeName

/-! ## Selectors in writing -/

/-- How an attribute's value is compared with another one. -/
inductive Operator
  | equals
  | marked (mark : Char) (known : mark ∈ ['~', '|', '^', '$', '*'])

def Operator.render : Operator → List Char
  | .equals => ['=']
  | .marked mark _ => [mark, '=']

/-- Some spaces. -/
def spaces (count : Nat) : List Char :=
  List.replicate count ' '

/-- What is asked of an attribute: that it is there, or a comparison with a value in double quotes,
with any number of spaces around the operator. -/
inductive Test
  | present
  | compared (before : Nat) (operator : Operator) (after : Nat) (value : List Char)
      (quotable : '"' ∉ value)

def Test.render : Test → List Char
  | .present => []
  | .compared before operator after value _ =>
    spaces before ++ (operator.render ++ (spaces after ++ '"' :: (value ++ ['"'])))

/-- The value that the attribute must have.  Only an equation demands one. -/
def Test.value? : Test → Option String
  | .compared _ .equals _ value _ => some (String.ofList value)
  | _ => none

/-- A condition on an attribute that is no identifier and no role. -/
structure Condition where
  name : List Char
  test : Test
  name_low : LowName name
  name_free : name ≠ ("id").toList ∧ name ≠ ("role").toList

def Condition.render (condition : Condition) : List Char :=
  '[' :: (condition.name ++ (condition.test.render ++ [']']))

/-- A compound selector, not all of it missing, with one condition for an attribute at most. -/
structure Compound where
  tag : Option (List Char)
  id : Option (List Char)
  classes : List (List Char)
  conditions : List Condition
  tag_low : ∀ name, tag = some name → LowName name
  id_whole : ∀ name, id = some name → WholeName isIdentStart name
  classes_whole : ∀ name ∈ classes, WholeName isIdentStart name
  names_nodup : (conditions.map Condition.name).Nodup
  filled : tag ≠ none ∨ id ≠ none ∨ classes ≠ [] ∨ conditions ≠ []

namespace Compound

/-- The identifier behind its mark. -/
def idMark (compound : Compound) : List Char :=
  match compound.id with
  | some name => '#' :: name
  | none => []

/-- The classes, each behind its mark. -/
def classMarks (classes : List (List Char)) : List Char :=
  classes.flatMap ('.' :: ·)

/-- The compound without its conditions. -/
def marks (compound : Compound) : List Char :=
  compound.tag.getD [] ++ (compound.idMark ++ classMarks compound.classes)

def render (compound : Compound) : List Char :=
  compound.marks ++ compound.conditions.flatMap Condition.render

/-- What the compound demands of its element. -/
def shape (compound : Compound) : Shape :=
  { tag := compound.tag.map String.ofList
    elementId := compound.id.map String.ofList
    classes := compound.classes.map String.ofList
    attrs := compound.conditions.map fun c => (String.ofList c.name, c.test.value?) }

end Compound

/-- What stands between two compounds: spaces, or a symbol with any number of spaces around it. -/
inductive Joint
  | gap (more : Nat)
  | symbol (before : Nat) (mark : Char) (known : mark ∈ ['>', '+', '~']) (after : Nat)

def Joint.render : Joint → List Char
  | .gap more => spaces (more + 1)
  | .symbol before mark _ after => spaces before ++ mark :: spaces after

/-- Compounds with joints between them. -/
inductive Chain
  | last (compound : Compound)
  | link (compound : Compound) (joint : Joint) (rest : Chain)

namespace Chain

def render : Chain → List Char
  | .last compound => compound.render
  | .link compound joint rest => compound.render ++ (joint.render ++ rest.render)

/-- The compound that describes the element. -/
def target : Chain → Compound
  | .last compound => compound
  | .link _ _ rest => rest.target

/-- The compound that comes first. -/
def head : Chain → Compound
  | .last compound => compound
  | .link compound _ _ => compound

end Chain

/-! ## The characters of a compound -/

theorem mem_spaces {count : Nat} {c : Char} (h : c ∈ spaces count) : c = ' ' :=
  List.eq_of_mem_replicate h

namespace Compound

variable (compound : Compound)

theorem isNameChar_tag {c : Char} (h : c ∈ compound.tag.getD []) : isNameChar c = true := by
  cases htag : compound.tag with
  | none => rw [htag] at h; exact absurd h List.not_mem_nil
  | some name =>
    rw [htag] at h
    exact isNameChar_of_isLowNameChar ((compound.tag_low name htag).chars c h)

theorem mem_idMark {c : Char} (h : c ∈ compound.idMark) : isNameChar c = true ∨ c = '#' := by
  unfold idMark at h
  split at h
  next name hid =>
    rcases List.mem_cons.mp h with rfl | hname
    · exact .inr rfl
    · exact .inl ((compound.id_whole name hid).chars c hname)
  next => exact absurd h List.not_mem_nil

theorem mem_classMarks {classes : List (List Char)}
    (hwhole : ∀ name ∈ classes, WholeName isIdentStart name) {c : Char}
    (h : c ∈ classMarks classes) : isNameChar c = true ∨ c = '.' := by
  obtain ⟨name, hname, hc⟩ := List.mem_flatMap.mp h
  rcases List.mem_cons.mp hc with rfl | hc
  · exact .inr rfl
  · exact .inl ((hwhole name hname).chars c hc)

theorem isMarkChar_marks {c : Char} (h : c ∈ compound.marks) : isMarkChar c = true := by
  rcases List.mem_append.mp h with htag | h
  · exact isMarkChar_of_isNameChar (compound.isNameChar_tag htag)
  · rcases List.mem_append.mp h with hid | hclass
    · rcases compound.mem_idMark hid with hname | rfl
      · exact isMarkChar_of_isNameChar hname
      · decide
    · rcases mem_classMarks compound.classes_whole hclass with hname | rfl
      · exact isMarkChar_of_isNameChar hname
      · decide

theorem not_mem_marks {c : Char} (hc : isMarkChar c = false) : c ∉ compound.marks :=
  fun hmem => ne_of_isMarkChar (compound.isMarkChar_marks hmem) hc rfl

end Compound

/-! ## The scan for combinators -/

/-- The scan takes these characters to the compound and stands at `n'` behind them. -/
def Passes (n : Nesting) (cs : List Char) (n' : Nesting) : Prop :=
  ∀ current rest, lastFrom n current (cs ++ rest) = lastFrom n' (cs.reverse ++ current) rest

namespace Passes

variable {n m k : Nesting} {c : Char} {cs ds : List Char}

theorem nil (n : Nesting) : Passes n [] n :=
  fun _ _ => rfl

theorem append (h : Passes n cs m) (h' : Passes m ds k) : Passes n (cs ++ ds) k := by
  intro current rest
  rw [List.append_assoc, h, h', List.reverse_append, List.append_assoc]

theorem cons (hc : n.separates c = false) (h : Passes (n.after c) cs m) : Passes n (c :: cs) m := by
  intro current rest
  rw [List.cons_append, lastFrom, if_neg (by rw [hc]; exact Bool.false_ne_true), h,
    List.reverse_cons, List.append_assoc, List.singleton_append]

/-- Characters that change nothing for the scan are passed. -/
theorem of_stay (h : ∀ c ∈ cs, n.separates c = false ∧ n.after c = n) : Passes n cs n := by
  induction cs with
  | nil => exact nil n
  | cons c cs ih =>
    obtain ⟨⟨hseparates, hafter⟩, hcs⟩ := List.forall_mem_cons.mp h
    exact cons hseparates (by rw [hafter]; exact ih hcs)

theorem flatMap {α : Type} {pieces : List α} {f : α → List Char}
    (h : ∀ piece ∈ pieces, Passes n (f piece) n) : Passes n (pieces.flatMap f) n := by
  induction pieces with
  | nil => exact nil n
  | cons piece pieces ih =>
    obtain ⟨hpiece, hpieces⟩ := List.forall_mem_cons.mp h
    rw [List.flatMap_cons]
    exact append hpiece (ih hpieces)

end Passes

/-- The characters that open and close something for the scan. -/
def delimiters : List Char :=
  ['"', '\'', '[', '(', ']', ')']

theorem after_of_not_mem {c : Char} (h : c ∉ delimiters) (depth : Int) :
    Nesting.after { depth } c = { depth } := by
  simp only [delimiters, List.mem_cons, List.not_mem_nil, or_false, not_or] at h
  simp [Nesting.after, h]

/-- Names and marks are passed, inside brackets and outside. -/
theorem passes_of_marks {cs : List Char} (h : ∀ c ∈ cs, isMarkChar c = true) (depth : Int) :
    Passes { depth } cs { depth } := by
  refine Passes.of_stay fun c hc => ⟨?_, after_of_not_mem (fun hmem => ?_) depth⟩
  · have hcombinator : isCombinator c = false := by
      simp [isCombinator, ne_of_isMarkChar (h c hc) (d := ' ') (by decide),
        ne_of_isMarkChar (h c hc) (d := '>') (by decide),
        ne_of_isMarkChar (h c hc) (d := '+') (by decide),
        ne_of_isMarkChar (h c hc) (d := '~') (by decide)]
    rw [Nesting.separates, hcombinator, Bool.and_false]
  · have hmark : ∀ d ∈ delimiters, (!isMarkChar d) = true := List.all_eq_true.mp (by decide)
    exact ne_of_isMarkChar (h c hc) (by simpa using hmark c hmem) rfl

/-- Inside a bracket, everything that opens and closes nothing is passed. -/
theorem passes_inside {cs : List Char} (h : ∀ c ∈ cs, c ∉ delimiters) :
    Passes { depth := 1 } cs { depth := 1 } :=
  Passes.of_stay fun c hc => ⟨rfl, after_of_not_mem (h c hc) 1⟩

/-- Inside quotes, everything but the quote is passed. -/
theorem passes_quoted {value : List Char} (h : '"' ∉ value) (depth : Int) :
    Passes ⟨depth, some '"'⟩ value ⟨depth, some '"'⟩ := by
  refine Passes.of_stay fun c hc => ⟨rfl, if_neg fun heq => h ?_⟩
  rw [← eq_of_beq heq]
  exact hc

theorem passes_spaces (count : Nat) : Passes { depth := 1 } (spaces count) { depth := 1 } := by
  refine passes_inside fun c hc => ?_
  rw [mem_spaces hc]
  decide

theorem Operator.passes (operator : Operator) :
    Passes { depth := 1 } operator.render { depth := 1 } := by
  cases operator with
  | equals => exact passes_inside (List.forall_mem_singleton.mpr (by decide))
  | marked mark known =>
    have hmarks : ∀ mark ∈ ['~', '|', '^', '$', '*'], mark ∉ delimiters := by simp [delimiters]
    exact passes_inside
      (List.forall_mem_cons.mpr ⟨hmarks mark known, List.forall_mem_singleton.mpr (by decide)⟩)

/-- Whatever the value in it, a test is passed. -/
theorem Test.passes (test : Test) : Passes { depth := 1 } test.render { depth := 1 } := by
  cases test with
  | present => exact Passes.nil _
  | compared before operator after value quotable =>
    have hvalue : Passes { depth := 1 } ('"' :: (value ++ ['"'])) { depth := 1 } :=
      Passes.cons rfl ((passes_quoted quotable 1).append (Passes.cons rfl (Passes.nil _)))
    exact (passes_spaces before).append
      (operator.passes.append ((passes_spaces after).append hvalue))

theorem Condition.passes (condition : Condition) : Passes {} condition.render {} := by
  have hname : Passes { depth := 1 } condition.name { depth := 1 } :=
    passes_of_marks (fun c hc => isMarkChar_of_isNameChar
      (isNameChar_of_isLowNameChar (condition.name_low.chars c hc))) 1
  have hclose : Passes { depth := 1 } [']'] {} := Passes.cons rfl (Passes.nil _)
  exact Passes.cons rfl (hname.append (condition.test.passes.append hclose))

theorem Compound.passes (compound : Compound) : Passes {} compound.render {} :=
  (passes_of_marks (fun _ hc => compound.isMarkChar_marks hc) 0).append
    (Passes.flatMap fun condition _ => condition.passes)

/-- Combinators end what stands before them. -/
theorem lastFrom_combinators {cs : List Char} (hne : cs ≠ [])
    (h : ∀ c ∈ cs, isCombinator c = true) (rest : List Char) : ∀ current,
    lastFrom {} current (cs ++ rest) = lastFrom {} [] rest := by
  induction cs with
  | nil => exact absurd rfl hne
  | cons c cs ih =>
    intro current
    obtain ⟨hc, hcs⟩ := List.forall_mem_cons.mp h
    rw [List.cons_append, lastFrom, if_pos (by rw [Nesting.separates, hc]; rfl)]
    cases cs with
    | nil => rfl
    | cons d ds => exact ih (List.cons_ne_nil d ds) hcs []

theorem Joint.render_ne_nil (joint : Joint) : joint.render ≠ [] := by
  cases joint <;> simp [Joint.render, spaces, List.replicate_succ]

theorem Joint.isCombinator {joint : Joint} {c : Char} (h : c ∈ joint.render) :
    isCombinator c = true := by
  cases joint with
  | gap more =>
    rw [mem_spaces h]
    decide
  | symbol before mark known after =>
    rcases List.mem_append.mp h with hbefore | h
    · rw [mem_spaces hbefore]
      decide
    · rcases List.mem_cons.mp h with rfl | hafter
      · have hmarks : ∀ mark ∈ ['>', '+', '~'], Selector.isCombinator mark = true :=
          List.all_eq_true.mp (by decide)
        exact hmarks c known
      · rw [mem_spaces hafter]
        decide

/-- **The scan ends with the last compound**, whatever stands before it. -/
theorem Chain.lastFrom_render (chain : Chain) :
    lastFrom {} [] chain.render = chain.target.render := by
  induction chain with
  | last compound =>
    have hscan := compound.passes [] []
    rw [List.append_nil, List.append_nil, lastFrom, List.reverse_reverse] at hscan
    exact hscan
  | link compound joint rest ih =>
    rw [Chain.render, compound.passes,
      lastFrom_combinators joint.render_ne_nil (fun _ hc => Joint.isCombinator hc)]
    exact ih

/-! ## The ends of a chain -/

namespace Compound

variable (compound : Compound)

/-- A compound is not empty. -/
theorem render_ne_nil : compound.render ≠ [] := by
  intro hnil
  obtain ⟨hmarks, hconditions⟩ := List.append_eq_nil_iff.mp hnil
  obtain ⟨htag, hrest⟩ := List.append_eq_nil_iff.mp hmarks
  obtain ⟨hid, hclasses⟩ := List.append_eq_nil_iff.mp hrest
  rcases compound.filled with hfilled | hfilled | hfilled | hfilled
  · obtain ⟨name, hname⟩ := Option.ne_none_iff_exists'.mp hfilled
    rw [hname, Option.getD_some] at htag
    exact (compound.tag_low name hname).ne_nil htag
  · obtain ⟨name, hname⟩ := Option.ne_none_iff_exists'.mp hfilled
    rw [idMark, hname] at hid
    exact absurd hid (List.cons_ne_nil _ _)
  · obtain ⟨name, names, hnames⟩ := List.exists_cons_of_ne_nil hfilled
    rw [classMarks, hnames] at hclasses
    exact absurd hclasses (List.cons_ne_nil _ _)
  · obtain ⟨condition, conditions, hcons⟩ := List.exists_cons_of_ne_nil hfilled
    rw [hcons] at hconditions
    exact absurd hconditions (List.cons_ne_nil _ _)

theorem isBlank_head? {c : Char} (h : compound.render.head? = some c) : isBlank c = false := by
  rw [render, List.head?_append, Option.or_eq_some_iff] at h
  rcases h with hmarks | ⟨-, hconditions⟩
  · exact isBlank_of_isMarkChar (compound.isMarkChar_marks (List.mem_of_head? hmarks))
  · rw [List.head?_flatMap] at hconditions
    obtain ⟨condition, -, hc⟩ := List.exists_of_findSome?_eq_some hconditions
    rw [← Option.some.inj hc]
    decide

theorem isBlank_getLast? {c : Char} (h : compound.render.getLast? = some c) :
    isBlank c = false := by
  rw [render, List.getLast?_append, Option.or_eq_some_iff] at h
  rcases h with hconditions | ⟨-, hmarks⟩
  · rw [List.getLast?_flatMap] at hconditions
    obtain ⟨condition, -, hc⟩ := List.exists_of_findSome?_eq_some hconditions
    have hrender : condition.render =
        ('[' :: (condition.name ++ condition.test.render)) ++ [']'] := by
      simp [Condition.render]
    rw [hrender, List.getLast?_concat] at hc
    rw [← Option.some.inj hc]
    decide
  · exact isBlank_of_isMarkChar (compound.isMarkChar_marks (List.mem_of_getLast? hmarks))

end Compound

namespace Chain

variable (chain : Chain)

theorem render_ne_nil : chain.render ≠ [] := by
  cases chain with
  | last compound => exact compound.render_ne_nil
  | link compound joint rest =>
    exact List.append_ne_nil_of_left_ne_nil compound.render_ne_nil _

/-- A chain has no blanks at its ends. -/
theorem trim_render : trim chain.render = chain.render := by
  refine trim_of_edges (fun c hc => ?_) fun c hc => ?_
  · cases chain with
    | last compound => exact compound.isBlank_head? hc
    | link compound joint rest =>
      rw [render, List.head?_append_of_ne_nil _ compound.render_ne_nil] at hc
      exact compound.isBlank_head? hc
  · induction chain with
    | last compound => exact compound.isBlank_getLast? hc
    | link compound joint rest ih =>
      rw [render, List.getLast?_append_of_ne_nil _
        (List.append_ne_nil_of_right_ne_nil _ rest.render_ne_nil),
        List.getLast?_append_of_ne_nil _ rest.render_ne_nil] at hc
      exact ih hc

/-- **The last compound of a chain is the one that was written last.** -/
theorem lastCompound_render : lastCompound chain.render = chain.target.render := by
  rw [lastCompound, lastFrom_render]
  exact trim_render (.last chain.target)

end Chain

/-- What may stand behind the marks of a compound. -/
def stops : List Char :=
  ['[', ' ', '>', '+', '~']

theorem Joint.mem_stops {joint : Joint} {c : Char} (h : c ∈ joint.render) : c ∈ stops := by
  have hcombinator := Joint.isCombinator h
  simp only [Selector.isCombinator, Bool.or_eq_true, beq_iff_eq, or_assoc] at hcombinator
  simp only [stops, List.mem_cons, List.not_mem_nil, or_false]
  exact .inr hcombinator

namespace Compound

variable (compound : Compound)

theorem mem_stops {more : List Char} (hmore : ∀ c, more.head? = some c → c ∈ stops) {c : Char}
    (h : (compound.conditions.flatMap Condition.render ++ more).head? = some c) : c ∈ stops := by
  rw [List.head?_append, Option.or_eq_some_iff] at h
  rcases h with hconditions | ⟨-, hrest⟩
  · rw [List.head?_flatMap] at hconditions
    obtain ⟨condition, -, hc⟩ := List.exists_of_findSome?_eq_some hconditions
    rw [← Option.some.inj hc]
    decide
  · exact hmore c hrest

end Compound

namespace Chain

variable (chain : Chain)

/-- The marks of the first compound go up to the end or to what stops them. -/
theorem render_eq : ∃ tail, chain.render = chain.head.marks ++ tail ∧
    ∀ c, tail.head? = some c → c ∈ stops := by
  cases chain with
  | last compound =>
    refine ⟨compound.conditions.flatMap Condition.render, rfl, fun c hc => ?_⟩
    have hnil : ∀ c, ([] : List Char).head? = some c → c ∈ stops := by simp
    exact compound.mem_stops hnil (by rwa [List.append_nil])
  | link compound joint rest =>
    refine ⟨_, List.append_assoc _ _ _, fun c hc => compound.mem_stops (fun d hd => ?_) hc⟩
    rw [List.head?_append_of_ne_nil _ joint.render_ne_nil] at hd
    exact Joint.mem_stops (List.mem_of_head? hd)

/-- A chain does not start with what holds a character that no compound holds before its first
condition. -/
theorem afterLead?_render {lead : List Char} {c : Char} (hc : c ∈ lead)
    (hmark : isMarkChar c = false) (hstops : ∀ stop ∈ stops, stop ∉ lead) :
    afterLead? lead chain.render = none := by
  obtain ⟨tail, hrender, hstop⟩ := chain.render_eq
  rw [hrender]
  cases tail with
  | nil =>
    rw [List.append_nil]
    exact afterLead?_eq_none_of_not_mem hc (chain.head.not_mem_marks hmark)
  | cons stop rest =>
    exact afterLead?_eq_none hc (chain.head.not_mem_marks hmark) (hstops stop (hstop stop rfl)) rest

end Chain

end Mooring.Selector
