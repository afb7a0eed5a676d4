import Mooring.Proofs.Anchor.Refreshing
import Mooring.Proofs.Selector.Generated

/-!
# What a shape demands of an element

A search by a shape does not look at the shape, but at one table of demands, into which identifier,
role, classes and attributes are put one after the other.  This is what the table holds under each
name (`Shape.get?_constraints`), and from it what the search finds: the elements that meet the shape
without an empty identifier, without an empty role and, if it has classes, without what it demands
of the attribute `class` otherwise (`Shape.WellRead.mem_findByTagAndAttrs_iff`).

A shape that was read never demands a value of `id` or `role` among its attributes, for these are
moved to its identifier and its role (`wellRead_ofSelector`).  So nothing else is overwritten.  What
is left out makes a difference unless it demands nothing new (`constraints_lossless`).
-/

namespace Mooring

open Mooring.Text

/-! ## Words between spaces -/

namespace Text

theorem firstRun_lead {p : Char → Bool} {lead : List Char} (h : ∀ c ∈ lead, p c = false)
    {stop : Char} (hstop : p stop = true) (rest : List Char) :
    firstRun p (lead ++ stop :: rest) = (lead, runs p rest) := by
  induction lead with
  | nil => simp only [List.nil_append, firstRun, hstop, if_true, runs]
  | cons c lead ih =>
    obtain ⟨hc, hlead⟩ := List.forall_mem_cons.mp h
    simp only [List.cons_append, firstRun, ih hlead, hc, Bool.false_eq_true, if_false]

theorem words_lead {lead : List Char} (hne : lead ≠ []) (h : ∀ c ∈ lead, isBlank c = false)
    (rest : List Char) : words (lead ++ ' ' :: rest) = lead :: words rest := by
  obtain ⟨c, more, rfl⟩ := List.exists_cons_of_ne_nil hne
  have hrun := firstRun_lead h (by decide : isBlank ' ' = true) rest
  rw [words, runs, hrun]
  rfl

/-- **Words with spaces between them are these words.** -/
theorem words_intercalate {pieces : List String}
    (h : ∀ piece ∈ pieces, piece ≠ "" ∧ ∀ c ∈ piece.toList, isBlank c = false) :
    (words (String.intercalate " " pieces).toList).map String.ofList = pieces := by
  induction pieces with
  | nil => rfl
  | cons piece pieces ih =>
    obtain ⟨⟨hne, hsolid⟩, hpieces⟩ := List.forall_mem_cons.mp h
    have hne' : piece.toList ≠ [] := by simpa using hne
    cases pieces with
    | nil =>
      rw [String.intercalate_singleton, words_of_solid hne' hsolid]
      simp
    | cons next pieces =>
      have htext : (String.intercalate " " (piece :: next :: pieces)).toList =
          piece.toList ++ ' ' :: (String.intercalate " " (next :: pieces)).toList := by
        rw [String.intercalate_cons_cons]
        simp
      rw [htext, words_lead hne' hsolid, List.map_cons, ih hpieces, String.ofList_toList]

end Text

/-! ## Tables with distinct names -/

namespace Table

variable {α β : Type} {name : String} {table : Table α}

theorem get?_put (name other : String) (value : α) (table : Table α) :
    (put name value table).get? other = if other = name then some value else table.get? other := by
  by_cases h : other = name
  · rw [if_pos h, h, get?_put_self]
  · rw [if_neg h, get?_put_of_ne h]

theorem get?_without (name other : String) (table : Table α) :
    (table.without name).get? other = if other = name then none else table.get? other := by
  induction table with
  | nil => simp [without, get?]
  | cons first rest ih =>
    obtain ⟨key, value⟩ := first
    rw [without, List.filter_cons]
    by_cases hkey : key = name
    · rw [if_neg (by simpa using hkey)]
      refine ih.trans ?_
      by_cases h : other = name
      · rw [if_pos h, if_pos h]
      · rw [if_neg h, if_neg h, get?, if_neg fun heq => h (heq.symm.trans hkey)]
    · rw [if_pos (by simpa using hkey), get?, get?]
      by_cases h : key = other
      · rw [if_pos h, if_pos h, if_neg fun heq => hkey (h.trans heq)]
      · rw [if_neg h, if_neg h]
        exact ih

theorem nodup_names_filter (p : String × α → Bool) (h : (names table).Nodup) :
    (names (table.filter p)).Nodup :=
  h.sublist (List.filter_sublist.map _)

theorem get?_reverse (h : (names table).Nodup) : get? name table.reverse = get? name table := by
  have hreverse : (names table.reverse).Nodup := by
    rw [names, List.map_reverse]
    exact List.nodup_reverse.mpr h
  cases hget : get? name table with
  | some value => exact get?_of_mem hreverse (List.mem_reverse.mpr (mem_of_get? hget))
  | none =>
    cases hfound : get? name table.reverse with
    | none => rfl
    | some value =>
      rw [get?_of_mem h (List.mem_reverse.mp (mem_of_get? hfound))] at hget
      exact hget

/-- Where names are distinct, what is put on top counts. -/
theorem get?_union_of_nodup {more : Table α} (h : (names more).Nodup) (name : String)
    (table : Table α) : get? name (union table more) = (get? name more).or (get? name table) := by
  rw [get?_union, get?_reverse h]

theorem nodup_names_union {table : Table α} (h : (names table).Nodup) (more : Table α) :
    (names (union table more)).Nodup := by
  induction more generalizing table with
  | nil => exact h
  | cons first rest ih => exact ih (nodup_names_put h _ _)

theorem get?_eq_some_iff (h : (names table).Nodup) {value : α} :
    table.get? name = some value ↔ (name, value) ∈ table :=
  ⟨mem_of_get?, get?_of_mem h⟩

theorem names_valued (table : Table (Option α)) :
    (names (table.filterMap fun (name, value) => value.map fun value => (name, value))).Sublist
      (names table) := by
  induction table with
  | nil => exact List.Sublist.slnil
  | cons first rest ih =>
    obtain ⟨key, value⟩ := first
    cases value with
    | some value => exact ih.cons_cons key
    | none => exact ih.cons key

/-- What the pairs with a value have under a name. -/
theorem get?_valued (name : String) {table : Table (Option α)} (h : (names table).Nodup) :
    get? name (table.filterMap fun (name, value) => value.map fun value => (name, value)) =
      (get? name table).join := by
  refine Option.ext fun value => ?_
  rw [get?_eq_some_iff (h.sublist (names_valued table)), List.mem_filterMap,
    Option.join_eq_some_iff, get?_eq_some_iff h]
  constructor
  · rintro ⟨⟨key, found⟩, hpair, hsome⟩
    obtain ⟨value, rfl, heq⟩ := Option.map_eq_some_iff.mp hsome
    obtain ⟨rfl, rfl⟩ := Prod.mk.inj heq
    exact hpair
  · intro hpair
    exact ⟨(name, some value), hpair, rfl⟩

/-- What the pairs without a value have under a name. -/
theorem get?_valueless (name : String) {table : Table (Option α)} (h : (names table).Nodup) :
    get? name (table.filter (·.2.isNone)) = (get? name table).filter (·.isNone) := by
  refine Option.ext fun value => ?_
  rw [get?_eq_some_iff (nodup_names_filter _ h), List.mem_filter, Option.filter_eq_some_iff,
    get?_eq_some_iff h]

end Table

/-! ## The table of demands -/

namespace Selector

open Mooring.Markup

namespace Shape

variable {shape : Shape}

/-- A text is put under a name if there is one and it is not empty. -/
theorem get?_put_hasText (name other : String) (text : Option String) (table : Table String) :
    Table.get? other (if hasText text then Table.put name (text.getD "") table else table) =
      if other = name ∧ hasText text = true then text else table.get? other := by
  by_cases h : hasText text = true
  · obtain ⟨found, rfl, -⟩ := (Option.any_eq_true _ _).mp h
    rw [if_pos h, Table.get?_put]
    simp only [h, and_true]
    rfl
  · rw [if_neg h, if_neg fun hboth => h hboth.2]

theorem nodup_names_put_hasText (name : String) (text : Option String) {table : Table String}
    (h : (Table.names table).Nodup) :
    (Table.names (if hasText text then Table.put name (text.getD "") table else table)).Nodup := by
  split
  · exact Table.nodup_names_put h _ _
  · exact h

/-- What the required attributes hold under a name. -/
theorem get?_requiredAttrs (h : (Table.names shape.attrs).Nodup) (name : String) :
    shape.requiredAttrs.get? name =
      if name = "role" ∧ hasText shape.role = true then shape.role
      else if name = "id" ∧ hasText shape.elementId = true then shape.elementId
      else (shape.attrs.get? name).join := by
  unfold requiredAttrs
  dsimp only
  rw [get?_put_hasText, get?_put_hasText]
  exact congrArg _ (congrArg _ (Table.get?_valued name h))

theorem nodup_requiredAttrs (h : (Table.names shape.attrs).Nodup) :
    (Table.names shape.requiredAttrs).Nodup :=
  nodup_names_put_hasText _ _ (nodup_names_put_hasText _ _ (h.sublist (Table.names_valued _)))

theorem nodup_constraints (h : (Table.names shape.attrs).Nodup) :
    (Table.names shape.constraints).Nodup := by
  have hall := Table.nodup_names_union (Table.nodup_names_filter (·.2.isNone) h)
    (shape.requiredAttrs.map fun pair => (pair.1, some pair.2))
  unfold constraints
  dsimp only
  split
  · exact hall
  · exact Table.nodup_names_put hall _ _

/-- **What is demanded of an attribute.**  Of the class attribute the classes, if there are any; of
the role and the identifier what the shape has as such, if it is not empty; and of all others what
the shape's attributes say. -/
theorem get?_constraints (h : (Table.names shape.attrs).Nodup) (name : String) :
    shape.constraints.get? name =
      if name = "class" ∧ shape.classes ≠ [] then some (some (String.intercalate " " shape.classes))
      else if name = "role" ∧ hasText shape.role = true then some shape.role
      else if name = "id" ∧ hasText shape.elementId = true then some shape.elementId
      else shape.attrs.get? name := by
  have hvalues :
      (Table.names (shape.requiredAttrs.map fun pair => (pair.1, some pair.2))).Nodup := by
    rw [Table.names, List.map_map]
    exact nodup_requiredAttrs h
  have hall : Table.get? name (Table.union (shape.attrs.filter (·.2.isNone))
      (shape.requiredAttrs.map fun pair => (pair.1, some pair.2))) =
      if name = "role" ∧ hasText shape.role = true then some shape.role
      else if name = "id" ∧ hasText shape.elementId = true then some shape.elementId
      else shape.attrs.get? name := by
    rw [Table.get?_union_of_nodup hvalues, Table.get?_map, get?_requiredAttrs h,
      Table.get?_valueless name h]
    split_ifs with hrole hid
    · obtain ⟨role, hsome, -⟩ := (Option.any_eq_true _ _).mp hrole.2
      rw [hsome]
      rfl
    · obtain ⟨id, hsome, -⟩ := (Option.any_eq_true _ _).mp hid.2
      rw [hsome]
      rfl
    · cases shape.attrs.get? name with
      | none => rfl
      | some value => cases value <;> rfl
  unfold constraints
  dsimp only
  by_cases hclasses : shape.classes = []
  · rw [if_pos (by simpa using hclasses), if_neg fun hboth => hboth.2 hclasses]
    exact hall
  · rw [if_neg (by simpa using hclasses), Table.get?_put]
    simp only [hclasses, ne_eq, not_false_eq_true, and_true]
    exact congrArg _ hall

end Shape

/-! ## Shapes that were read -/

/-- What the shape of every selector is like. -/
structure Shape.WellRead (shape : Shape) : Prop where
  nodup : (Table.names shape.attrs).Nodup
  tag : ∀ tag, shape.tag = some tag → tag ≠ "" ∧ lower tag.toList = tag.toList
  classes : ∀ name ∈ shape.classes, name ≠ "" ∧ ∀ c ∈ name.toList, isBlank c = false
  /-- A value for the identifier is not among the attributes. -/
  idFree : (shape.attrs.get? "id").join = none
  /-- Of an empty identifier, nothing is. -/
  idAway : shape.elementId = some "" → shape.attrs.get? "id" = none
  /-- A value for the role is not among the attributes. -/
  roleFree : (shape.attrs.get? "role").join = none
  /-- Of an empty role, nothing is. -/
  roleAway : shape.role = some "" → shape.attrs.get? "role" = none

theorem nameAt?_eq_some {isFirst : Char → Bool} {cs name after : List Char}
    (h : nameAt? isFirst cs = some (name, after)) :
    ∃ c more, name = c :: more ∧ isFirst c = true ∧ ∀ d ∈ more, isNameChar d = true := by
  cases cs with
  | nil => exact absurd h (by simp [nameAt?])
  | cons c rest =>
    rw [nameAt?] at h
    split at h
    next hc =>
      rw [← (Prod.mk.inj (Option.some.inj h)).1]
      exact ⟨c, _, rfl, hc, fun d hd => List.mem_takeWhile_imp hd⟩
    next => exact absurd h (by simp)

theorem exists_nameAt?_of_firstMarked? {mark : Char} {cs name : List Char}
    (h : firstMarked? mark cs = some name) :
    ∃ rest after, nameAt? isIdentStart rest = some (name, after) := by
  induction cs with
  | nil => exact absurd h (by simp [firstMarked?])
  | cons c rest ih =>
    rw [firstMarked?] at h
    rcases Option.or_eq_some_iff.mp h with hhere | ⟨-, hlater⟩
    · split at hhere
      next =>
        obtain ⟨⟨found, after⟩, hname, rfl⟩ := Option.map_eq_some_iff.mp hhere
        exact ⟨rest, after, hname⟩
      next => exact absurd hhere (by simp)
    · exact ih hlater

theorem exists_nameAt?_of_mem_allMarked {mark : Char} {name : List Char} :
    ∀ (fuel : Nat) (cs : List Char), name ∈ allMarked mark fuel cs →
      ∃ rest after, nameAt? isIdentStart rest = some (name, after)
  | 0, _, h => absurd h List.not_mem_nil
  | _ + 1, [], h => absurd h List.not_mem_nil
  | fuel + 1, c :: rest, h => by
    rw [allMarked] at h
    split at h
    next found after hhere =>
      rcases List.mem_cons.mp h with rfl | hlater
      · split at hhere
        next => exact ⟨rest, after, hhere⟩
        next => exact absurd hhere (by simp)
      · exact exists_nameAt?_of_mem_allMarked fuel after hlater
    next => exact exists_nameAt?_of_mem_allMarked fuel rest h

/-- A name behind a mark is not empty and holds no blank. -/
theorem solid_of_nameAt? {cs name after : List Char}
    (h : nameAt? isIdentStart cs = some (name, after)) :
    String.ofList name ≠ "" ∧ ∀ c ∈ (String.ofList name).toList, isBlank c = false := by
  obtain ⟨c, more, rfl, hc, hmore⟩ := nameAt?_eq_some h
  refine ⟨by simp, ?_⟩
  rw [String.toList_ofList]
  exact List.forall_mem_cons.mpr ⟨isBlank_of_isNameChar (isNameChar_of_isIdentStart hc),
    fun d hd => isBlank_of_isNameChar (hmore d hd)⟩

/-- An empty identifier comes from an attribute: the name behind a mark is never empty. -/
theorem eq_empty_of_or_firstMarked? {mark : Char} {cs : List Char} {named : Option String}
    (h : (if hasText ((firstMarked? mark cs).map String.ofList) then
        (firstMarked? mark cs).map String.ofList
      else named.or ((firstMarked? mark cs).map String.ofList)) = some "") : named = some "" := by
  split at h
  next hmarked =>
    rw [h] at hmarked
    exact absurd hmarked (by decide)
  next =>
    rcases Option.or_eq_some_iff.mp h with hnamed | ⟨-, hmarked⟩
    · exact hnamed
    · obtain ⟨name, hname, hempty⟩ := Option.map_eq_some_iff.mp hmarked
      obtain ⟨rest, after, hread⟩ := exists_nameAt?_of_firstMarked? hname
      exact absurd hempty (solid_of_nameAt? hread).1

theorem lower_lower (cs : List Char) : lower (lower cs) = lower cs :=
  lower_of_small fun _ hc => isSmall_of_mem_lowerFrom hc

/-- A table without a name, if a value is there under it. -/
def dropValued (name : String) (attrs : Table (Option String)) : Table (Option String) :=
  if (attrs.get? name).join.isSome then attrs.without name else attrs

theorem nodup_dropValued (name : String) {attrs : Table (Option String)}
    (h : (Table.names attrs).Nodup) : (Table.names (dropValued name attrs)).Nodup := by
  unfold dropValued
  split
  · exact Table.nodup_names_filter _ h
  · exact h

theorem get?_dropValued (name other : String) (attrs : Table (Option String)) :
    (dropValued name attrs).get? other =
      if other = name ∧ (attrs.get? name).join.isSome then none else attrs.get? other := by
  unfold dropValued
  by_cases h : (attrs.get? name).join.isSome = true
  · rw [if_pos h, Table.get?_without]
    simp only [h, and_true]
  · rw [if_neg h, if_neg fun hboth => h hboth.2]

theorem join_get?_dropValued (name : String) (attrs : Table (Option String)) :
    ((dropValued name attrs).get? name).join = none := by
  rw [get?_dropValued]
  split
  next => rfl
  next h => simpa using h

theorem wellRead_compoundShape (compound : List Char) : (compoundShape compound).WellRead := by
  unfold compoundShape
  generalize hattrs : Table.ofPairs ((takeAttrParts compound.length compound).1.map
    fun part => (part.name, part.value)) = attrs
  have hnodup : (Table.names attrs).Nodup := hattrs ▸ Table.nodup_names_ofPairs _
  dsimp only
  rw [hattrs]
  generalize dropPseudos _ _ = bare
  show Shape.WellRead
    { tag := _
      elementId := _
      classes := _
      attrs := dropValued "role" (dropValued "id" attrs)
      role := ((dropValued "id" attrs).get? "role").join
      text := _ }
  constructor
  case nodup => exact nodup_dropValued _ (nodup_dropValued _ hnodup)
  case tag =>
    intro tag htag
    obtain ⟨⟨name, after⟩, hname, rfl⟩ := Option.map_eq_some_iff.mp htag
    obtain ⟨c, more, rfl, -⟩ := nameAt?_eq_some hname
    have hne : lower (c :: more) ≠ [] := lowerFrom_ne_nil (List.cons_ne_nil c more)
    exact ⟨by simpa using hne, by rw [String.toList_ofList, lower_lower]⟩
  case classes =>
    intro name hname
    obtain ⟨found, hfound, rfl⟩ := List.mem_map.mp hname
    obtain ⟨rest, after, hread⟩ := exists_nameAt?_of_mem_allMarked _ _ hfound
    exact solid_of_nameAt? hread
  case idFree =>
    dsimp only
    rw [get?_dropValued, if_neg (by simp)]
    exact join_get?_dropValued _ _
  case idAway =>
    intro hid
    dsimp only at hid ⊢
    have hnamed : (attrs.get? "id").join = some "" := eq_empty_of_or_firstMarked? hid
    rw [get?_dropValued, if_neg (by simp), get?_dropValued, hnamed]
    rfl
  case roleFree => exact join_get?_dropValued _ _
  case roleAway =>
    intro hrole
    dsimp only at hrole ⊢
    rw [get?_dropValued, hrole]
    rfl

theorem wellRead_roleShape {selector : List Char} {shape : Shape}
    (h : roleShape? selector = some shape) : shape.WellRead := by
  obtain ⟨rest, -, hshape⟩ := Option.bind_eq_some_iff.mp h
  dsimp only at hshape
  split at hshape
  next => exact absurd hshape (by simp)
  next hne =>
    rw [← Option.some.inj hshape]
    constructor
    case nodup =>
      dsimp only
      split <;> simp [Table.names]
    case idFree =>
      dsimp only
      split <;> rfl
    case roleFree =>
      dsimp only
      split <;> rfl
    case roleAway =>
      intro hrole
      exact absurd (Option.some.inj hrole) (by simpa using hne)
    all_goals simp

theorem wellRead_textShape {selector : List Char} {shape : Shape}
    (h : textShape? selector = some shape) : shape.WellRead := by
  obtain ⟨rest, -, hshape⟩ := Option.bind_eq_some_iff.mp h
  dsimp only at hshape
  split at hshape
  next => exact absurd hshape (by simp)
  next =>
    rw [← Option.some.inj hshape]
    constructor <;> simp [Table.names, Table.get?]

/-- **The shape of every selector is well read.** -/
theorem wellRead_ofSelector (selector : String) : (Shape.ofSelector selector).WellRead := by
  unfold Shape.ofSelector
  dsimp only
  split
  next => constructor <;> simp [Table.names, Table.get?]
  next =>
    split
    next shape hrole => exact wellRead_roleShape hrole
    next =>
      cases htext : textShape? (trim selector.toList) with
      | some shape => exact wellRead_textShape htext
      | none => exact wellRead_compoundShape _

/-! ## What the search finds -/

/-- The element meets a shape part by part: its tag, its identifier, its role, all its classes, and
every attribute, with its value where one is demanded; a value of the class attribute demands its
words as classes. -/
structure Shape.Met (shape : Shape) (node : Node) : Prop where
  tag : ∀ tag, shape.tag = some tag → node.tag = tag
  elementId : ∀ id, shape.elementId = some id → node.attrs.get? "id" = some id
  role : ∀ role, shape.role = some role → node.attrs.get? "role" = some role
  classes : ∀ name ∈ shape.classes, name ∈ node.classes
  present : ∀ name value, (name, value) ∈ shape.attrs → (node.attrs.get? name).isSome
  valued : ∀ name value, (name, some value) ∈ shape.attrs → name ≠ "class" →
    node.attrs.get? name = some value
  words : ∀ value, ("class", some value) ∈ shape.attrs →
    ∀ word ∈ words value.toList, String.ofList word ∈ node.classes

/-- The part of a shape that a search looks at. -/
def Shape.kept (shape : Shape) : Shape :=
  { shape with
    elementId := shape.elementId.filter (· != "")
    role := shape.role.filter (· != "")
    attrs := if shape.classes.isEmpty then shape.attrs else shape.attrs.without "class" }

/-- A search leaves out nothing of the shape that makes a difference: neither an empty identifier
nor an empty role, and, beside classes, no further class in a value of the class attribute. -/
structure Shape.Lossless (shape : Shape) : Prop where
  elementId : shape.elementId ≠ some ""
  role : shape.role ≠ some ""
  classes : shape.classes ≠ [] → ∀ value, ("class", some value) ∈ shape.attrs →
    ∀ word ∈ words value.toList, String.ofList word ∈ shape.classes

section

variable {node : Node}

theorem hasAttrs_iff {attrs : Table (Option String)} (h : (Table.names attrs).Nodup) :
    node.hasAttrs attrs = true ↔
      ∀ name value, attrs.get? name = some value → node.satisfies name value = true := by
  rw [Node.hasAttrs, List.all_eq_true]
  constructor
  · intro hall name value hget
    exact hall (name, value) (Table.mem_of_get? hget)
  · intro hall pair hpair
    exact hall pair.1 pair.2 (Table.get?_of_mem h hpair)

theorem satisfies_none {name : String} :
    node.satisfies name none = true ↔ (node.attrs.get? name).isSome = true := by
  unfold Node.satisfies
  cases node.attrs.get? name <;> simp

theorem satisfies_some {name value : String} (hname : name ≠ "class") :
    node.satisfies name (some value) = true ↔ node.attrs.get? name = some value := by
  unfold Node.satisfies
  cases node.attrs.get? name <;> simp [hname]

theorem satisfies_class {value : String} :
    node.satisfies "class" (some value) = true ↔ (node.attrs.get? "class").isSome = true ∧
      ∀ word ∈ words value.toList, String.ofList word ∈ node.classes := by
  unfold Node.satisfies
  cases node.attrs.get? "class" <;> simp

/-- An element with classes has the attribute. -/
theorem isSome_of_mem_classes {name : String} (h : name ∈ node.classes) :
    (node.attrs.get? "class").isSome = true := by
  cases hget : node.attrs.get? "class" with
  | some value => rfl
  | none =>
    rw [Node.classes, hget] at h
    exact absurd h List.not_mem_nil

theorem satisfies_intercalate {classes : List String} (hne : classes ≠ [])
    (h : ∀ name ∈ classes, name ≠ "" ∧ ∀ c ∈ name.toList, isBlank c = false) :
    node.satisfies "class" (some (String.intercalate " " classes)) = true ↔
      ∀ name ∈ classes, name ∈ node.classes := by
  have hwords := words_intercalate h
  have hall : (∀ word ∈ words (String.intercalate " " classes).toList,
      String.ofList word ∈ node.classes) ↔ ∀ name ∈ classes, name ∈ node.classes := by
    conv =>
      rhs
      rw [← hwords]
    rw [List.forall_mem_map]
  rw [satisfies_class, hall]
  refine and_iff_right_of_imp fun hmem => ?_
  obtain ⟨first, rest, rfl⟩ := List.exists_cons_of_ne_nil hne
  exact isSome_of_mem_classes (hmem first List.mem_cons_self)

end

namespace Shape

variable {shape : Shape} {node : Node}

theorem mem_kept {name : String} {value : Option String} :
    (name, value) ∈ shape.kept.attrs ↔
      (name, value) ∈ shape.attrs ∧ ¬(name = "class" ∧ shape.classes ≠ []) := by
  unfold kept
  dsimp only
  by_cases h : shape.classes = []
  · rw [if_pos (by simpa using h)]
    simp [h]
  · rw [if_neg (by simpa using h), Table.without, List.mem_filter]
    simp [h]

/-- The tag is compared in small letters, as it is written already. -/
theorem WellRead.tag_iff (h : shape.WellRead) :
    ((shape.tag.filter (· != "")).map fun tag => String.ofList (lower tag.toList)).all
        (node.tag == ·) = true ↔ ∀ tag, shape.tag = some tag → node.tag = tag := by
  cases htag : shape.tag with
  | none => simp
  | some tag =>
    obtain ⟨hne, hlow⟩ := h.tag tag htag
    have hfilled : (some tag).filter (· != "") = some tag :=
      Option.filter_eq_some_iff.mpr ⟨rfl, by simpa using hne⟩
    rw [hfilled, Option.map_some, hlow, String.ofList_toList]
    simp

theorem WellRead.get?_role (h : shape.WellRead) (hattrs : node.hasAttrs shape.constraints = true)
    {role : String} (hsome : shape.role = some role) (hne : role ≠ "") :
    node.attrs.get? "role" = some role := by
  have hdemand := (hasAttrs_iff (nodup_constraints h.nodup)).mp hattrs "role" (some role)
  refine (satisfies_some (by decide)).mp (hdemand ?_)
  rw [get?_constraints h.nodup, if_neg (by simp), hsome,
    if_pos ⟨rfl, by simpa [hasText] using hne⟩]

theorem WellRead.get?_id (h : shape.WellRead) (hattrs : node.hasAttrs shape.constraints = true)
    {id : String} (hsome : shape.elementId = some id) (hne : id ≠ "") :
    node.attrs.get? "id" = some id := by
  have hdemand := (hasAttrs_iff (nodup_constraints h.nodup)).mp hattrs "id" (some id)
  refine (satisfies_some (by decide)).mp (hdemand ?_)
  rw [get?_constraints h.nodup, if_neg (by simp), if_neg (by simp), hsome,
    if_pos ⟨rfl, by simpa [hasText] using hne⟩]

/-- An attribute that the shape has is demanded, or it is demanded with the value it is known by. -/
theorem WellRead.satisfies_of_mem_kept (h : shape.WellRead)
    (hattrs : node.hasAttrs shape.constraints = true) {name : String} {value : Option String}
    (hmem : (name, value) ∈ shape.kept.attrs) : node.satisfies name value = true := by
  obtain ⟨hmem, hclass⟩ := mem_kept.mp hmem
  have hget := Table.get?_of_mem h.nodup hmem
  by_cases hasRole : name = "role" ∧ hasText shape.role = true
  · obtain ⟨rfl, hhas⟩ := hasRole
    obtain ⟨role, hsome, hne⟩ := (Option.any_eq_true _ _).mp hhas
    obtain rfl : value = none := by simpa [hget] using h.roleFree
    rw [satisfies_none, h.get?_role hattrs hsome (by simpa using hne)]
    rfl
  by_cases hasId : name = "id" ∧ hasText shape.elementId = true
  · obtain ⟨rfl, hhas⟩ := hasId
    obtain ⟨id, hsome, hne⟩ := (Option.any_eq_true _ _).mp hhas
    obtain rfl : value = none := by simpa [hget] using h.idFree
    rw [satisfies_none, h.get?_id hattrs hsome (by simpa using hne)]
    rfl
  · refine (hasAttrs_iff (nodup_constraints h.nodup)).mp hattrs name value ?_
    rw [get?_constraints h.nodup, if_neg hclass, if_neg hasRole, if_neg hasId, hget]

theorem WellRead.met_of_hasAttrs (h : shape.WellRead)
    (htag : ∀ tag, shape.tag = some tag → node.tag = tag)
    (hattrs : node.hasAttrs shape.constraints = true) : shape.kept.Met node := by
  constructor
  case tag => exact htag
  case elementId =>
    intro id hsome
    obtain ⟨hsome, hne⟩ := Option.filter_eq_some_iff.mp hsome
    exact h.get?_id hattrs hsome (by simpa using hne)
  case role =>
    intro role hsome
    obtain ⟨hsome, hne⟩ := Option.filter_eq_some_iff.mp hsome
    exact h.get?_role hattrs hsome (by simpa using hne)
  case classes =>
    intro name hname
    have hne : shape.classes ≠ [] := List.ne_nil_of_mem hname
    have hdemand := (hasAttrs_iff (nodup_constraints h.nodup)).mp hattrs "class"
      (some (String.intercalate " " shape.classes))
    refine (satisfies_intercalate hne h.classes).mp (hdemand ?_) name hname
    rw [get?_constraints h.nodup, if_pos ⟨rfl, hne⟩]
  case present =>
    intro name value hmem
    have hsat := h.satisfies_of_mem_kept hattrs hmem
    unfold Node.satisfies at hsat
    cases hget : node.attrs.get? name with
    | some own => rfl
    | none =>
      rw [hget] at hsat
      exact absurd hsat Bool.false_ne_true
  case valued =>
    intro name value hmem hname
    exact (satisfies_some hname).mp (h.satisfies_of_mem_kept hattrs hmem)
  case words =>
    intro value hmem
    exact (satisfies_class.mp (h.satisfies_of_mem_kept hattrs hmem)).2

theorem WellRead.hasAttrs_of_met (h : shape.WellRead) (hmet : shape.kept.Met node) :
    node.hasAttrs shape.constraints = true := by
  rw [hasAttrs_iff (nodup_constraints h.nodup)]
  intro name value hget
  rw [get?_constraints h.nodup] at hget
  split_ifs at hget with hclass hrole hid
  · obtain ⟨rfl, hne⟩ := hclass
    rw [← Option.some.inj hget, satisfies_intercalate hne h.classes]
    exact hmet.classes
  · obtain ⟨rfl, hhas⟩ := hrole
    obtain ⟨role, hsome, hne⟩ := (Option.any_eq_true _ _).mp hhas
    rw [← Option.some.inj hget, hsome, satisfies_some (by decide)]
    exact hmet.role role (Option.filter_eq_some_iff.mpr ⟨hsome, hne⟩)
  · obtain ⟨rfl, hhas⟩ := hid
    obtain ⟨id, hsome, hne⟩ := (Option.any_eq_true _ _).mp hhas
    rw [← Option.some.inj hget, hsome, satisfies_some (by decide)]
    exact hmet.elementId id (Option.filter_eq_some_iff.mpr ⟨hsome, hne⟩)
  · have hmem := mem_kept.mpr ⟨Table.mem_of_get? hget, hclass⟩
    cases value with
    | none => exact satisfies_none.mpr (hmet.present name none hmem)
    | some value =>
      by_cases hname : name = "class"
      · subst hname
        exact satisfies_class.mpr ⟨hmet.present _ _ hmem, hmet.words value hmem⟩
      · exact (satisfies_some hname).mpr (hmet.valued name value hmem hname)

/-- **What a search finds**: the elements that meet the part of the shape that it looks at. -/
theorem WellRead.mem_findByTagAndAttrs_iff (h : shape.WellRead) {index : Index} :
    node ∈ index.findByTagAndAttrs shape.tag shape.constraints ↔
      node ∈ index.nodes ∧ shape.kept.Met node := by
  rw [Index.findByTagAndAttrs, List.mem_filter, Bool.and_eq_true, h.tag_iff]
  exact and_congr_right fun _ => ⟨fun ⟨htag, hattrs⟩ => h.met_of_hasAttrs htag hattrs,
    fun hmet => ⟨hmet.tag, h.hasAttrs_of_met hmet⟩⟩

/-! ## What is left out -/

/-- An element that meets the whole shape is found. -/
theorem Met.kept (h : shape.Met node) : shape.kept.Met node where
  tag := h.tag
  elementId id hid := h.elementId id (Option.filter_eq_some_iff.mp hid).1
  role role hrole := h.role role (Option.filter_eq_some_iff.mp hrole).1
  classes := h.classes
  present name value hmem := h.present name value (mem_kept.mp hmem).1
  valued name value hmem := h.valued name value (mem_kept.mp hmem).1
  words value hmem := h.words value (mem_kept.mp hmem).1

theorem Lossless.met (h : shape.Lossless) (hmet : shape.kept.Met node) : shape.Met node where
  tag := hmet.tag
  elementId id hid := hmet.elementId id <| Option.filter_eq_some_iff.mpr
    ⟨hid, by simpa using fun heq : id = "" => h.elementId (heq ▸ hid)⟩
  role role hrole := hmet.role role <| Option.filter_eq_some_iff.mpr
    ⟨hrole, by simpa using fun heq : role = "" => h.role (heq ▸ hrole)⟩
  classes := hmet.classes
  present name value hmem := by
    by_cases hclass : name = "class" ∧ shape.classes ≠ []
    · obtain ⟨rfl, hne⟩ := hclass
      obtain ⟨first, rest, hcons⟩ := List.exists_cons_of_ne_nil hne
      exact isSome_of_mem_classes (hmet.classes first (hcons ▸ List.mem_cons_self))
    · exact hmet.present name value (mem_kept.mpr ⟨hmem, hclass⟩)
  valued name value hmem hname :=
    hmet.valued name value (mem_kept.mpr ⟨hmem, fun hclass => hname hclass.1⟩) hname
  words value hmem word hword := by
    by_cases hclass : shape.classes = []
    · exact hmet.words value (mem_kept.mpr ⟨hmem, fun h => h.2 hclass⟩) word hword
    · exact hmet.classes _ (h.classes hclass value hmem word hword)

/-- The element that has what the table demands, and nothing else. -/
def sample (shape : Shape) : Node where
  tag := shape.tag.getD ""
  attrs := shape.constraints.map fun pair => (pair.1, pair.2.getD "")
  text := ""
  fragment := ""
  line := 1
  endLine := 1
  order := 0
  hasChildren := false

theorem get?_sample (shape : Shape) (name : String) :
    shape.sample.attrs.get? name = (shape.constraints.get? name).map (·.getD "") :=
  Table.get?_map (fun value : Option String => value.getD "") name shape.constraints

/-- The sample is found. -/
theorem WellRead.met_sample (h : shape.WellRead) : shape.kept.Met shape.sample := by
  refine h.met_of_hasAttrs ?_ ((hasAttrs_iff (nodup_constraints h.nodup)).mpr ?_)
  · intro tag hsome
    simp only [sample, hsome, Option.getD_some]
  · intro name value hget
    have hown : shape.sample.attrs.get? name = some (value.getD "") := by
      rw [get?_sample, hget, Option.map_some]
    cases value with
    | none => simp [satisfies_none, hown]
    | some value =>
      by_cases hname : name = "class"
      · subst hname
        rw [satisfies_class, hown, Node.classes, hown]
        exact ⟨rfl, fun word hword => List.mem_map_of_mem hword⟩
      · exact (satisfies_some hname).mpr hown

/-- If the sample meets the whole shape, nothing of it is left out. -/
theorem WellRead.lossless_of_met (h : shape.WellRead) (hmet : shape.Met shape.sample) :
    shape.Lossless where
  elementId hid := by
    have hget := hmet.elementId "" hid
    rw [get?_sample, get?_constraints h.nodup, if_neg (by simp), if_neg (by simp), hid,
      if_neg (by decide), h.idAway hid] at hget
    exact absurd hget (by simp)
  role hrole := by
    have hget := hmet.role "" hrole
    rw [get?_sample, get?_constraints h.nodup, if_neg (by simp), hrole, if_neg (by decide),
      if_neg (by simp), h.roleAway hrole] at hget
    exact absurd hget (by simp)
  classes hne value hmem word hword := by
    have hclass := hmet.words value hmem word hword
    rw [Node.classes, get?_sample, get?_constraints h.nodup, if_pos ⟨rfl, hne⟩] at hclass
    exact words_intercalate h.classes ▸ hclass

end Shape

/-- **What a search by a selector finds, and what it leaves out.**  For every selector, it finds the
elements that meet the shape without an empty identifier, without an empty role and, if there are
classes, without what the shape says of the attribute `class` otherwise.  So it finds every element
that meets the whole shape; and it finds no other one, in whatever index, just if nothing is lost:
no identifier and no role is empty, and every word of a class value is among the classes. -/
theorem constraints_lossless (selector : String) :
    (∀ (index : Index) (node : Node),
      node ∈ index.findByTagAndAttrs (Shape.ofSelector selector).tag
          (Shape.ofSelector selector).constraints ↔
        node ∈ index.nodes ∧ (Shape.ofSelector selector).kept.Met node) ∧
      (∀ (index : Index) (node : Node), node ∈ index.nodes →
        (Shape.ofSelector selector).Met node →
          node ∈ index.findByTagAndAttrs (Shape.ofSelector selector).tag
            (Shape.ofSelector selector).constraints) ∧
      ((∀ (index : Index) (node : Node), node ∈ index.nodes →
        (node ∈ index.findByTagAndAttrs (Shape.ofSelector selector).tag
            (Shape.ofSelector selector).constraints ↔ (Shape.ofSelector selector).Met node)) ↔
        (Shape.ofSelector selector).Lossless) := by
  have hread := wellRead_ofSelector selector
  generalize Shape.ofSelector selector = shape at hread
  refine ⟨fun index node => hread.mem_findByTagAndAttrs_iff, ?_, ?_, ?_⟩
  · intro index node hnode hmet
    exact hread.mem_findByTagAndAttrs_iff.mpr ⟨hnode, hmet.kept⟩
  · intro hall
    let index : Index := { nodes := [shape.sample] }
    have hmem : shape.sample ∈ index.nodes := List.mem_singleton_self _
    exact hread.lossless_of_met ((hall index shape.sample hmem).mp
      (hread.mem_findByTagAndAttrs_iff.mpr ⟨hmem, hread.met_sample⟩))
  · intro hlossless index node hnode
    rw [hread.mem_findByTagAndAttrs_iff, and_iff_right hnode]
    exact ⟨hlossless.met, Shape.Met.kept⟩

/-- An identifier and classes that are demanded twice, in different ways, are not lost. -/
theorem constraints_lossless_twice :
    (Shape.ofSelector "a#x[id].b.c[class=\"c b\"]").Lossless ∧
      ∃ node ∈ (Index.ofSource "<a class=\"c b d\" id=\"x\">y</a>").nodes,
        node ∈ (Index.ofSource "<a class=\"c b d\" id=\"x\">y</a>").findByTagAndAttrs
            (Shape.ofSelector "a#x[id].b.c[class=\"c b\"]").tag
            (Shape.ofSelector "a#x[id].b.c[class=\"c b\"]").constraints ∧
          (Shape.ofSelector "a#x[id].b.c[class=\"c b\"]").Met node := by
  have hshape : Shape.ofSelector "a#x[id].b.c[class=\"c b\"]" =
      { tag := "a", elementId := "x", classes := ["b", "c"],
        attrs := [("id", none), ("class", some "c b")] } := by
    decide +kernel
  have hlossless : (Shape.ofSelector "a#x[id].b.c[class=\"c b\"]").Lossless := by
    rw [hshape]
    refine ⟨by decide, by decide, fun _ value hvalue => ?_⟩
    obtain rfl : value = "c b" := by simpa using hvalue
    decide +kernel
  have hfound : ((Index.ofSource "<a class=\"c b d\" id=\"x\">y</a>").findByTagAndAttrs
      (Shape.ofSelector "a#x[id].b.c[class=\"c b\"]").tag
      (Shape.ofSelector "a#x[id].b.c[class=\"c b\"]").constraints).length = 1 := by
    decide +kernel
  obtain ⟨node, hnode⟩ := List.exists_mem_of_length_pos (by rw [hfound]; exact Nat.one_pos)
  have hmem := (List.mem_filter.mp hnode).1
  exact ⟨hlossless, node, hmem, hnode,
    ((constraints_lossless _).2.2.mpr hlossless _ node hmem).mp hnode⟩

/-- A class that is demanded as an attribute beside another one is lost: an element without it is
found. -/
theorem constraints_lose_class :
    ∃ node ∈ (Index.ofSource "<p class=\"b\">x</p>").nodes,
      node ∈ (Index.ofSource "<p class=\"b\">x</p>").findByTagAndAttrs
          (Shape.ofSelector ".b[class=\"a\"]").tag
          (Shape.ofSelector ".b[class=\"a\"]").constraints ∧
        ¬(Shape.ofSelector ".b[class=\"a\"]").Met node := by
  have hfound : ((Index.ofSource "<p class=\"b\">x</p>").findByTagAndAttrs
      (Shape.ofSelector ".b[class=\"a\"]").tag
      (Shape.ofSelector ".b[class=\"a\"]").constraints).map (·.classes) = [["b"]] := by
    decide +kernel
  obtain ⟨node, hnode, hclasses⟩ :=
    List.mem_map.mp (hfound ▸ List.mem_singleton_self ["b"])
  refine ⟨node, (List.mem_filter.mp hnode).1, hnode, fun hmet => ?_⟩
  have hclass := hmet.words "a" (by decide +kernel) ['a'] (by decide +kernel)
  rw [hclasses] at hclass
  exact absurd hclass (by decide)

end Selector

end Mooring
