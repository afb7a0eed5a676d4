import Mooring.Proofs.Anchor.Lifecycle

/-!
# A refreshed anchor can be stored

Refreshing an anchor goes past all the checks that an anchor from a file has to pass.  An anchor that
does not pass them would be written nevertheless, and the file could not be read any more.  So what a
finding brings must pass them by itself: its confidence ends between 0 and 1, empty texts are not
taken, and lines are checked when they are taken (`SourceRange.exists_ofFields_iff`).

The rest of the anchor has to pass as before, and this is not obvious.  An unknown field can be
called like a field of the anchor, or like its second spelling, and then a reader may take it for
that field.  But a finding only replaces or adds known fields.  So what a reader takes for a field is
the new one or what it took before (`Key.get?_written_of_some`), and that passed.

The main statement is `refresh_storable`.
-/

namespace Mooring

open Mooring.Json Mooring.Record

/-! ## Fields with one name -/

theorem Table.get?_union {α : Type} (name : String) (more : Table α) : ∀ table : Table α,
    get? name (union table more) = (get? name more.reverse).or (get? name table) := by
  induction more with
  | nil => exact fun _ => rfl
  | cons pair rest ih =>
    obtain ⟨key, value⟩ := pair
    intro table
    refine (ih (put key value table)).trans ?_
    rw [List.reverse_cons, get?_append, Option.or_assoc]
    by_cases h : key = name
    · rw [h, get?_put_self, get?, if_pos rfl, Option.some_or]
    · rw [get?_put_of_ne (Ne.symm h), get?, if_neg h, get?, Option.none_or]

namespace Record

/-- The fields of a record as they are written: of fields with one name the last one counts. -/
def written (known extra : Table Json) : Table Json :=
  Table.ofPairs (mergedFields (known ++ extraFields extra))

variable {known old new extra : Table Json} {key : Key}

/-- What counts under a name is an unknown field, and else a known one. -/
theorem get?_written (h : (Table.names known).Nodup) (extra : Table Json) (name : String) :
    Table.get? name (written known extra) =
      (Table.get? name (mergedFields (extraFields extra)).reverse).or
        ((known.get? name).map merged) := by
  have hnames : (Table.names (mergedFields known)).Nodup := by rwa [names_mergedFields]
  unfold written
  rw [mergedFields_eq_map, List.map_append, ← mergedFields_eq_map, ← mergedFields_eq_map,
    Table.ofPairs_append, Table.get?_union, Table.ofPairs_of_nodup hnames,
    mergedFields_eq_map known, Table.get?_map]

/-- A field that is written as before is found as before. -/
theorem Key.get?_written_congr (hold : (Table.names old).Nodup) (hnew : (Table.names new).Nodup)
    (hname : new.get? key.name = old.get? key.name)
    (hspelling : new.get? key.spelling = old.get? key.spelling) (extra : Table Json) :
    key.get? (written new extra) = key.get? (written old extra) := by
  simp only [Key.get?_eq, get?_written hold, get?_written hnew, hname, hspelling]

/-- **Where a field is written, it is found, or what was found in its place before.** -/
theorem Key.get?_written_of_some (hold : (Table.names old).Nodup) (hnew : (Table.names new).Nodup)
    {value : Json} (hvalue : new.get? key.name = some value) (extra : Table Json) :
    key.get? (written new extra) = some (merged value) ∨
      key.get? (written new extra) = key.get? (written old extra) := by
  simp only [Key.get?_eq, get?_written hold, get?_written hnew, hvalue]
  cases Table.get? key.name (mergedFields (extraFields extra)).reverse with
  | none => exact .inl rfl
  | some found => exact .inr rfl

/-! ## A check looks at one field -/

variable {α : Type} {fields other : Table Json} {check : Json → Checked α}

theorem required_congr (h : key.get? fields = key.get? other) :
    key.required check fields = key.required check other := by
  unfold Key.required
  rw [h]

theorem defaulting_congr (h : key.get? fields = key.get? other) (default : α) :
    key.defaulting default check fields = key.defaulting default check other := by
  unfold Key.defaulting
  rw [h]

theorem optional_congr (h : key.get? fields = key.get? other) :
    key.optional check fields = key.optional check other := by
  unfold Key.optional
  rw [h]

/-- **An optional field is still read** if it is written as before, or if what is written passes. -/
theorem exists_optional_written (hold : (Table.names old).Nodup) (hnew : (Table.names new).Nodup)
    {part : Option α} (hread : key.optional check (written old extra) = .ok part)
    (h : (new.get? key.name = old.get? key.name ∧
        new.get? key.spelling = old.get? key.spelling) ∨
      ∃ value a, new.get? key.name = some value ∧ check (merged value) = .ok a) :
    ∃ found, key.optional check (written new extra) = .ok found := by
  rcases h with ⟨hname, hspelling⟩ | ⟨value, a, hvalue, hcheck⟩
  · have hsame := Key.get?_written_congr hold hnew hname hspelling extra
    exact ⟨part, (optional_congr hsame).trans hread⟩
  · rcases Key.get?_written_of_some hold hnew hvalue extra with hfound | hsame
    · unfold Key.optional
      rw [hfound]
      split
      next => exact ⟨none, rfl⟩
      next => exact ⟨none, rfl⟩
      next other _ hother =>
        obtain rfl := Option.some.inj hother
        exact ⟨some a, by rw [hcheck]; rfl⟩
    · exact ⟨part, (optional_congr hsame).trans hread⟩

/-- Whether a field is read does not depend on its default. -/
theorem exists_defaulting {default a : α} (h : key.defaulting default check fields = .ok a)
    (other : α) : ∃ found, key.defaulting other check fields = .ok found := by
  rcases defaulting_eq_ok h with ⟨-, hnone⟩ | ⟨value, hvalue, hcheck⟩
  · exact ⟨other, by rw [Key.defaulting, hnone]⟩
  · exact ⟨a, defaulting_of_get? value hvalue hcheck⟩

end Record

/-! ## Lines -/

namespace SourceRange

/-- A field stands for a whole number. -/
def Gives (fields : Table Json) (name : String) (n : Int) : Prop :=
  ∃ value, fields.get? name = some value ∧ wholeNumber value = .ok n

/-- The fields are lines in order, counted from 1. -/
def InOrder (fields : Table Json) : Prop :=
  ∃ first last, Gives fields "start" first ∧ Gives fields "end" last ∧ 1 ≤ first ∧ first ≤ last

theorem lineNumber_eq_ok {value : Json} {n : LineNumber} (h : lineNumber value = .ok n) :
    wholeNumber value = .ok n.val := by
  unfold lineNumber at h
  split at h
  next found hfound =>
    split at h
    next => rw [hfound, ← Except.ok.inj h]
    next => exact absurd h (by simp [Checked.refuse])
  next => exact absurd h (by simp)

theorem lineNumber_of_wholeNumber {value : Json} {n : Int} (h : wholeNumber value = .ok n)
    (hn : 1 ≤ n) : lineNumber value = .ok ⟨n, hn⟩ := by
  unfold lineNumber
  rw [h]
  exact dif_pos hn

variable {fields : Table Json} {range : SourceRange}

/-- What is known of lines that were read. -/
theorem ofFields_eq_ok (h : ofFields fields = .ok range) :
    Gives fields "start" range.first ∧ Gives fields "end" range.last ∧
      range.extra = extras keys fields := by
  unfold ofFields at h
  split at h
  next first last hboth =>
    obtain ⟨hfirst, hlast⟩ := Checked.both_eq_ok hboth
    obtain ⟨start, hstart, hfirst⟩ := required_eq_ok hfirst
    obtain ⟨stop, hstop, hlast⟩ := required_eq_ok hlast
    unfold ofLines at h
    split at h
    next =>
      rw [Key.get?_plain] at hstart hstop
      rw [← Except.ok.inj h]
      exact ⟨⟨start, hstart, lineNumber_eq_ok hfirst⟩, ⟨stop, hstop, lineNumber_eq_ok hlast⟩, rfl⟩
    next => exact absurd h (by simp [Checked.refuse])
  next => exact absurd h (by simp)

/-- **Lines are taken just if they are in order.** -/
theorem exists_ofFields_iff : (∃ range, ofFields fields = .ok range) ↔ InOrder fields := by
  constructor
  · rintro ⟨range, h⟩
    obtain ⟨hfirst, hlast, -⟩ := ofFields_eq_ok h
    exact ⟨_, _, hfirst, hlast, range.one_le_first, range.first_le_last⟩
  · rintro ⟨first, last, ⟨start, hstart, hfirst⟩, ⟨stop, hstop, hlast⟩, hone, hle⟩
    rw [← Key.get?_plain] at hstart hstop
    have hreadFirst := required_of_get? _ hstart (lineNumber_of_wholeNumber hfirst hone)
    have hreadLast :=
      required_of_get? _ hstop (lineNumber_of_wholeNumber hlast (Int.le_trans hone hle))
    unfold ofFields
    rw [hreadFirst, hreadLast, Checked.both_ok]
    dsimp only
    rw [ofLines, dif_pos hle]
    exact ⟨_, rfl⟩

/-- **Lines are read again as they are written**, if no unknown field is called like one of the two
known ones. -/
theorem exists_ofJson_merged (h : ∀ field ∈ range.extra, ∀ key ∈ keys, field.1 ≠ key.name) :
    ∃ found, ofJson (merged range.toJson) = .ok found := by
  have hget : ∀ key ∈ keys, Table.get? key.name (written range.fields range.extra) =
      (range.fields.get? key.name).map merged := by
    intro key hkey
    have hnames : (Table.names range.fields).Nodup :=
      show ["start", "end"].Nodup by decide
    rw [get?_written hnames, Table.get?_eq_none, Option.none_or]
    intro field hfield
    rw [List.mem_reverse, mergedFields_eq_map] at hfield
    obtain ⟨written, hwritten, rfl⟩ := List.mem_map.mp hfield
    obtain ⟨value, hvalue, -⟩ := mem_extraFields_iff.mp hwritten
    exact h (written.1, value) hvalue key hkey
  refine exists_ofFields_iff.mpr ⟨range.first, range.last, ⟨.int range.first, ?_, rfl⟩,
    ⟨.int range.last, ?_, rfl⟩, range.one_le_first, range.first_le_last⟩
  · exact hget (.plain "start") (by simp [keys])
  · exact hget (.plain "end") (by simp [keys])

end SourceRange

/-! ## Anchors -/

namespace Anchor

open Mooring.Decimal

/-- What is written for the anchor is read as an anchor. -/
def Storable (stamp : String) (anchor : Anchor) : Prop :=
  ∃ found, ofJson stamp (merged anchor.toJson) = .ok found

theorem nodup_names_fields (anchor : Anchor) : (Table.names anchor.fields).Nodup :=
  anchor.names_fields.nodup (by decide)

/-- The names of the fields that a finding changes. -/
def refreshedNames : List String :=
  ["selector", hashKey.name, rangeKey.name, "stability", updatedKey.name, "snippet"]

variable {stamp : String} {anchor next : Anchor} {finding : Finding} {now : Moment}

/-- The lines of an anchor before and after a finding: those that it had, or those of the finding. -/
inductive Lines (finding : Finding) (old : Option SourceRange) : Option SourceRange → Prop
  | kept : finding.range = [] → Lines finding old old
  | taken {lines : SourceRange} : finding.range ≠ [] →
      SourceRange.ofFields finding.range = .ok lines → Lines finding old (some lines)

/-- The anchor with everything that a finding brings but its lines, and with these lines. -/
def taking (anchor : Anchor) (finding : Finding) (now : Moment) (range : Option SourceRange) :
    Anchor :=
  { anchor with
    selector := finding.selector
    stability := finding.confidence.stability
    updatedAt := now.text
    snippetHash := newer anchor.snippetHash finding.hash
    snippet := newer anchor.snippet finding.snippet
    range }

/-- **What a refreshed anchor is made of.** -/
theorem refresh_eq_ok_iff : refresh anchor finding now = .ok next ↔
    ∃ range, Lines finding anchor.range range ∧ next = anchor.taking finding now range := by
  cases hrange : finding.range with
  | nil =>
    have hkept : refresh anchor finding now = .ok (anchor.taking finding now anchor.range) := by
      rw [refresh, hrange]
      rfl
    rw [hkept]
    constructor
    · exact fun h => ⟨_, .kept hrange, (Except.ok.inj h).symm⟩
    · rintro ⟨range, hlines, rfl⟩
      cases hlines with
      | kept => rfl
      | taken hne => exact absurd hrange hne
  | cons first rest =>
    have hne : finding.range ≠ [] := by rw [hrange]; exact List.cons_ne_nil _ _
    have hempty : ¬finding.range.isEmpty = true := mt List.isEmpty_iff.mp hne
    cases hread : SourceRange.ofFields finding.range with
    | error problems =>
      constructor
      · intro h
        rw [refresh, if_neg hempty, hread] at h
        exact absurd h (by simp [Except.map, bind, Except.bind])
      · rintro ⟨range, hlines, -⟩
        cases hlines with
        | kept hnil => exact absurd hnil hne
        | taken _ htaken => exact absurd (hread.symm.trans htaken) (by simp)
    | ok lines =>
      have htaken : refresh anchor finding now = .ok (anchor.taking finding now (some lines)) := by
        rw [refresh, if_neg hempty, hread]
        rfl
      rw [htaken]
      constructor
      · exact fun h => ⟨_, .taken hne hread, (Except.ok.inj h).symm⟩
      · rintro ⟨range, hlines, rfl⟩
        cases hlines with
        | kept hnil => exact absurd hnil hne
        | taken _ hother => rw [Except.ok.inj (hread.symm.trans hother)]

/-- A text is replaced just by one that is there and is not empty. -/
theorem newer_cases (old new : Option String) : newer old new = old ∨
    ∃ s, new = some s ∧ s ≠ "" ∧ newer old new = some s := by
  cases new with
  | none => exact .inl rfl
  | some s =>
    by_cases h : s = ""
    · exact .inl (by rw [newer, if_pos (by simpa using h)])
    · exact .inr ⟨s, rfl, h, newer_some h⟩

theorem newer_newer (old new : Option String) : newer (newer old new) new = newer old new := by
  rcases newer_cases old new with h | ⟨s, rfl, hs, h⟩
  · rw [h, h]
  · rw [h, newer_some hs]

/-- A text that may be replaced is written as before, or it is a text. -/
theorem get?_newer {name : String} {known other : Table Json} {old new : Option String}
    (hold : known.get? name = old.map Json.string)
    (hnew : other.get? name = (newer old new).map Json.string) :
    other.get? name = known.get? name ∨
      ∃ value s, other.get? name = some value ∧ text (merged value) = .ok s := by
  rcases newer_cases old new with h | ⟨s, -, -, h⟩
  · exact .inl (by rw [hnew, hold, h])
  · exact .inr ⟨.string s, s, by rw [hnew, h]; rfl, rfl⟩

/-- **A finding that is taken twice is taken once.** -/
theorem refresh_refresh (h : refresh anchor finding now = .ok next) :
    refresh next finding now = .ok next := by
  obtain ⟨range, hlines, rfl⟩ := refresh_eq_ok_iff.mp h
  refine refresh_eq_ok_iff.mpr ⟨range, ?_, ?_⟩
  · cases hlines with
    | kept hnil => exact .kept hnil
    | taken hne hread => exact .taken hne hread
  · unfold taking
    dsimp only
    rw [newer_newer, newer_newer]

/-- What a finding does not change is written as before. -/
theorem get?_fields_taking (anchor : Anchor) (finding : Finding) (now : Moment)
    (range : Option SourceRange) {name : String} (h : name ∉ refreshedNames) :
    (anchor.taking finding now range).fields.get? name = anchor.fields.get? name := by
  simp only [refreshedNames, List.mem_cons, List.not_mem_nil, or_false, not_or] at h
  obtain ⟨hselector, hhash, hrange, hstability, hupdated, hsnippet⟩ := h
  simp [fields, taking, get?_fieldOf?, Table.get?, Ne.symm hselector, Ne.symm hhash,
    Ne.symm hrange, Ne.symm hstability, Ne.symm hupdated, Ne.symm hsnippet]

/-- **A refreshed anchor can be stored if the anchor could be.** -/
theorem Storable.taking (h : Storable stamp anchor) {range : Option SourceRange}
    (hlines : Lines finding anchor.range range) (stamp' : String) :
    Storable stamp' (anchor.taking finding now range) := by
  obtain ⟨found, hfound⟩ := h
  obtain ⟨fields, hfields, hread⟩ := readFrom_of_ofJson hfound
  obtain rfl : written anchor.fields anchor.extra = fields := Json.object.inj hfields
  generalize hnext : anchor.taking finding now range = next
  have hextra : next.extra = anchor.extra := by rw [← hnext]; rfl
  have hold := anchor.nodup_names_fields
  have hnew := next.nodup_names_fields
  have hknown : ∀ name, name ∉ refreshedNames →
      next.fields.get? name = anchor.fields.get? name := by
    rw [← hnext]
    exact fun name => get?_fields_taking anchor finding now range
  -- What is found of a field that is written in any case.
  have hchanged : ∀ {key : Key} {value : Json}, next.fields.get? key.name = some value →
      key.get? (written next.fields anchor.extra) = some (merged value) ∨
        key.get? (written next.fields anchor.extra) =
          key.get? (written anchor.fields anchor.extra) :=
    fun hvalue => Key.get?_written_of_some hold hnew hvalue anchor.extra
  have hbefore := anchor.get?_fields
  have hafter := next.get?_fields
  simp only [keys, List.map_cons, List.cons.injEq] at hbefore hafter
  obtain ⟨-, -, hhashBefore, -, hrangeBefore, -, -, hsnippetBefore, -⟩ := hbefore
  obtain ⟨-, hselector, hhash, -, hrange, hstability, hupdated, hsnippet, -⟩ := hafter
  have hreadId : (Key.plain "id").required visibleId (written next.fields anchor.extra) =
      .ok found.id :=
    (required_congr (Key.get?_written_congr hold hnew (hknown "id" (by decide))
      (hknown "id" (by decide)) anchor.extra)).trans hread.id
  obtain ⟨selector, hreadSelector⟩ : ∃ a, (Key.plain "selector").required text
      (written next.fields anchor.extra) = .ok a := by
    rcases hchanged hselector with h | h
    · exact ⟨next.selector, required_of_get? _ h rfl⟩
    · exact ⟨_, (required_congr h).trans hread.selector⟩
  have hhashNewer : next.snippetHash = newer anchor.snippetHash finding.hash := by rw [← hnext]; rfl
  obtain ⟨snippetHash, hreadHash⟩ := exists_optional_written hold hnew hread.snippetHash
    ((get?_newer hhashBefore (hhash.trans (congrArg _ hhashNewer))).imp_left fun hname =>
      ⟨hname, hknown "snippet_hash" (by decide)⟩)
  obtain ⟨sourceFile, hreadFile⟩ := exists_optional_written hold hnew hread.sourceFile
    (.inl ⟨hknown "sourceFile" (by decide), hknown "source_file" (by decide)⟩)
  obtain ⟨lines, hreadRange⟩ := exists_optional_written hold hnew hread.range (by
    cases hlines with
    | kept =>
      refine .inl ⟨?_, hknown "source_range" (by decide)⟩
      rw [hrange, hrangeBefore, ← hnext]
      rfl
    | @taken lines _ htaken =>
      obtain ⟨-, -, hforeign⟩ := SourceRange.ofFields_eq_ok htaken
      obtain ⟨again, hagain⟩ := @SourceRange.exists_ofJson_merged lines
        fun field hfield key hkey => ne_name_of_mem_extras (hforeign ▸ hfield) hkey
      refine .inr ⟨lines.toJson, again, ?_, hagain⟩
      rw [hrange, ← hnext]
      rfl)
  obtain ⟨stability, hreadStability⟩ : ∃ a, (Key.plain "stability").defaulting 0 fraction
      (written next.fields anchor.extra) = .ok a := by
    rcases hchanged hstability with h | h
    · have hbounds : 0 ≤ next.stability ∧ next.stability ≤ 1 := by
        rw [← hnext]
        exact finding.confidence.stability_bounds
      exact ⟨next.stability, defaulting_of_get? _ h
        (fraction_float ⟨not_lt_of_le hbounds.2, not_lt_of_le hbounds.1⟩)⟩
    · exact ⟨_, (defaulting_congr h 0).trans hread.stability⟩
  obtain ⟨updatedAt, hreadUpdated⟩ : ∃ a, updatedKey.defaulting stamp' text
      (written next.fields anchor.extra) = .ok a := by
    rcases hchanged hupdated with h | h
    · exact ⟨next.updatedAt, defaulting_of_get? _ h rfl⟩
    · exact exists_defaulting ((defaulting_congr h stamp).trans hread.updatedAt) stamp'
  have hsnippetNewer : next.snippet = newer anchor.snippet finding.snippet := by rw [← hnext]; rfl
  obtain ⟨snippet, hreadSnippet⟩ := exists_optional_written hold hnew hread.snippet
    ((get?_newer hsnippetBefore (hsnippet.trans (congrArg _ hsnippetNewer))).imp_left fun hname =>
      ⟨hname, hname⟩)
  obtain ⟨hint, hreadHint⟩ := exists_optional_written hold hnew hread.hint
    (.inl ⟨hknown "hint" (by decide), hknown "hint" (by decide)⟩)
  obtain ⟨about, hreadAbout⟩ := exists_optional_written hold hnew hread.about
    (.inl ⟨hknown "meta" (by decide), hknown "meta" (by decide)⟩)
  refine ⟨⟨found.id, selector, snippetHash, sourceFile, lines, stability, updatedAt, snippet, hint,
    about, extras keys (written next.fields anchor.extra)⟩, ?_⟩
  show ofJson stamp' (.object (written next.fields next.extra)) = _
  rw [hextra]
  exact ReadFrom.ofJson_eq ⟨hreadId, hreadSelector, hreadHash, hreadFile, hreadRange,
    hreadStability, hreadUpdated, hreadSnippet, hreadHint, hreadAbout, rfl⟩

/-! ## All that is known of a refreshed anchor -/

/-- What a finding changes in an anchor, and what it does not. -/
structure Refreshed (finding : Finding) (now : Moment) (old new : Anchor) : Prop where
  id : new.id = old.id
  sourceFile : new.sourceFile = old.sourceFile
  hint : new.hint = old.hint
  about : new.about = old.about
  extra : new.extra = old.extra
  selector : new.selector = finding.selector
  updatedAt : new.updatedAt = now.text
  stability : 0 ≤ new.stability ∧ new.stability ≤ 1
  /-- A hash that is not empty is taken, and nothing else changes the hash. -/
  snippetHash : new.snippetHash = old.snippetHash ∨
    ∃ s, finding.hash = some s ∧ s ≠ "" ∧ new.snippetHash = some s
  snippet : new.snippet = old.snippet ∨
    ∃ s, finding.snippet = some s ∧ s ≠ "" ∧ new.snippet = some s
  range : (finding.range = [] ∧ new.range = old.range) ∨
    ∃ lines, finding.range ≠ [] ∧ new.range = some lines ∧
      SourceRange.Gives finding.range "start" lines.first ∧
      SourceRange.Gives finding.range "end" lines.last

theorem refreshed_taking {range : Option SourceRange} (h : Lines finding anchor.range range) :
    Refreshed finding now anchor (anchor.taking finding now range) where
  id := rfl
  sourceFile := rfl
  hint := rfl
  about := rfl
  extra := rfl
  selector := rfl
  updatedAt := rfl
  stability := finding.confidence.stability_bounds
  snippetHash := newer_cases anchor.snippetHash finding.hash
  snippet := newer_cases anchor.snippet finding.snippet
  range := by
    cases h with
    | kept hnil => exact .inl ⟨hnil, rfl⟩
    | @taken lines hne htaken =>
      obtain ⟨hfirst, hlast, -⟩ := SourceRange.ofFields_eq_ok htaken
      exact .inr ⟨lines, hne, rfl, hfirst, hlast⟩

/-- **Whatever is found, a refreshed anchor can be stored**, if the anchor could be; and nothing but
what was found changes in it.  A finding is refused just if it has lines and they are not in order.
Taken a second time, it changes nothing. -/
theorem refresh_storable (h : Storable stamp anchor) (finding : Finding) (now : Moment) :
    (finding.range ≠ [] ∧ ¬SourceRange.InOrder finding.range ∧
      ∃ problems, refresh anchor finding now = .error problems) ∨
    ((finding.range = [] ∨ SourceRange.InOrder finding.range) ∧
      ∃ next, refresh anchor finding now = .ok next ∧ Refreshed finding now anchor next ∧
        (∀ stamp', Storable stamp' next) ∧ refresh next finding now = .ok next) := by
  cases hrefresh : refresh anchor finding now with
  | error problems =>
    have hnone : ∀ range, ¬Lines finding anchor.range range := fun range hlines => by
      have hok : refresh anchor finding now = .ok (anchor.taking finding now range) :=
        refresh_eq_ok_iff.mpr ⟨range, hlines, rfl⟩
      exact absurd (hrefresh.symm.trans hok) (by simp)
    have hne : finding.range ≠ [] := fun hnil => hnone _ (.kept hnil)
    refine .inl ⟨hne, fun horder => ?_, problems, rfl⟩
    obtain ⟨lines, hlines⟩ := SourceRange.exists_ofFields_iff.mpr horder
    exact hnone _ (.taken hne hlines)
  | ok next =>
    obtain ⟨range, hlines, rfl⟩ := refresh_eq_ok_iff.mp hrefresh
    refine .inr ⟨?_, _, rfl, refreshed_taking hlines, h.taking hlines, refresh_refresh hrefresh⟩
    cases hlines with
    | kept hnil => exact .inl hnil
    | taken _ htaken => exact .inr (SourceRange.exists_ofFields_iff.mp ⟨_, htaken⟩)

/-- A finding that is certain beyond all numbers, with a hash and lines, but with an empty
fragment. -/
def boundless : Finding :=
  { selector := "#b", confidence := .float (0 / 0), hash := some "sha1:0"
    range := [("start", .int 2), ("end", .int 3)], snippet := some "" }

theorem refresh_storable_hiddenHash : Storable "" hiddenHashAnchor ∧
    ∃ next, refresh hiddenHashAnchor boundless (Moment.ofSeconds 0) = .ok next ∧
      Storable "" next ∧ next.snippet = none ∧ next.extra = hiddenHashAnchor.extra := by
  have hstorable : Storable "" hiddenHashAnchor := ⟨_, rfl⟩
  have horder : SourceRange.InOrder boundless.range :=
    ⟨2, 3, ⟨.int 2, rfl, rfl⟩, ⟨.int 3, rfl, rfl⟩, by decide, by decide⟩
  rcases refresh_storable hstorable boundless (Moment.ofSeconds 0) with
    ⟨-, hnot, -⟩ | ⟨-, next, hnext, hrefreshed, hagain, -⟩
  · exact absurd horder hnot
  · refine ⟨hstorable, next, hnext, hagain "", ?_, hrefreshed.extra⟩
    rcases hrefreshed.snippet with hkept | ⟨s, hs, hne, -⟩
    · exact hkept
    · exact absurd (Option.some.inj hs).symm hne

end Anchor

end Mooring
