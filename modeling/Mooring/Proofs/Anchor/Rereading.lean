import Mooring.Proofs.Anchor.Written

/-!
# What was read once can be read again

Whoever reads an anchor and writes it has another anchor in hand, but one that is written the same
way: what is written once does not change by being read and written again (`Lasting`).  That holds
of the anchors that were read from standard values (`lasting_of_ofJson`), unless a field of the
value or of its hint hides another one (`Anchor.hides`).

So the fields of the value are traced into the anchor (`ReadFrom`): each of its fields is what a
check made of the field that was found, and its unknown fields are what was left over.
-/

namespace Mooring

open Mooring.Record Mooring.Json

/-! ## Ranges, hints and descriptions -/

theorem SourceRange.extra_of_ofJson {value : Json} {range : SourceRange}
    (h : SourceRange.ofJson value = .ok range) :
    ∃ fields, value = .object fields ∧ range.extra = extras keys fields := by
  cases value with
  | object fields =>
    refine ⟨fields, rfl, ?_⟩
    change ofFields fields = .ok range at h
    unfold ofFields at h
    split at h
    next first last _ =>
      unfold ofLines at h
      split at h
      next => rw [← Except.ok.inj h]
      next => exact absurd h (by simp [Checked.refuse])
    next => exact absurd h (by simp)
  | _ => exact absurd h (by simp [SourceRange.ofJson, objectOf, Checked.refuse, bind, Except.bind])

theorem About.extra_of_ofJson {value : Json} {about : About} (h : About.ofJson value = .ok about) :
    ∃ fields, value = .object fields ∧ about.extra = extras keys fields := by
  cases value with
  | object fields =>
    refine ⟨fields, rfl, ?_⟩
    unfold About.ofJson objectOf at h
    simp only [bind, Except.bind] at h
    split at h
    next => exact absurd h (by simp)
    next => rw [← Except.ok.inj h]
  | _ => exact absurd h (by simp [About.ofJson, objectOf, Checked.refuse, bind, Except.bind])

namespace Hint

/-- The hint was read from these fields. -/
structure ReadFrom (fields : Table Json) (hint : Hint) : Prop where
  testid : (Key.plain "testid").optional text fields = .ok hint.testid
  role : (Key.plain "role").optional text fields = .ok hint.role
  label : labelKey.optional text fields = .ok hint.label
  expectedText : expectedTextKey.optional text fields = .ok hint.expectedText
  prefer : (Key.plain "prefer").optional (listOf text) fields = .ok hint.prefer
  extra : hint.extra = extras keys fields

theorem readFrom_of_ofJson {value : Json} {hint : Hint} (h : ofJson value = .ok hint) :
    ∃ fields, value = .object fields ∧ ReadFrom fields hint := by
  cases value with
  | object fields =>
    refine ⟨fields, rfl, ?_⟩
    unfold ofJson objectOf at h
    simp only [bind, Except.bind] at h
    split at h
    next => exact absurd h (by simp)
    next parts hparts =>
      obtain ⟨htestid, hparts⟩ := Checked.both_eq_ok hparts
      obtain ⟨hrole, hparts⟩ := Checked.both_eq_ok hparts
      obtain ⟨hlabel, hparts⟩ := Checked.both_eq_ok hparts
      obtain ⟨hexpected, hprefer⟩ := Checked.both_eq_ok hparts
      rw [← Except.ok.inj h]
      exact ⟨htestid, hrole, hlabel, hexpected, hprefer, rfl⟩
  | _ => exact absurd h (by simp [ofJson, objectOf, Checked.refuse, bind, Except.bind])

/-- A field of the hint that is read as missing hides another value. -/
def hides : Json → Bool
  | .object fields => keys.any (·.hides fields)
  | _ => false

/-- A hint whose value hides nothing comes back where it is written. -/
theorem leftover_of_ofJson {value : Json} {hint : Hint} (h : ofJson value = .ok hint)
    (hhides : hides value = false) : Leftover keys hint.fields hint.extra := by
  obtain ⟨fields, rfl, hread⟩ := readFrom_of_ofJson h
  rw [hread.extra]
  refine leftover_extras ?_ (List.any_eq_false.mp hhides)
  have hwritten := hint.get?_fields
  simp only [keys, List.map_cons, List.cons.injEq] at hwritten
  obtain ⟨htestid, hrole, hlabel, hexpected, hprefer, -⟩ := hwritten
  simp only [keys, List.forall_mem_cons]
  exact ⟨fun hnone => missing_of_optional hread.testid (htestid.symm.trans hnone),
    fun hnone => missing_of_optional hread.role (hrole.symm.trans hnone),
    fun hnone => missing_of_optional hread.label (hlabel.symm.trans hnone),
    fun hnone => missing_of_optional hread.expectedText (hexpected.symm.trans hnone),
    fun hnone => missing_of_optional hread.prefer (hprefer.symm.trans hnone),
    fun _ hmem => absurd hmem List.not_mem_nil⟩

end Hint

/-! ## Anchors -/

theorem Record.fraction_eq_ok {value : Json} {x : Float} (h : fraction value = .ok x) :
    ¬1 < x ∧ ¬x < 0 := by
  unfold fraction at h
  split at h
  next y _ =>
    split at h
    next => exact absurd h (by simp [Checked.refuse])
    next habove =>
      split at h
      next => exact absurd h (by simp [Checked.refuse])
      next hbelow => rw [← Except.ok.inj h]; exact ⟨habove, hbelow⟩
  next => exact absurd h (by simp)

namespace Anchor

/-- The anchor was read from these fields. -/
structure ReadFrom (stamp : String) (fields : Table Json) (anchor : Anchor) : Prop where
  id : (Key.plain "id").required visibleId fields = .ok anchor.id
  selector : (Key.plain "selector").required text fields = .ok anchor.selector
  snippetHash : hashKey.optional text fields = .ok anchor.snippetHash
  sourceFile : fileKey.optional text fields = .ok anchor.sourceFile
  range : rangeKey.optional SourceRange.ofJson fields = .ok anchor.range
  stability : (Key.plain "stability").defaulting 0 fraction fields = .ok anchor.stability
  updatedAt : updatedKey.defaulting stamp text fields = .ok anchor.updatedAt
  snippet : (Key.plain "snippet").optional text fields = .ok anchor.snippet
  hint : (Key.plain "hint").optional Hint.ofJson fields = .ok anchor.hint
  about : (Key.plain "meta").optional About.ofJson fields = .ok anchor.about
  extra : anchor.extra = extras keys fields

theorem readFrom_of_ofJson {stamp : String} {value : Json} {anchor : Anchor}
    (h : ofJson stamp value = .ok anchor) :
    ∃ fields, value = .object fields ∧ ReadFrom stamp fields anchor := by
  cases value with
  | object fields =>
    refine ⟨fields, rfl, ?_⟩
    unfold ofJson objectOf at h
    simp only [bind, Except.bind] at h
    split at h
    next => exact absurd h (by simp)
    next parts hparts =>
      obtain ⟨hid, hparts⟩ := Checked.both_eq_ok hparts
      obtain ⟨hselector, hparts⟩ := Checked.both_eq_ok hparts
      obtain ⟨hhash, hparts⟩ := Checked.both_eq_ok hparts
      obtain ⟨hfile, hparts⟩ := Checked.both_eq_ok hparts
      obtain ⟨hrange, hparts⟩ := Checked.both_eq_ok hparts
      obtain ⟨hstability, hparts⟩ := Checked.both_eq_ok hparts
      obtain ⟨hupdated, hparts⟩ := Checked.both_eq_ok hparts
      obtain ⟨hsnippet, hparts⟩ := Checked.both_eq_ok hparts
      obtain ⟨hhint, habout⟩ := Checked.both_eq_ok hparts
      rw [← Except.ok.inj h]
      exact ⟨hid, hselector, hhash, hfile, hrange, hstability, hupdated, hsnippet, hhint, habout, rfl⟩
  | _ => exact absurd h (by simp [ofJson, objectOf, Checked.refuse, bind, Except.bind])

/-- What the checks make of the fields is the anchor that is read. -/
theorem ReadFrom.ofJson_eq {stamp : String} {fields : Table Json} {anchor : Anchor}
    (h : ReadFrom stamp fields anchor) : ofJson stamp (.object fields) = .ok anchor := by
  unfold ofJson objectOf
  simp only [bind, Except.bind, h.id, h.selector, h.snippetHash, h.sourceFile, h.range,
    h.stability, h.updatedAt, h.snippet, h.hint, h.about, Checked.both_ok, pure, Except.pure]
  rw [← h.extra]

/-- A field of the anchor or of its hint that is read as missing hides another value. -/
def hides : Json → Bool
  | .object fields =>
    keys.any (·.hides fields) || ((Key.plain "hint").get? fields).any Hint.hides
  | _ => false

/-- **An anchor whose value hides nothing comes back where it is written.** -/
theorem readable_of_ofJson {stamp : String} {value : Json} {anchor : Anchor}
    (h : ofJson stamp value = .ok anchor) (hhides : hides value = false) : anchor.Readable := by
  obtain ⟨fields, rfl, hread⟩ := readFrom_of_ofJson h
  obtain ⟨hkeys, hinner⟩ := Bool.or_eq_false_iff.mp hhides
  refine ⟨?id, ?stability, ?range, ?hint, ?about, ?extra⟩
  case id =>
    obtain ⟨value, -, hvisible⟩ := required_eq_ok hread.id
    cases value with
    | string id => rw [visibleId_eq_ok hvisible]; rwa [visibleId_eq_ok hvisible] at hvisible
    | _ => exact absurd hvisible (by simp [visibleId, text, Checked.refuse, bind, Except.bind])
  case stability =>
    rcases defaulting_eq_ok hread.stability with ⟨hdefault, -⟩ | ⟨value, -, hfraction⟩
    · rw [hdefault]
      decide +kernel
    · exact fraction_eq_ok hfraction
  case range =>
    intro range hrange
    rcases optional_eq_ok hread.range with ⟨hnone, -⟩ | ⟨value, found, -, hfound, hsome⟩
    · exact absurd (hnone.symm.trans hrange) (by simp)
    · obtain rfl := Option.some.inj (hsome.symm.trans hrange)
      obtain ⟨parts, -, hextra⟩ := SourceRange.extra_of_ofJson hfound
      rw [hextra]
      exact leftover_of_plain (by simp [SourceRange.keys, Key.plain])
        (fun _ hfield _ hkey => ne_name_of_mem_extras hfield hkey) _
  case hint =>
    intro hint hhint
    rcases optional_eq_ok hread.hint with ⟨hnone, -⟩ | ⟨value, found, hvalue, hfound, hsome⟩
    · exact absurd (hnone.symm.trans hhint) (by simp)
    · obtain rfl := Option.some.inj (hsome.symm.trans hhint)
      rw [hvalue] at hinner
      exact Hint.leftover_of_ofJson hfound hinner
  case about =>
    intro about habout
    rcases optional_eq_ok hread.about with ⟨hnone, -⟩ | ⟨value, found, -, hfound, hsome⟩
    · exact absurd (hnone.symm.trans habout) (by simp)
    · obtain rfl := Option.some.inj (hsome.symm.trans habout)
      obtain ⟨parts, -, hextra⟩ := About.extra_of_ofJson hfound
      rw [hextra]
      exact leftover_of_plain (by simp [About.keys, Key.plain])
        (fun _ hfield _ hkey => ne_name_of_mem_extras hfield hkey) _
  case extra =>
    rw [hread.extra]
    refine leftover_extras ?_ (List.any_eq_false.mp hkeys)
    have hwritten := anchor.get?_fields
    simp only [keys, List.map_cons, List.cons.injEq] at hwritten
    obtain ⟨hid, hselector, hhash, hfile, hrange, hstability, hupdated, hsnippet, hhint, habout,
      -⟩ := hwritten
    simp only [keys, List.forall_mem_cons]
    exact ⟨fun hnone => absurd (hid.symm.trans hnone) (by simp),
      fun hnone => absurd (hselector.symm.trans hnone) (by simp),
      fun hnone => missing_of_optional hread.snippetHash (hhash.symm.trans hnone),
      fun hnone => missing_of_optional hread.sourceFile (hfile.symm.trans hnone),
      fun hnone => missing_of_optional hread.range (hrange.symm.trans hnone),
      fun hnone => absurd (hstability.symm.trans hnone) (by simp),
      fun hnone => absurd (hupdated.symm.trans hnone) (by simp),
      fun hnone => missing_of_optional hread.snippet (hsnippet.symm.trans hnone),
      fun hnone => missing_of_optional hread.hint (hhint.symm.trans hnone),
      fun hnone => missing_of_optional hread.about (habout.symm.trans hnone),
      fun _ hmem => absurd hmem List.not_mem_nil⟩

/-- A part was read from a value that stands in one of the fields. -/
theorem exists_of_optional {α : Type} {key : Key} {check : Json → Checked α}
    {fields : Table Json} {part : Option α} (h : key.optional check fields = .ok part) :
    ∀ x ∈ part, ∃ field ∈ fields, check field.2 = .ok x := by
  intro x hx
  rcases optional_eq_ok h with ⟨hnone, -⟩ | ⟨value, found, hvalue, hfound, hsome⟩
  · exact absurd (hnone.symm.trans hx) (by simp)
  · obtain rfl := Option.some.inj (hsome.symm.trans hx)
    obtain ⟨name, hmem⟩ := Key.mem_of_get? hvalue
    exact ⟨(name, value), hmem, hfound⟩

/-- What holds of a value and of all that stands in it decides about what is left over of it, in the
anchor that is read from it and in the parts of that anchor. -/
theorem extras_of_ofJson {P : Json → Prop} {Q : Table Json → Prop}
    (hfield : ∀ fields, P (.object fields) → ∀ field ∈ fields, P field.2)
    (hextras : ∀ fields keys, P (.object fields) → Q (extras keys fields))
    {stamp : String} {value : Json} {anchor : Anchor} (h : ofJson stamp value = .ok anchor)
    (hvalue : P value) :
    (∀ range ∈ anchor.range, Q range.extra) ∧ (∀ hint ∈ anchor.hint, Q hint.extra) ∧
      (∀ about ∈ anchor.about, Q about.extra) ∧ Q anchor.extra := by
  obtain ⟨fields, rfl, hread⟩ := readFrom_of_ofJson h
  refine ⟨?range, ?hint, ?about, hread.extra ▸ hextras fields keys hvalue⟩
  case range =>
    intro range hrange
    obtain ⟨field, hmem, hfound⟩ := exists_of_optional hread.range range hrange
    obtain ⟨parts, hparts, hextra⟩ := SourceRange.extra_of_ofJson hfound
    exact hextra ▸ hextras parts _ (hparts ▸ hfield fields hvalue field hmem)
  case hint =>
    intro hint hhint
    obtain ⟨field, hmem, hfound⟩ := exists_of_optional hread.hint hint hhint
    obtain ⟨parts, hparts, hfrom⟩ := Hint.readFrom_of_ofJson hfound
    exact hfrom.extra ▸ hextras parts _ (hparts ▸ hfield fields hvalue field hmem)
  case about =>
    intro about habout
    obtain ⟨field, hmem, hfound⟩ := exists_of_optional hread.about about habout
    obtain ⟨parts, hparts, hextra⟩ := About.extra_of_ofJson hfound
    exact hextra ▸ hextras parts _ (hparts ▸ hfield fields hvalue field hmem)

/-- **All unknown fields of an anchor that was read from a standard value are portable.** -/
theorem portable_of_ofJson {stamp : String} {value : Json} {anchor : Anchor}
    (h : ofJson stamp value = .ok anchor) (hstandard : Standard value) : anchor.Portable := by
  obtain ⟨hrange, hhint, habout, hextra⟩ := extras_of_ofJson (fun _ hobject => hobject.field)
    (fun _ keys hobject => portable_extras hobject keys) h hstandard
  exact ⟨hrange, hhint, habout, hextra⟩

/-- **All unknown fields of an anchor that was read from a settled value are tidy.** -/
theorem tidy_of_ofJson {stamp : String} {value : Json} {anchor : Anchor}
    (h : ofJson stamp value = .ok anchor) (hsettled : Settled value) : anchor.Tidy := by
  obtain ⟨hrange, hhint, habout, hextra⟩ := extras_of_ofJson (fun _ hobject => hobject.field)
    (fun _ keys hobject => tidy_extras hobject keys) h hsettled
  exact ⟨hrange, hhint, habout, hextra⟩

/-- What an anchor is written as is read again, as an anchor that is written the same way. -/
structure Lasting (anchor : Anchor) : Prop where
  settled : Settled anchor.toJson
  again : ∀ stamp, ∃ found, ofJson stamp anchor.toJson = .ok found ∧ found.toJson = anchor.toJson

/-- **An anchor that was read from a standard value lasts**, if nothing in the value hides another
value. -/
theorem lasting_of_ofJson {stamp : String} {value : Json} {anchor : Anchor}
    (h : ofJson stamp value = .ok anchor) (hstandard : Standard value)
    (hhides : hides value = false) : anchor.Lasting := by
  have hreadable := readable_of_ofJson h hhides
  have hportable := portable_of_ofJson h hstandard
  exact ⟨hreadable.settled hportable.tidy, fun stamp =>
    ⟨anchor.asWritten, hreadable.ofJson_toJson stamp, hportable.toJson_asWritten⟩⟩

/-- Anchors that are written the same way last alike. -/
theorem Lasting.congr {anchor other : Anchor} (h : anchor.Lasting)
    (hsame : other.toJson = anchor.toJson) : other.Lasting :=
  ⟨hsame ▸ h.settled, hsame ▸ h.again⟩

/-- The id can be told from what is written. -/
theorem id_eq_of_toJson_eq {anchor other : Anchor} (h : other.toJson = anchor.toJson) :
    other.id = anchor.id := by
  have hfirst := (List.cons.inj (Json.object.inj h)).1
  exact Json.string.inj (Prod.mk.inj hfirst).2

end Anchor

/-! ## Documents -/

namespace Document

theorem distinctAnchors_eq_ok {stamp : String} {items : List Json} {anchors : List Anchor}
    (h : distinctAnchors stamp (.array items) = .ok anchors) :
    List.Forall₂ (fun item anchor => Anchor.ofJson stamp item = .ok anchor) items anchors ∧
      (anchors.map (·.id)).Nodup := by
  unfold distinctAnchors at h
  cases hitems : listOf (Anchor.ofJson stamp) (.array items) with
  | error problems => rw [hitems] at h; exact absurd h (by simp [bind, Except.bind])
  | ok found =>
    rw [hitems] at h
    simp only [bind, Except.bind] at h
    split at h
    next => exact absurd h (by simp [Checked.refuse])
    next hdistinct =>
      rw [← Except.ok.inj h]
      exact ⟨items_eq_ok hitems, (nodup_of_firstRepeated? hdistinct).1⟩

/-- The document was read from these fields. -/
structure ReadFrom (stamp : String) (fields : Table Json) (document : Document) :
    Prop where
  anchors : (Key.plain "anchors").defaulting [] (distinctAnchors stamp) fields =
    .ok document.anchors
  extra : document.extra = extras keys fields

theorem readFrom_of_ofFields {stamp : String} {fields : Table Json} {document : Document}
    (h : ofFields stamp fields = .ok document) :
    ReadFrom stamp fields document := by
  unfold ofFields at h
  cases hboth : Checked.both ((Key.plain "version").defaulting "1.0.0" text fields)
      ((Key.plain "anchors").defaulting [] (distinctAnchors stamp) fields) with
  | error problems => rw [hboth] at h; exact absurd h (by simp [bind, Except.bind])
  | ok pair =>
    rw [hboth] at h
    rw [← Except.ok.inj h]
    exact ⟨(Checked.both_eq_ok hboth).2, rfl⟩

variable {stamp : String} {fields : Table Json} {document : Document}

/-- There are no anchors, or the anchors are those of a list. -/
theorem ReadFrom.items (h : ReadFrom stamp fields document) :
    (document.anchors = [] ∧ fields.get? "anchors" = none) ∨
      ∃ items, fields.get? "anchors" = some (.array items) ∧
        List.Forall₂ (fun item anchor => Anchor.ofJson stamp item = .ok anchor) items
          document.anchors ∧ (document.anchors.map (·.id)).Nodup := by
  rcases defaulting_eq_ok h.anchors with ⟨hnone, hget⟩ | ⟨value, hget, hvalue⟩
  · exact .inl ⟨hnone, (Key.get?_plain "anchors" fields).symm.trans hget⟩
  · rw [Key.get?_plain] at hget
    cases value with
    | array items => exact .inr ⟨items, hget, distinctAnchors_eq_ok hvalue⟩
    | _ =>
      exact absurd hvalue (by simp [distinctAnchors, listOf, Checked.refuse, bind, Except.bind])

theorem ReadFrom.of_items (h : ReadFrom stamp fields document) {items : List Json}
    (hitems : fields.get? "anchors" = some (.array items)) :
    List.Forall₂ (fun item anchor => Anchor.ofJson stamp item = .ok anchor) items document.anchors ∧
      (document.anchors.map (·.id)).Nodup := by
  rcases h.items with ⟨-, hnone⟩ | ⟨found, hfound, hread⟩
  · exact absurd (hnone.symm.trans hitems) (by simp)
  · obtain rfl := Json.array.inj (Option.some.inj (hfound.symm.trans hitems))
    exact hread

theorem ReadFrom.nodup_ids (h : ReadFrom stamp fields document) : document.ids.Nodup := by
  rcases h.items with ⟨hnone, -⟩ | ⟨items, -, -, hnodup⟩
  · unfold ids
    rw [hnone]
    exact List.nodup_nil
  · exact hnodup

/-- Each anchor was read from an item of the list. -/
theorem ReadFrom.exists_item (h : ReadFrom stamp fields document) {anchor : Anchor}
    (hanchor : anchor ∈ document.anchors) : ∃ items, fields.get? "anchors" = some (.array items) ∧
      ∃ item ∈ items, Anchor.ofJson stamp item = .ok anchor := by
  rcases h.items with ⟨hnone, -⟩ | ⟨items, hitems, hread, -⟩
  · rw [hnone] at hanchor
    exact absurd hanchor List.not_mem_nil
  · exact ⟨items, hitems, exists_of_forall₂ hread.flip hanchor⟩

/-- The anchors of documents that are written the same way are written the same way. -/
theorem anchors_of_toJson_eq {document other : Document}
    (h : other.toJson = document.toJson) :
    List.Forall₂ (fun anchor found => found.toJson = anchor.toJson) document.anchors
      other.anchors := by
  have hlists := (Prod.mk.inj (List.cons.inj (List.cons.inj (Json.object.inj h)).2).1).2
  have hsame : List.Forall₂ (· = ·) (other.anchors.map Anchor.toJson)
      (document.anchors.map Anchor.toJson) := by
    rw [List.forall₂_eq_eq_eq]
    exact Json.array.inj hlists
  exact (List.forall₂_map_left_iff.mp (List.forall₂_map_right_iff.mp hsame)).flip

/-- An anchor of the document hides a value. -/
def hides : Json → Bool
  | .object fields =>
    match Table.get? "anchors" fields with
    | some (.array items) => items.any Anchor.hides
    | _ => false
  | _ => false

theorem hides_item {fields : Table Json} (h : hides (.object fields) = false) {items : List Json}
    (hitems : Table.get? "anchors" fields = some (.array items)) :
    ∀ item ∈ items, Anchor.hides item = false := by
  have hinner : items.any Anchor.hides = false := by
    unfold hides at h
    simpa only [hitems] using h
  exact fun item hitem => Bool.eq_false_iff.mpr (List.any_eq_false.mp hinner item hitem)

/-- What makes a document that is written come back as one that is written the same way. -/
structure Lasting (document : Document) : Prop where
  leftover : Leftover keys document.fields document.extra
  portable : Record.Portable document.extra
  anchors : ∀ anchor ∈ document.anchors, anchor.Lasting
  ids : document.ids.Nodup

theorem plain_keys : ∀ key ∈ keys, key.spelling = key.name := by
  simp [keys, Key.plain]

theorem lasting_empty : Lasting {} :=
  ⟨leftover_nil _ _, portable_nil, fun _ h => absurd h List.not_mem_nil, List.nodup_nil⟩

/-- **A document that was read from a standard value lasts**, if nothing in it hides a value. -/
theorem lasting_of_ofFields (h : ofFields stamp fields = .ok document)
    (hstandard : Standard (.object fields)) (hhides : hides (.object fields) = false) :
    document.Lasting := by
  have hread := readFrom_of_ofFields h
  refine ⟨?leftover, hread.extra ▸ portable_extras hstandard keys, ?anchors, hread.nodup_ids⟩
  case leftover =>
    rw [hread.extra]
    exact leftover_of_plain plain_keys
      (fun _ hfield _ hkey => ne_name_of_mem_extras hfield hkey) _
  case anchors =>
    intro anchor hanchor
    obtain ⟨items, hitems, item, hitem, hfound⟩ := hread.exists_item hanchor
    have hlist := hstandard.field _ (Table.mem_of_get? hitems)
    exact Anchor.lasting_of_ofJson hfound (hlist.item item hitem) (hides_item hhides hitems item hitem)

/-- **A document that was read from a settled value can be read as it is written**, if nothing in it
hides a value. -/
theorem readable_of_ofFields (h : ofFields stamp fields = .ok document)
    (hsettled : Settled (.object fields)) (hhides : hides (.object fields) = false) :
    document.Readable := by
  have hread := readFrom_of_ofFields h
  refine ⟨?leftover, hread.extra ▸ tidy_extras hsettled keys, ?anchors, hread.nodup_ids⟩
  case leftover =>
    rw [hread.extra]
    exact leftover_of_plain plain_keys
      (fun _ hfield _ hkey => ne_name_of_mem_extras hfield hkey) _
  case anchors =>
    intro anchor hanchor
    obtain ⟨items, hitems, item, hitem, hfound⟩ := hread.exists_item hanchor
    have hlist := hsettled.field _ (Table.mem_of_get? hitems)
    exact ⟨Anchor.readable_of_ofJson hfound (hides_item hhides hitems item hitem),
      Anchor.tidy_of_ofJson hfound (hlist.item item hitem)⟩

theorem Lasting.settled_toJson (h : document.Lasting) : Settled document.toJson :=
  settled h.leftover h.portable.tidy fun anchor hanchor => (h.anchors anchor hanchor).settled

/-- **Written and read, a document that lasts is one that is written the same way, and lasts.** -/
theorem Lasting.again (h : document.Lasting) (stamp : String) : ∃ found,
    ofJson stamp document.toJson = .ok found ∧ found.toJson = document.toJson ∧ found.Lasting := by
  obtain ⟨found, hfound⟩ := exists_forall₂ fun anchor hanchor =>
    (h.anchors anchor hanchor).again stamp
  have hjson : found.map Anchor.toJson = document.anchors.map Anchor.toJson :=
    map_eq_of_forall₂ hfound fun _ _ hpair => hpair.2
  have hsame : found.map (·.id) = document.anchors.map (·.id) :=
    map_eq_of_forall₂ hfound fun _ _ hpair => Anchor.id_eq_of_toJson_eq hpair.2
  have hids : (found.map (·.id)).Nodup := hsame ▸ h.ids
  have hread := ofFields_of_forall₂ h.leftover (hfound.imp fun _ _ hpair => hpair.1) hids
  refine ⟨_, hread, ?same, ?leftover, h.portable.extraFields, ?anchors, hids⟩
  case same =>
    unfold toJson
    dsimp only
    rw [hjson, h.portable.extraFields_extraFields]
  case leftover =>
    refine leftover_of_plain plain_keys (fun field hfield key hkey => ?_) _
    obtain ⟨value, hvalue, -⟩ := mem_extraFields_iff.mp hfield
    exact h.leftover.foreign (field.1, value) hvalue key hkey
  case anchors =>
    intro anchor hanchor
    obtain ⟨original, horiginal, hpair⟩ := exists_of_forall₂ hfound.flip hanchor
    exact (h.anchors original horiginal).congr hpair.2

end Document

/-! ## Reading and writing once more -/

/-- **What was read and written is a fixpoint of reading and writing**: it is read again, as
something that is written the same way.  That holds of documents and of anchors that were read from
a standard value in which no field that counts as missing hides another value. -/
theorem reread_toJson {value : Json} (hstandard : Standard value) :
    (∀ stamp document, Document.ofJson stamp value = .ok document → Document.hides value = false →
      ∀ later, ∃ found, Document.ofJson later document.toJson = .ok found ∧
        found.toJson = document.toJson) ∧
    ∀ stamp anchor, Anchor.ofJson stamp value = .ok anchor → Anchor.hides value = false →
      ∀ later, ∃ found, Anchor.ofJson later anchor.toJson = .ok found ∧
        found.toJson = anchor.toJson := by
  constructor
  · intro stamp document h hhides later
    cases value with
    | object fields =>
      obtain ⟨found, hread, hsame, -⟩ :=
        (Document.lasting_of_ofFields h hstandard hhides).again later
      exact ⟨found, hread, hsame⟩
    | _ =>
      exact absurd h (by simp [Document.ofJson, objectOf, Checked.refuse, bind, Except.bind])
  · intro stamp anchor h hhides later
    exact (Anchor.lasting_of_ofJson h hstandard hhides).again later

/-- A document in other spellings than the written ones, with unknown fields on each level. -/
def looseDocument : Json :=
  .object [("owner", .string "ui"), ("anchors", .array [.object [("id", .string "save"),
    ("selector", .string "#save"), ("snippet_hash", .string "h"),
    ("source_range", .object [("start", .string " 3 "), ("end", .int 4), ("note", .array [.null])]),
    ("hint", .object [("aria_label", .string "Save"), ("seen", .bool true)]),
    ("snippet", .null), ("snippetId", .int 7), ("team", .null)]])]

theorem reread_toJson_loose : Standard looseDocument ∧ Document.hides looseDocument = false ∧
    ∃ document, Document.ofJson "t" looseDocument = .ok document ∧
      ∃ found, Document.ofJson "u" document.toJson = .ok found ∧
        found.toJson = document.toJson := by
  have hstandard : Standard looseDocument := ⟨rfl, rfl⟩
  have hhides : Document.hides looseDocument = false := by decide
  refine ⟨hstandard, hhides, _, rfl, ?_⟩
  exact (reread_toJson hstandard).1 "t" _ rfl hhides "u"

/-- An anchor whose hash is null, while a text stands under its second spelling. -/
def hiddenHash : Json :=
  .object [("id", .string "a"), ("selector", .string "#a"), ("snippetHash", .null),
    ("snippet_hash", .string "h"), ("updatedAt", .string "t")]

/-- The anchor has no hash, and an unknown field. -/
def hiddenHashAnchor : Anchor :=
  { id := "a", selector := "#a", updatedAt := "t", extra := [("snippet_hash", .string "h")] }

/-- The text is written under the spelling it came with; read again, it is the hash, and is written
as that. -/
theorem toJson_ne_of_reread_hiddenHash {stamp : String} {found : Anchor}
    (h : Anchor.ofJson stamp hiddenHashAnchor.toJson = .ok found) :
    found.toJson ≠ hiddenHashAnchor.toJson := by
  intro hsame
  obtain ⟨fields, hfields, hread⟩ := Anchor.readFrom_of_ofJson h
  obtain rfl := Json.object.inj hfields
  have hhash : found.snippetHash = some "h" := (Except.ok.inj hread.snippetHash).symm
  have hwritten := Json.object.inj hsame
  rw [hhash] at hwritten
  -- The third field of the one is the hash, and of the other the stability.
  have hrest := (List.cons.inj (List.cons.inj hwritten).2).2
  have hname : "snippetHash" = "stability" := (Prod.mk.inj (List.cons.inj hrest).1).1
  exact absurd hname (by decide)

/-- **A hidden value comes up** when the document is read again. -/
theorem hidden_value_comes_up : ¬∀ value, Standard value → ∀ stamp document,
    Document.ofJson stamp value = .ok document → ∀ later, ∃ found,
      Document.ofJson later document.toJson = .ok found ∧ found.toJson = document.toJson := by
  intro h
  obtain ⟨found, hfound, hsame⟩ :=
    h (.object [("anchors", .array [hiddenHash])]) ⟨rfl, rfl⟩ "" _ rfl ""
  rw [Document.ofJson_toJson] at hfound
  obtain ⟨hitems, -⟩ := (Document.readFrom_of_ofFields hfound).of_items rfl
  have hanchors := Document.anchors_of_toJson_eq hsame
  generalize found.anchors = anchors at hitems hanchors
  cases hitems with
  | cons hread _ =>
    cases hanchors with
    | cons hfirst _ => exact toJson_ne_of_reread_hiddenHash hread hfirst

end Mooring
