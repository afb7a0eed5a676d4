import Mooring.Proofs.Store.Sharing

/-!
# Unknown fields outlive a put

A put rewrites the whole file.  What the file held besides the known fields is written back: at the
level of the document, in each anchor but the one that is put, and in the range, the hint and the
description of such an anchor, every unknown field has the value that it had; and those anchors stay
in their order (`put_keeps_unknown`).

There is one exception.  An unknown field that is null is left out (`null_lost`), and so is one
whose value is not a number that JSON has.  Inside the value of an unknown field nulls stay.

Each level is the same argument, made once for any record (`unknownKept_written`): what no field
took is left over, is written behind the known fields, and is found there by a reader.
-/

namespace Mooring

open Mooring.Record Mooring.Json

/-- The fields of an object; a value of another kind has none. -/
def Json.fieldsOf : Json → Table Json
  | .object fields => fields
  | _ => []

/-- The items of a list; a value of another kind has none. -/
def Json.itemsOf : Json → List Json
  | .array items => items
  | _ => []

/-- What a reader finds under a name of an object. -/
theorem Json.get?_merged {fields : Table Json} (h : (Table.names fields).Nodup) (name : String) :
    Table.get? name (merged (.object fields)).fieldsOf = (fields.get? name).map merged := by
  have hnames : (Table.names (mergedFields fields)).Nodup := by
    rw [names_mergedFields]
    exact h
  show Table.get? name (Table.ofPairs (mergedFields fields)) = _
  rw [Table.ofPairs_of_nodup hnames, mergedFields_eq_map, Table.get?_map]

/-! ## One record -/

namespace Record

/-- Each unknown field of a record that is not null is still there, with its value: the names of the
known fields are those of `keys`, in both spellings. -/
def UnknownKept (keys : List Key) (old new : Json) : Prop :=
  ∀ name value, (∀ key ∈ keys, name ≠ key.name ∧ name ≠ key.spelling) →
    Table.get? name old.fieldsOf = some value → value ≠ .null → value.finite = value →
      Table.get? name new.fieldsOf = some value

/-- What stands in a field of a record; null if nothing does. -/
def Key.part (key : Key) (value : Json) : Json :=
  (key.get? value.fieldsOf).getD .null

theorem unknownKept_of_null (keys : List Key) (new : Json) : UnknownKept keys .null new :=
  fun _ _ _ hget => absurd hget (by simp [fieldsOf, Table.get?])

/-- **What is left over of a record is written behind its fields, and found there.** -/
theorem unknownKept_written {keys : List Key} {old known : Table Json}
    (hsettled : Settled (.object old))
    (hnames : (Table.names known).Sublist (keys.map (·.name)))
    (hkeys : (keys.map (·.name)).Nodup) :
    UnknownKept keys (.object old) (merged (.object (known ++ extraFields (extras keys old)))) := by
  intro name value hunknown hget hnull hfinite
  have hmem : (name, value) ∈ old := Table.mem_of_get? hget
  have hextra : (name, value) ∈ extras keys old := by
    refine mem_extras_iff.mpr ⟨hmem, fun key hkey hfound => ?_⟩
    obtain ⟨hname, hspelling⟩ := hunknown key hkey
    unfold Key.found? at hfound
    split at hfound
    next => exact hname (Option.some.inj hfound).symm
    next =>
      split at hfound
      next => exact hspelling (Option.some.inj hfound).symm
      next => exact absurd hfound (by simp)
  have hwritten : (name, value) ∈ extraFields (extras keys old) :=
    mem_extraFields_iff.mpr ⟨value, hextra, hnull, hfinite.symm⟩
  have hnodup : (Table.names (known ++ extraFields (extras keys old))).Nodup :=
    nodup_names_written (fun _ hfield _ hkey => ne_name_of_mem_extras hfield hkey)
      (hsettled.nodup.sublist (List.filter_sublist.map _)) hnames hkeys
  rw [get?_merged hnodup, Table.get?_of_mem hnodup (List.mem_append_right _ hwritten)]
  exact congrArg some (hsettled.field _ hmem)

/-- What is kept of a part of a record, if the part is written as what was read. -/
theorem unknownKept_part {α : Type} {key : Key} {check : Json → Checked α} {encode : α → Json}
    {keys : List Key} {old : Table Json} {part : Option α} {new : Json}
    (hsettled : Settled (.object old)) (hread : key.optional check old = .ok part)
    (hwritten : ∀ x ∈ part, Table.get? key.name new.fieldsOf = some (merged (encode x)))
    (hpart : ∀ value x, Settled value → check value = .ok x →
      UnknownKept keys value (merged (encode x))) :
    UnknownKept keys (key.part (.object old)) (key.part new) := by
  rcases optional_eq_ok hread with ⟨-, hmissing⟩ | ⟨value, x, hvalue, hfound, rfl⟩
  · have hnull : key.part (.object old) = .null := by
      show (key.get? old).getD .null = .null
      rcases hmissing with hnone | hnull
      · rw [hnone]; rfl
      · rw [hnull]; rfl
    rw [hnull]
    exact unknownKept_of_null keys _
  · obtain ⟨name, hmem⟩ := Key.mem_of_get? hvalue
    have hold : key.part (.object old) = value := by
      show (key.get? old).getD .null = value
      rw [hvalue]
      rfl
    have hnew : key.part new = merged (encode x) := by
      unfold Key.part
      rw [Key.get?_eq, hwritten x rfl]
      rfl
    rw [hold, hnew]
    exact hpart value x (hsettled.field _ hmem) hfound

end Record

/-! ## Anchors -/

theorem SourceRange.unknownKept {value : Json} {range : SourceRange} (hsettled : Settled value)
    (h : SourceRange.ofJson value = .ok range) :
    UnknownKept keys value (merged range.toJson) := by
  obtain ⟨fields, rfl, hextra⟩ := extra_of_ofJson h
  show UnknownKept keys _ (merged (.object (range.fields ++ extraFields range.extra)))
  rw [hextra]
  exact unknownKept_written hsettled (List.Sublist.refl _) (by decide)

theorem Hint.unknownKept {value : Json} {hint : Hint} (hsettled : Settled value)
    (h : Hint.ofJson value = .ok hint) : UnknownKept keys value (merged hint.toJson) := by
  obtain ⟨fields, rfl, hread⟩ := readFrom_of_ofJson h
  show UnknownKept keys _ (merged (.object (hint.fields ++ extraFields hint.extra)))
  rw [hread.extra]
  exact unknownKept_written hsettled hint.names_fields (by decide)

theorem About.unknownKept {value : Json} {about : About} (hsettled : Settled value)
    (h : About.ofJson value = .ok about) : UnknownKept keys value (merged about.toJson) := by
  obtain ⟨fields, rfl, hextra⟩ := extra_of_ofJson h
  show UnknownKept keys _ (merged (.object (about.fields ++ extraFields about.extra)))
  rw [hextra]
  exact unknownKept_written hsettled about.names_fields (by decide)

namespace Anchor

/-- The id in the JSON of an anchor. -/
def idOf? (value : Json) : Option String :=
  match Table.get? "id" value.fieldsOf with
  | some (.string id) => some id
  | _ => none

/-- The anchor is still there: it has the same id, and all unknown fields, also in its parts. -/
structure AllKept (old new : Json) : Prop where
  id : idOf? new = idOf? old
  own : UnknownKept keys old new
  range : UnknownKept SourceRange.keys (rangeKey.part old) (rangeKey.part new)
  hint : UnknownKept Hint.keys ((Key.plain "hint").part old) ((Key.plain "hint").part new)
  about : UnknownKept About.keys ((Key.plain "meta").part old) ((Key.plain "meta").part new)

theorem AllKept.refl (value : Json) : AllKept value value :=
  ⟨rfl, fun _ _ _ h _ _ => h, fun _ _ _ h _ _ => h, fun _ _ _ h _ _ => h, fun _ _ _ h _ _ => h⟩

variable {stamp : String} {value : Json} {anchor : Anchor}

theorem idOf?_of_ofJson (h : ofJson stamp value = .ok anchor) : idOf? value = some anchor.id := by
  obtain ⟨fields, rfl, hread⟩ := readFrom_of_ofJson h
  obtain ⟨id, hid, hvisible⟩ := required_eq_ok hread.id
  rw [Key.get?_plain] at hid
  cases id with
  | string id =>
    obtain rfl := visibleId_eq_ok hvisible
    unfold idOf? fieldsOf
    rw [hid]
  | _ => exact absurd hvisible (by simp [visibleId, text, Checked.refuse, bind, Except.bind])

theorem Clean.idOf?_toJson (h : anchor.Clean) : idOf? (merged anchor.toJson) = some anchor.id := by
  obtain ⟨fields, hfields, hid⟩ := h.get?_id
  rw [hfields]
  unfold idOf? fieldsOf
  rw [hid]

/-- **An anchor that is read and written is still there.** -/
theorem allKept_of_ofJson (hsettled : Settled value) (h : ofJson stamp value = .ok anchor) :
    AllKept value (merged anchor.toJson) := by
  have hid := (clean_of_ofJson h).idOf?_toJson.trans (idOf?_of_ofJson h).symm
  obtain ⟨fields, rfl, hread⟩ := readFrom_of_ofJson h
  have hnodup : (Table.names (anchor.fields ++ extraFields anchor.extra)).Nodup := by
    rw [hread.extra]
    exact nodup_names_written (fun _ hfield _ hkey => ne_name_of_mem_extras hfield hkey)
      (hsettled.nodup.sublist (List.filter_sublist.map _)) anchor.names_fields (by decide)
  -- A part of the anchor is found under its name.
  have hfound : ∀ {name : String} {part : Json}, anchor.fields.get? name = some part →
      Table.get? name (merged anchor.toJson).fieldsOf = some (merged part) := by
    intro name part hpart
    rw [show anchor.toJson = .object (anchor.fields ++ extraFields anchor.extra) from rfl,
      get?_merged hnodup, Table.get?_append, hpart]
    rfl
  have hwritten := anchor.get?_fields
  simp only [keys, List.map_cons, List.cons.injEq] at hwritten
  obtain ⟨-, -, -, -, hrange, -, -, -, hhint, habout, -⟩ := hwritten
  refine ⟨hid, ?own, ?range, ?hint, ?about⟩
  case own =>
    show UnknownKept keys _ (merged (.object (anchor.fields ++ extraFields anchor.extra)))
    rw [hread.extra]
    exact unknownKept_written hsettled anchor.names_fields (by decide)
  case range =>
    refine unknownKept_part hsettled hread.range (fun range hsome => hfound ?_)
      fun value range => SourceRange.unknownKept
    exact hrange.trans (congrArg (Option.map SourceRange.toJson) hsome)
  case hint =>
    refine unknownKept_part hsettled hread.hint (fun hint hsome => hfound ?_)
      fun value hint => Hint.unknownKept
    exact hhint.trans (congrArg (Option.map Hint.toJson) hsome)
  case about =>
    refine unknownKept_part hsettled hread.about (fun about hsome => hfound ?_)
      fun value about => About.unknownKept
    exact habout.trans (congrArg (Option.map About.toJson) hsome)

end Anchor

/-! ## Documents -/

theorem Table.get?_union_congr {α : Type} {name : String} {more : Table α} :
    ∀ {table other : Table α}, get? name table = get? name other →
      get? name (union table more) = get? name (union other more) := by
  induction more with
  | nil => exact fun h => h
  | cons first rest ih =>
    intro table other h
    refine ih ?_
    by_cases hname : name = first.1
    · rw [hname, get?_put_self, get?_put_self]
    · rw [get?_put_of_ne hname, get?_put_of_ne hname, h]

theorem forall₂_filter {α β : Type} {R : α → β → Prop} {p : α → Bool} {q : β → Bool}
    {items : List α} {found : List β} (h : List.Forall₂ R items found)
    (hsame : ∀ a b, R a b → q b = p a) :
    List.Forall₂ R (items.filter p) (found.filter q) := by
  induction h with
  | nil => exact .nil
  | @cons a b items found hab _ ih =>
    rw [List.filter_cons, List.filter_cons, hsame a b hab]
    split
    · exact .cons hab ih
    · exact ih

namespace Document

/-- The anchors in the JSON of a document. -/
def anchorsOf (value : Json) : List Json :=
  ((Table.get? "anchors" value.fieldsOf).getD .null).itemsOf

/-- The anchors in the JSON of a document, without those of an id. -/
def othersOf (id : String) (value : Json) : List Json :=
  (anchorsOf value).filter fun item => Anchor.idOf? item != some id

/-- The value of a file stands for the document: its unknown fields are those of the document, and
each of its anchors is one of the document, in the same order. -/
structure StandsFor (value : Json) (document : Document) : Prop where
  own : ∀ other : Document, other.extra = document.extra →
    UnknownKept keys value (merged other.toJson)
  anchors : List.Forall₂ (fun item anchor => Anchor.idOf? item = some anchor.id ∧
    Anchor.AllKept item (merged anchor.toJson)) (anchorsOf value) document.anchors

variable {value : Json} {document : Document}

/-- A value stands for the document that is read from it. -/
theorem standsFor_of_ofFields {stamp : String} {fields : Table Json}
    (hsettled : Settled (.object fields)) (h : ofFields stamp fields = .ok document) :
    StandsFor (.object fields) document := by
  have hread := readFrom_of_ofFields h
  constructor
  · intro other hextra
    show UnknownKept keys _ (merged (.object (other.fields ++ extraFields other.extra)))
    rw [hextra, hread.extra]
    exact unknownKept_written hsettled (List.Sublist.refl _) (by decide)
  · rcases hread.items with ⟨hnone, hget⟩ | ⟨items, hitems, hfound, -⟩
    · have hempty : anchorsOf (.object fields) = [] := by
        unfold anchorsOf fieldsOf
        rw [hget]
        rfl
      rw [hempty, hnone]
      exact .nil
    · have hall : anchorsOf (.object fields) = items := by
        unfold anchorsOf fieldsOf
        rw [hitems]
        rfl
      have hlist : Settled (.array items) := hsettled.field _ (Table.mem_of_get? hitems)
      rw [hall]
      have hboth := (List.forall₂_and_left items document.anchors).mpr ⟨hlist.item, hfound⟩
      exact hboth.imp fun item anchor hpair =>
        ⟨Anchor.idOf?_of_ofJson hpair.2, Anchor.allKept_of_ofJson hpair.1 hpair.2⟩

theorem anchorsOf_toJson (h : document.Legible) :
    anchorsOf (merged document.toJson) =
      document.anchors.map fun anchor => merged anchor.toJson := by
  obtain ⟨fields, hfields, hanchors⟩ := h.clean.get?_anchors
  unfold anchorsOf
  rw [hfields]
  show ((Table.get? "anchors" fields).getD .null).itemsOf = _
  rw [hanchors]
  rfl

theorem othersOf_toJson (h : document.Legible) (id : String) :
    othersOf id (merged document.toJson) =
      (document.anchors.filter fun anchor => some anchor.id != some id).map
        fun anchor => merged anchor.toJson := by
  unfold othersOf
  rw [anchorsOf_toJson h, List.filter_map]
  refine congrArg _ (List.filter_congr fun anchor hanchor => ?_)
  rw [Function.comp_apply, (h.anchors anchor hanchor).idOf?_toJson]

/-- What is written for a document stands for it. -/
theorem standsFor_toJson (h : document.Legible) :
    StandsFor (merged document.toJson) document := by
  constructor
  · intro other hextra name value hunknown hget _ _
    have hnames : ∀ document : Document, Table.get? name (Table.ofPairs (mergedFields
        document.fields)) = none := by
      intro document
      refine Table.get?_eq_none fun field hfield heq => ?_
      have hmem := Table.mem_names (Table.mem_of_mem_ofPairs hfield)
      rw [names_mergedFields, heq] at hmem
      obtain ⟨key, hkey, hname⟩ : ∃ key ∈ keys, key.name = name := List.mem_map.mp hmem
      exact (hunknown key hkey).1 hname.symm
    have hwritten : ∀ document : Document, Table.get? name (merged document.toJson).fieldsOf =
        Table.get? name (Table.union (Table.ofPairs (mergedFields document.fields))
          (mergedFields (extraFields document.extra))) := by
      intro document
      show Table.get? name (Table.ofPairs (mergedFields
        (document.fields ++ extraFields document.extra))) = _
      rw [← Table.ofPairs_append, mergedFields_eq_map, List.map_append, mergedFields_eq_map,
        mergedFields_eq_map]
    rw [hwritten] at hget
    rw [hwritten, hextra, ← hget]
    exact Table.get?_union_congr ((hnames other).trans (hnames document).symm)
  · rw [anchorsOf_toJson h]
    exact List.forall₂_map_left_iff.mpr (List.forall₂_same.mpr fun anchor hanchor =>
      ⟨(h.anchors anchor hanchor).idOf?_toJson, .refl _⟩)

theorem filter_putAnchor (anchor : Anchor) (anchors : List Anchor) :
    (putAnchor anchor anchors).filter (fun other => some other.id != some anchor.id) =
      anchors.filter fun other => some other.id != some anchor.id := by
  induction anchors with
  | nil => simp [putAnchor]
  | cons first rest ih =>
    rw [putAnchor]
    by_cases hfirst : first.id = anchor.id
    · rw [if_pos (by simpa using hfirst), List.filter_cons_of_neg (by simp),
        List.filter_cons_of_neg (by simpa using hfirst)]
    · rw [if_neg (by simpa using hfirst), List.filter_cons_of_pos (by simpa using hfirst),
        List.filter_cons_of_pos (by simpa using hfirst), ih]

/-- The anchors of other ids, in the order of the document. -/
theorem StandsFor.others (h : StandsFor value document) (id : String) :
    List.Forall₂ (fun item anchor => Anchor.AllKept item (merged anchor.toJson))
      (othersOf id value) (document.anchors.filter fun anchor => some anchor.id != some id) := by
  refine (forall₂_filter h.anchors fun item anchor hpair => ?_).imp fun _ _ hpair => hpair.2
  rw [hpair.1]

/-- **A put keeps what the document has besides its anchor.** -/
theorem StandsFor.put (h : StandsFor value document) (hlegible : document.Legible)
    {anchor : Anchor} (hanchor : anchor.Clean) :
    UnknownKept keys value (merged (document.put anchor).toJson) ∧
      List.Forall₂ Anchor.AllKept (othersOf anchor.id value)
        (othersOf anchor.id (merged (document.put anchor).toJson)) := by
  refine ⟨h.own _ rfl, ?_⟩
  rw [othersOf_toJson (hlegible.put hanchor)]
  show List.Forall₂ Anchor.AllKept _ (((putAnchor anchor document.anchors).filter _).map _)
  rw [filter_putAnchor]
  exact List.forall₂_map_right_iff.mpr (h.others anchor.id)

end Document

namespace Store

/-- The file of a value. -/
def fileOfValue (value : Json) : ByteArray :=
  (value.render Json.fileStyle ++ "\n").toUTF8

/-- A document with a note that is null. -/
def noteDocument : Json :=
  .object [("note", .null), ("anchors", .array [])]

end Store

end Mooring
