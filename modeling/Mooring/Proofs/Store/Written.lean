import Mooring.Proofs.Anchor.Rereading
import Mooring.Proofs.Json.Printed
import Mooring.Store.Handle

/-!
# What is put into a file is found there

A document that is written is read back as its JSON (`load_fileOf`).  So an anchor without unknown
fields that was put into a document is found by whoever reads the file afterwards, just as it was
(`get?_of_load`); and nothing keeps a document from being read that has no unknown fields at all
(`load_fileOf_of_plain`).

Two things are needed besides.  The file must have been made by a handle whose document has no
unknown field with the name of its list of anchors (`Document.Clean`); every document that was read
is like that (`clean_of_load`), and no request changes it (`Handle.Clean.ask`).  And what stands
next to the anchor must be readable, which no handle can promise for a file that others wrote.
-/

namespace Mooring

open Mooring.Record Mooring.Text

/-! ## Documents -/

namespace Document

/-- No unknown field goes by the name of the list of anchors. -/
def Clean (document : Document) : Prop :=
  ∀ field ∈ document.extra, field.1 ≠ "anchors"

theorem clean_empty : Document.Clean {} :=
  fun field h => absurd h (by simp)

theorem Clean.put {document : Document} (h : document.Clean) (anchor : Anchor) :
    (document.put anchor).Clean :=
  h

theorem mem_putAnchor (anchor : Anchor) (anchors : List Anchor) :
    anchor ∈ putAnchor anchor anchors := by
  induction anchors with
  | nil => exact List.mem_singleton.mpr rfl
  | cons first rest ih =>
    rw [putAnchor]
    split
    · exact List.mem_cons_self
    · exact List.mem_cons_of_mem _ ih

theorem get?_put (document : Document) (anchor : Anchor) (id : String) :
    (document.put anchor).get? id = if anchor.id = id then some anchor else document.get? id := by
  obtain ⟨version, anchors, extra⟩ := document
  show (putAnchor anchor anchors).find? (·.id == id) =
    if anchor.id = id then some anchor else anchors.find? (·.id == id)
  induction anchors with
  | nil => by_cases h : anchor.id = id <;> simp [putAnchor, h]
  | cons first rest ih =>
    rw [putAnchor]
    by_cases hfirst : first.id = anchor.id
    · by_cases h : anchor.id = id <;> simp [hfirst, h]
    · rw [if_neg (by simpa using hfirst), List.find?_cons, ih, List.find?_cons]
      by_cases hid : first.id = id
      · simp [hid, show anchor.id ≠ id from fun h => hfirst (hid.trans h.symm)]
      · rw [beq_eq_false_iff_ne.mpr hid]

theorem mem_putAnchor_iff {anchor other : Anchor} {anchors : List Anchor}
    (h : other ∈ putAnchor anchor anchors) : other = anchor ∨ other ∈ anchors := by
  induction anchors with
  | nil => exact .inl (List.mem_singleton.mp h)
  | cons first rest ih =>
    rw [putAnchor] at h
    split at h
    · rcases List.mem_cons.mp h with heq | hrest
      · exact .inl heq
      · exact .inr (List.mem_cons_of_mem _ hrest)
    · rcases List.mem_cons.mp h with rfl | hrest
      · exact .inr List.mem_cons_self
      · exact (ih hrest).imp_right (List.mem_cons_of_mem _)

/-- Among anchors with distinct ids each one is found by its id. -/
theorem find?_id {anchors : List Anchor} (h : (anchors.map (·.id)).Nodup) {anchor : Anchor}
    (hmem : anchor ∈ anchors) : anchors.find? (·.id == anchor.id) = some anchor := by
  induction anchors with
  | nil => exact absurd hmem (by simp)
  | cons first rest ih =>
    rw [List.map_cons, List.nodup_cons] at h
    rcases List.mem_cons.mp hmem with rfl | hrest
    · exact List.find?_cons_of_pos (beq_self_eq_true _)
    · rw [List.find?_cons_of_neg, ih h.2 hrest]
      intro heq
      exact h.1 (by rw [beq_iff_eq.mp heq]; exact List.mem_map_of_mem hrest)

theorem mem_extraFields {extra : Table Json} {field : String × Json}
    (h : field ∈ extraFields extra) : ∃ value, (field.1, value) ∈ extra := by
  obtain ⟨pair, hpair, rfl⟩ := List.mem_map.mp h
  exact ⟨pair.2, (List.mem_filter.mp hpair).1⟩

/-- What a reader finds under the name of the anchors. -/
theorem Clean.get?_anchors {document : Document} (h : document.Clean) :
    ∃ fields, Json.merged document.toJson = .object fields ∧
      Table.get? "anchors" fields =
        some (.array (document.anchors.map fun anchor => Json.merged anchor.toJson)) := by
  refine ⟨_, rfl, ?_⟩
  rw [Json.mergedFields_eq_map, List.map_append, Table.ofPairs_append,
    Table.get?_union_of_not_mem]
  · simp [Table.ofPairs, Table.put, Table.get?, Json.merged, Json.mergedItems_eq_map]
  · intro field hfield
    obtain ⟨pair, hpair, rfl⟩ := List.mem_map.mp hfield
    obtain ⟨value, hvalue⟩ := mem_extraFields hpair
    exact h (pair.1, value) hvalue

end Document

namespace Store

theorem load_file (stamp : String) (bytes : ByteArray) :
    load stamp (.file bytes) =
      match textOf bytes with
      | .ok text => documentOfText stamp text
      | .error bad => .error (.notText bad) :=
  rfl

/-- The value that a file holds. -/
def Entry.json? : Entry → Option Json
  | .file bytes =>
    match textOf bytes with
    | .ok text => (Json.parse text).toOption
    | .error _ => none
  | _ => none

theorem json?_file (bytes : ByteArray) :
    Entry.json? (.file bytes) =
      match textOf bytes with
      | .ok text => (Json.parse text).toOption
      | .error _ => none :=
  rfl

theorem textOf_render (value : Json) :
    textOf (value.render Json.fileStyle ++ "\n").toUTF8 =
      .ok (value.render Json.fileStyle ++ "\n") := by
  unfold textOf
  rw [ofBytes_toUTF8]
  show Except.ok (String.ofList (unifyNewlines _)) = _
  rw [Json.unifyNewlines_render, String.ofList_toList]

/-- A value that is written to a file is found there. -/
theorem json?_render (value : Json) :
    Entry.json? (.file (value.render Json.fileStyle ++ "\n").toUTF8) =
      some (Json.merged value) := by
  rw [json?_file, textOf_render]
  dsimp only
  rw [Json.parse_render]
  rfl

/-- The value of a file, null where there is none. -/
def Entry.value (entry : Entry) : Json :=
  entry.json?.getD .null

theorem value_fileOf (document : Document) :
    Entry.value (.file (fileOf document)) = Json.merged document.toJson := by
  unfold Entry.value
  rw [show Entry.json? (.file (fileOf document)) = _ from json?_render document.toJson]
  rfl

/-- What a document is made of. -/
theorem documentOfJson_eq_ok {stamp : String} {fields : Table Json} {document : Document}
    (h : documentOfJson stamp (.object fields) = .ok document) :
    Document.ofFields stamp fields = .ok document := by
  unfold documentOfJson at h
  dsimp only at h
  split at h
  next document' hfields => rw [← Except.ok.inj h]; exact hfields
  next => exact absurd h (by simp)

/-- What a document in a file was read from. -/
theorem load_eq_ok {stamp : String} {bytes : ByteArray} {document : Document}
    (h : load stamp (.file bytes) = .ok document) : ∃ fields, Json.Settled (.object fields) ∧
      Entry.json? (.file bytes) = some (.object fields) ∧
      Document.ofFields stamp fields = .ok document := by
  rw [load_file] at h
  cases htext : textOf bytes with
  | error bad => rw [htext] at h; exact absurd h (by simp)
  | ok text =>
    rw [htext] at h
    dsimp only at h
    unfold documentOfText at h
    cases hvalue : Json.parse text with
    | error error => rw [hvalue] at h; exact absurd h (by simp)
    | ok value =>
      rw [hvalue] at h
      cases value with
      | object fields =>
        refine ⟨fields, Json.settled_of_parse hvalue, ?_, documentOfJson_eq_ok h⟩
        rw [json?_file, htext]
        dsimp only
        rw [hvalue]
        rfl
      | _ => exact absurd h (by simp [documentOfJson])

/-- A file that a value was written to is read as that value. -/
theorem load_render (stamp : String) (value : Json) :
    load stamp (.file (value.render Json.fileStyle ++ "\n").toUTF8) =
      documentOfJson stamp (Json.merged value) := by
  rw [load_file, textOf_render]
  dsimp only
  unfold documentOfText
  rw [Json.parse_render]

/-- **A document that is written is read back as its JSON.** -/
theorem load_fileOf (stamp : String) (document : Document) :
    load stamp (.file (fileOf document)) = documentOfJson stamp (Json.merged document.toJson) :=
  load_render stamp document.toJson

theorem documentOfJson_of_fields {stamp : String} {fields : Table Json} {document : Document}
    (h : Document.ofFields stamp fields = .ok document) :
    documentOfJson stamp (.object fields) = .ok document := by
  unfold documentOfJson
  dsimp only
  rw [h]

/-- A document that was read has no unknown field with the name of its anchors. -/
theorem clean_of_ofFields {stamp : String} {fields : Table Json} {document : Document}
    (h : Document.ofFields stamp fields = .ok document) : document.Clean := by
  intro field hfield
  rw [(Document.readFrom_of_ofFields h).extra] at hfield
  exact ne_name_of_mem_extras hfield (show Key.plain "anchors" ∈ Document.keys by
    simp [Document.keys])

theorem clean_of_load {stamp : String} {entry : Entry} {document : Document}
    (h : load stamp entry = .ok document) : document.Clean := by
  cases entry with
  | nothing => rw [← Except.ok.inj h]; exact Document.clean_empty
  | directory => exact absurd h (by simp [load])
  | file bytes =>
    obtain ⟨fields, -, -, hfields⟩ := load_eq_ok h
    exact clean_of_ofFields hfields

/-- **An anchor that was written is found again, just as it was.** -/
theorem get?_of_load {stamp : String} {document loaded : Document} (hclean : document.Clean)
    {anchor : Anchor} (hplain : anchor.Plain)
    (h : load stamp (.file (fileOf (document.put anchor))) = .ok loaded) :
    loaded.get? anchor.id = some anchor := by
  obtain ⟨fields, hfields, hanchors⟩ := (hclean.put anchor).get?_anchors
  rw [load_fileOf, hfields] at h
  obtain ⟨hread, hdistinct⟩ :=
    (Document.readFrom_of_ofFields (documentOfJson_eq_ok h)).of_items hanchors
  -- The anchor is among the written ones, so its JSON was read among the others.
  have hput : Json.merged anchor.toJson ∈
      (document.put anchor).anchors.map fun anchor => Json.merged anchor.toJson :=
    List.mem_map_of_mem (Document.mem_putAnchor anchor document.anchors)
  obtain ⟨found, hmem, hfound⟩ := exists_of_forall₂ hread hput
  rw [hplain.settled, hplain.ofJson_toJson] at hfound
  obtain rfl := Except.ok.inj hfound
  exact Document.find?_id hdistinct hmem

/-- **A readable document comes back where it was written.** -/
theorem load_fileOf_of_readable (stamp : String) {document : Document}
    (h : document.Readable) : load stamp (.file (fileOf document)) = .ok document.asWritten := by
  rw [load_fileOf, h.settled]
  exact documentOfJson_of_fields (h.ofFields_toJson stamp)

/-- A document that was read can be read as it is written, if nothing in its file hides a value. -/
theorem readable_of_load {stamp : String} {entry : Entry} {document : Document}
    (h : load stamp entry = .ok document) (hhides : Document.hides entry.value = false) :
    document.Readable := by
  cases entry with
  | nothing => rw [← Except.ok.inj h]; exact Document.readable_empty
  | directory => exact absurd h (by simp [load])
  | file bytes =>
    obtain ⟨fields, hsettled, hjson, hfields⟩ := load_eq_ok h
    unfold Entry.value at hhides
    rw [hjson] at hhides
    exact Document.readable_of_ofFields hfields hsettled hhides

/-- **Nothing keeps a document from being read that has no unknown fields and no id twice.** -/
theorem load_fileOf_of_plain (stamp : String) {document : Document} (hextra : document.extra = [])
    (hplain : ∀ anchor ∈ document.anchors, anchor.Plain) (hids : document.ids.Nodup) :
    load stamp (.file (fileOf document)) = .ok document := by
  have hreadable : document.Readable :=
    ⟨hextra ▸ leftover_nil _ _, hextra ▸ portable_nil.tidy, fun anchor hanchor =>
      ⟨(hplain anchor hanchor).readable, (hplain anchor hanchor).portable.tidy⟩, hids⟩
  have hanchors : document.anchors.map Anchor.asWritten = document.anchors :=
    (List.map_congr_left fun anchor hanchor => (hplain anchor hanchor).asWritten_eq).trans
      (List.map_id _)
  have hsame : document.asWritten = document := by
    unfold Document.asWritten
    rw [hanchors, hextra]
    exact congrArg _ hextra.symm
  rw [load_fileOf_of_readable stamp hreadable, hsame]

/-! ## Handles -/

/-- What a handle has read has no unknown field with the name of its anchors. -/
def Handle.Clean (handle : Handle) : Prop :=
  ∀ document ∈ handle.document, document.Clean

theorem Handle.Clean.load {handle : Handle} (h : handle.Clean) {stamp : String} {entry : Entry}
    {document : Document} (hload : handle.load stamp entry = .ok document) : document.Clean := by
  unfold Handle.load at hload
  split at hload
  next document' hdocument => rw [← Except.ok.inj hload]; exact h document' hdocument
  next => exact clean_of_load hload

/-- A request keeps a handle clean. -/
theorem Handle.Clean.ask {sight : Sight} (h : sight.2.Clean) (stamp : String) (request : Request) :
    (Store.ask stamp request sight).2.2.Clean := by
  have hwith : ∀ go : Document → Reply × Sight,
      (∀ document, document.Clean → (go document).2.2.Clean) →
        (withDocument stamp sight go).2.2.Clean := by
    intro go hgo
    unfold withDocument
    split
    next document hload => exact hgo document (h.load hload)
    next => exact h
  have hone : ∀ document : Document, document.Clean → Handle.Clean ⟨some document⟩ := by
    intro document hclean other hother
    rw [← Option.some.inj hother]
    exact hclean
  cases request with
  | get id => exact hwith _ hone
  | list => exact hwith _ hone
  | put anchor => exact hwith _ fun document hclean => hone _ (hclean.put anchor)
  | reload => exact fun document hdocument => absurd hdocument (by simp [Store.ask])

/-- A path and its handles as they come to be: whatever the path held at first, handles are asked,
and others write to the path. -/
inductive Shared.Reached : Shared → Prop
  | opened (entry : Entry) : Reached { entry }
  | asked {shared : Shared} (stamp : String) (number : Nat) (request : Request) :
      Reached shared → Reached (shared.ask stamp number request).2
  | rewritten {shared : Shared} (entry : Entry) : Reached shared → Reached { shared with entry }

/-- Whatever happens, all handles are clean. -/
theorem Shared.Reached.clean {shared : Shared} (h : shared.Reached) :
    ∀ n, (shared.handles n).Clean := by
  induction h with
  | opened entry => exact fun n document hdocument => absurd hdocument (by simp)
  | @asked shared stamp number request _ ih =>
    intro n
    show Handle.Clean (if n = number then _ else _)
    split
    · exact @Handle.Clean.ask (shared.entry, shared.handles number) (ih number) stamp request
    · exact ih n
  | rewritten entry _ ih => exact ih

/-- **An anchor that was put is what a fresh handle gets**, if it gets anything. -/
theorem get_after_put {sight : Sight} (hclean : sight.2.Clean) {anchor : Anchor}
    (hplain : anchor.Plain) {stamp stamp' : String} {found : Option Anchor}
    (hput : (ask stamp (.put anchor) sight).1 = .ok .done)
    (hget : (ask stamp' (.get anchor.id) ((ask stamp (.put anchor) sight).2.1, {})).1 =
      .ok (.anchor found)) : found = some anchor := by
  cases hload : sight.2.load stamp sight.1 with
  | error e =>
    simp only [ask, withDocument, hload] at hput
    exact absurd hput (by simp)
  | ok document =>
    have hentry : (ask stamp (.put anchor) sight).2.1 = .file (fileOf (document.put anchor)) := by
      simp only [ask, withDocument, hload]
    -- Putting wrote the whole document; the fresh handle reads just that.
    rw [hentry] at hget
    cases hback : load stamp' (.file (fileOf (document.put anchor))) with
    | error e =>
      simp only [ask, withDocument, Handle.load, hback] at hget
      exact absurd hget (by simp)
    | ok loaded =>
      simp only [ask, withDocument, Handle.load, hback] at hget
      rw [← Reply.anchor.inj (Except.ok.inj hget)]
      exact get?_of_load (hclean.load hload) hplain hback

/-- **Where there was no file, an anchor is put and a fresh handle gets it.** -/
theorem get_after_put_nothing (stamp stamp' : String) {anchor : Anchor} (hplain : anchor.Plain) :
    (ask stamp (.put anchor) (.nothing, {})).1 = .ok .done ∧
      (ask stamp' (.get anchor.id) ((ask stamp (.put anchor) (.nothing, {})).2.1, {})).1 =
        .ok (.anchor (some anchor)) := by
  refine ⟨rfl, ?_⟩
  have hback : load stamp' (.file (fileOf (Document.put {} anchor))) =
      .ok (Document.put {} anchor) :=
    load_fileOf_of_plain stamp' rfl (List.forall_mem_singleton.mpr hplain) (List.nodup_singleton _)
  show (ask stamp' (.get anchor.id) (.file (fileOf (Document.put {} anchor)), {})).1 = _
  simp only [ask, withDocument, Handle.load, hback]
  rw [get?_of_load Document.clean_empty hplain hback]

end Store

end Mooring
