import Mathlib.Logic.Relation
import Mooring.Proofs.Store.Written

/-!
# Handles that share a file

A handle goes on from the document of its first access, or of the first one after a reload, and a
put writes all of that document.  So what is left of the puts of several handles depends on who read
the file when.

Two things can be said, whatever the file held at first (`file_of_shared`).  As long as no anchor is
put from a stale document (`NoStalePut`), nothing is lost: under each id the file has the anchor put
last, or else the one that was there at first.  And in any case the file is what the handle of the
last put makes of it: the document of its first access with its own puts on top.  What others put in
between is gone (`put_lost`).

The first is an invariant of a run, `Shown`: the file has all that is due, and so has each handle's
document, unless the handle was overtaken by another one's put.  One request keeps it (`Shown.ask`);
what a request can do at all is said once, in `Asked`.

An anchor with unknown fields may come back from a file with other ones, for instance without those
that are null.  `Anchor.Rewritten` allows for that; an anchor without unknown fields stays as it is.
-/

namespace Mooring

open Mooring.Record

/-! ## Anchors and documents that are read back -/

namespace Anchor

/-- No unknown field goes by the name of the id. -/
def Clean (anchor : Anchor) : Prop :=
  ∀ field ∈ anchor.extra, field.1 ≠ "id"

theorem Plain.clean {anchor : Anchor} (h : anchor.Plain) : anchor.Clean := by
  intro field hfield
  rw [h.extra] at hfield
  exact absurd hfield (by simp)

/-- The second anchor is what is read where the first one was written. -/
def Reread (anchor found : Anchor) : Prop :=
  ∃ stamp, ofJson stamp (Json.merged anchor.toJson) = .ok found

/-- The second anchor is what the first one can become by being written and read any number of
times. -/
def Rewritten : Anchor → Anchor → Prop :=
  Relation.ReflTransGen Reread

/-- **An anchor without unknown fields stays as it is.** -/
theorem Plain.eq_of_rewritten {anchor found : Anchor} (h : anchor.Plain)
    (hfound : anchor.Rewritten found) : found = anchor := by
  induction hfound with
  | refl => rfl
  | tail _ hstep ih =>
    obtain ⟨stamp, hread⟩ := hstep
    rw [ih, h.settled, h.ofJson_toJson] at hread
    exact (Except.ok.inj hread).symm

theorem clean_of_ofJson {stamp : String} {value : Json} {anchor : Anchor}
    (h : ofJson stamp value = .ok anchor) : anchor.Clean := by
  obtain ⟨fields, -, hread⟩ := readFrom_of_ofJson h
  intro field hfield
  rw [hread.extra] at hfield
  exact ne_name_of_mem_extras hfield (show Key.plain "id" ∈ keys by simp [keys])

/-- A reader finds the id where it was written. -/
theorem Clean.get?_id {anchor : Anchor} (h : anchor.Clean) : ∃ fields,
    Json.merged anchor.toJson = .object fields ∧
      Table.get? "id" fields = some (.string anchor.id) := by
  have hnames :
      (Table.names (anchor.fields.map fun field => (field.1, Json.merged field.2))).Nodup := by
    unfold Table.names
    rw [List.map_map]
    exact anchor.names_fields.nodup (by decide)
  refine ⟨_, rfl, ?_⟩
  show Table.get? "id"
    (Table.ofPairs (Json.mergedFields (anchor.fields ++ extraFields anchor.extra))) = _
  rw [Json.mergedFields_eq_map, List.map_append, Table.ofPairs_append,
    Table.get?_union_of_not_mem, Table.ofPairs_of_nodup hnames]
  · rfl
  · intro field hfield
    obtain ⟨pair, hpair, rfl⟩ := List.mem_map.mp hfield
    obtain ⟨value, hvalue⟩ := Document.mem_extraFields hpair
    exact h (pair.1, value) hvalue

/-- **An anchor keeps its id when it is written and read.** -/
theorem Clean.id_of_reread {anchor found : Anchor} (h : anchor.Clean)
    (hfound : anchor.Reread found) : found.id = anchor.id := by
  obtain ⟨stamp, hread⟩ := hfound
  obtain ⟨fields, hfields, hid⟩ := h.get?_id
  rw [hfields] at hread
  obtain ⟨fields', hsame, hfrom⟩ := readFrom_of_ofJson hread
  obtain rfl := Json.object.inj hsame
  obtain ⟨value, hvalue, hvisible⟩ := required_eq_ok hfrom.id
  rw [Key.get?_plain, hid] at hvalue
  rw [← Option.some.inj hvalue] at hvisible
  exact visibleId_eq_ok hvisible

end Anchor

namespace Document

/-- The names by which a document and its anchors are found belong to no unknown field. -/
structure Legible (document : Document) : Prop where
  clean : document.Clean
  anchors : ∀ anchor ∈ document.anchors, anchor.Clean

theorem legible_empty : Legible {} :=
  ⟨clean_empty, fun _ h => absurd h (by simp)⟩

theorem Legible.put {document : Document} (h : document.Legible) {anchor : Anchor}
    (hanchor : anchor.Clean) : (document.put anchor).Legible := by
  refine ⟨h.clean.put anchor, fun other hother => ?_⟩
  rcases mem_putAnchor_iff hother with rfl | hold
  · exact hanchor
  · exact h.anchors other hold

end Document

namespace Store

/-- **A document that was read is legible.** -/
theorem legible_of_ofFields {stamp : String} {fields : Table Json} {document : Document}
    (h : Document.ofFields stamp fields = .ok document) : document.Legible := by
  refine ⟨clean_of_ofFields h, fun anchor hanchor => ?_⟩
  obtain ⟨items, -, item, -, hread⟩ := (Document.readFrom_of_ofFields h).exists_item hanchor
  exact Anchor.clean_of_ofJson hread

theorem legible_of_load {stamp : String} {entry : Entry} {document : Document}
    (h : load stamp entry = .ok document) : document.Legible := by
  cases entry with
  | nothing => rw [← Except.ok.inj h]; exact Document.legible_empty
  | directory => exact absurd h (by simp [load])
  | file bytes =>
    obtain ⟨fields, -, -, hfields⟩ := load_eq_ok h
    exact legible_of_ofFields hfields

/-- **Under each id, what is read from a file is what was written there, read again.** -/
theorem get?_reread {stamp : String} {document loaded : Document} (hlegible : document.Legible)
    (h : load stamp (.file (fileOf document)) = .ok loaded) (id : String) :
    Option.Rel Anchor.Reread (document.get? id) (loaded.get? id) := by
  obtain ⟨fields, hfields, hanchors⟩ := hlegible.clean.get?_anchors
  rw [load_fileOf, hfields] at h
  obtain ⟨hread, -⟩ := (Document.readFrom_of_ofFields (documentOfJson_eq_ok h)).of_items hanchors
  have hreread : List.Forall₂ Anchor.Reread document.anchors loaded.anchors :=
    (List.forall₂_map_left_iff.mp hread).imp fun _ _ hanchor => ⟨stamp, hanchor⟩
  refine find?_of_forall₂ hreread fun anchor hanchor found hfound => ?_
  rw [(hlegible.anchors anchor hanchor).id_of_reread hfound]

/-! ## What a request can do -/

/-- The path and its handles after one of them got another document, or another file was written. -/
def Shared.set (shared : Shared) (number : Nat) (entry : Entry) (handle : Handle) : Shared :=
  { entry, handles := fun n => if n = number then handle else shared.handles n }

/-- All that a request to a handle can lead to. -/
inductive Asked (stamp : String) (number : Nat) (shared : Shared) :
    Request → Except LoadError Reply → Shared → Prop
  /-- There is no document, and nothing changes. -/
  | failed {request : Request} {error : LoadError} : request ≠ .reload →
      Asked stamp number shared request (.error error) shared
  | reloaded : Asked stamp number shared .reload (.ok .done) (shared.set number shared.entry {})
  /-- The document is looked at, and stays in memory. -/
  | looked {request : Request} {reply : Reply} {document : Document} : request ≠ .reload →
      (∀ anchor, request ≠ .put anchor) →
      (shared.handles number).load stamp shared.entry = .ok document →
      Asked stamp number shared request (.ok reply) (shared.set number shared.entry ⟨some document⟩)
  /-- An anchor is put into the document, and the document is written. -/
  | put {anchor : Anchor} {document : Document} :
      (shared.handles number).load stamp shared.entry = .ok document →
      Asked stamp number shared (.put anchor) (.ok .done)
        (shared.set number (.file (fileOf (document.put anchor))) ⟨some (document.put anchor)⟩)

theorem asked (stamp : String) (number : Nat) (request : Request) (shared : Shared) :
    Asked stamp number shared request (shared.ask stamp number request).1
      (shared.ask stamp number request).2 := by
  have hsame : shared.set number shared.entry (shared.handles number) = shared := by
    have hhandles : (fun n => if n = number then shared.handles number else shared.handles n) =
        shared.handles := by
      funext n
      split
      next h => rw [h]
      next => rfl
    show ({ entry := shared.entry, handles := _ } : Shared) = shared
    rw [hhandles]
  cases hload : (shared.handles number).load stamp shared.entry with
  | error error =>
    have hfailed : ∀ go, withDocument stamp (shared.entry, shared.handles number) go =
        (.error error, shared.entry, shared.handles number) := by
      intro go
      simp only [withDocument, hload]
    cases request with
    | reload => exact .reloaded
    | _ =>
      simp only [Shared.ask, ask, hfailed]
      exact cast (congrArg (Asked stamp number shared _ _) hsame.symm) (.failed (by simp))
  | ok document =>
    have hdone : ∀ go, withDocument stamp (shared.entry, shared.handles number) go =
        (.ok (go document).1, (go document).2) := by
      intro go
      simp only [withDocument, hload]
    cases request with
    | get id =>
      simp only [Shared.ask, ask, hdone]
      exact .looked (by simp) (by simp) hload
    | list =>
      simp only [Shared.ask, ask, hdone]
      exact .looked (by simp) (by simp) hload
    | put anchor =>
      simp only [Shared.ask, ask, hdone]
      exact .put hload
    | reload => exact .reloaded

theorem Shared.run_append (stamp : String) (calls more : List (Nat × Request)) :
    ∀ shared : Shared, Shared.run stamp (calls ++ more) shared =
      ((Shared.run stamp calls shared).1 ++
        (Shared.run stamp more (Shared.run stamp calls shared).2).1,
        (Shared.run stamp more (Shared.run stamp calls shared).2).2) := by
  induction calls with
  | nil => exact fun _ => rfl
  | cons call rest ih =>
    intro shared
    simp only [List.cons_append, Shared.run, ih]

theorem Shared.length_run (stamp : String) (calls : List (Nat × Request)) :
    ∀ shared : Shared, (Shared.run stamp calls shared).1.length = calls.length := by
  induction calls with
  | nil => exact fun _ => rfl
  | cons call rest ih =>
    intro shared
    simp only [Shared.run, List.length_cons, ih]

/-! ## What was put, and what is due -/

/-- The anchors that were put, each with the handle it went through, in order: the requests to put
that were done. -/
def putsDone (calls : List (Nat × Request)) (replies : List (Except LoadError Reply)) :
    List (Nat × Anchor) :=
  (calls.zip replies).filterMap fun
    | ((number, .put anchor), .ok _) => some (number, anchor)
    | _ => none

/-- The anchor that should be under an id: the one put last, else the one that was there at
first. -/
def due (initial : Document) (puts : List (Nat × Anchor)) (id : String) : Option Anchor :=
  ((puts.filter (·.2.id == id)).getLast?.map (·.2)).or (initial.get? id)

/-- A document with some anchors put in, one after the other. -/
def putAll (document : Document) (puts : List (Nat × Anchor)) : Document :=
  puts.foldl (fun document put => document.put put.2) document

/-- The puts of one run and one more request. -/
theorem putsDone_concat {calls : List (Nat × Request)} {replies : List (Except LoadError Reply)}
    (h : replies.length = calls.length) (call : Nat × Request) (reply : Except LoadError Reply) :
    putsDone (calls ++ [call]) (replies ++ [reply]) =
      putsDone calls replies ++ putsDone [call] [reply] := by
  unfold putsDone
  rw [List.zip_append h.symm, List.filterMap_append]

theorem due_nil (initial : Document) (id : String) : due initial [] id = initial.get? id :=
  rfl

theorem due_concat (initial : Document) (puts : List (Nat × Anchor)) (number : Nat)
    (anchor : Anchor) (id : String) : due initial (puts ++ [(number, anchor)]) id =
      if anchor.id = id then some anchor else due initial puts id := by
  unfold due
  by_cases h : anchor.id = id
  · rw [List.filter_append, List.filter_cons_of_pos (by simpa using h)]
    simp [h]
  · rw [List.filter_append, List.filter_cons_of_neg (by simpa using h)]
    simp [h]

/-! ## Nothing is lost without stale documents -/

/-- A handle was used, and was not told to reload in the calls `since` then. -/
def InUse (calls : List (Nat × Request)) (number : Nat) (since : List (Nat × Request)) : Prop :=
  ∃ before request, calls = before ++ (number, request) :: since ∧ request ≠ .reload ∧
    (number, Request.reload) ∉ since

/-- Some of the calls are to put an anchor through another handle. -/
def PutByOther (number : Nat) (calls : List (Nat × Request)) : Prop :=
  ∃ other anchor, (other, Request.put anchor) ∈ calls ∧ other ≠ number

/-- No anchor is put from a stale document: from any use of a handle up to a put through it, without
a reload on the way, nothing is put through another handle. -/
def NoStalePut (calls : List (Nat × Request)) : Prop :=
  ∀ before number anchor after since, calls = before ++ (number, .put anchor) :: after →
    InUse before number since → ¬PutByOther number since

/-- The entry was written for the document, or is read as it. -/
def Entry.Holds (stamp : String) (entry : Entry) (document : Document) : Prop :=
  entry = .file (fileOf document) ∨ load stamp entry = .ok document

/-- The document has all that is due, as writing and reading leave it, and nothing else. -/
structure HasDue (initial : Document) (puts : List (Nat × Anchor)) (document : Document) :
    Prop where
  legible : document.Legible
  get? : ∀ id, Option.Rel Anchor.Rewritten (due initial puts id) (document.get? id)

variable {stamp : String} {initial document : Document} {puts : List (Nat × Anchor)}
variable {calls : List (Nat × Request)} {number : Nat} {shared : Shared}

theorem HasDue.first (h : initial.Legible) : HasDue initial [] initial := by
  refine ⟨h, fun id => ?_⟩
  rw [due_nil]
  cases initial.get? id with
  | none => exact .none
  | some anchor => exact .some .refl

theorem HasDue.put (h : HasDue initial puts document) {anchor : Anchor} (hanchor : anchor.Clean)
    (number : Nat) : HasDue initial (puts ++ [(number, anchor)]) (document.put anchor) := by
  refine ⟨h.legible.put hanchor, fun id => ?_⟩
  rw [due_concat, Document.get?_put]
  split
  · exact .some .refl
  · exact h.get? id

/-- **Who reads a file that has all that is due gets all that is due.** -/
theorem HasDue.of_load (h : HasDue initial puts document) {entry : Entry}
    (hholds : entry.Holds stamp document) {loaded : Document}
    (hload : load stamp entry = .ok loaded) : HasDue initial puts loaded := by
  rcases hholds with rfl | hsame
  · refine ⟨legible_of_load hload, fun id => ?_⟩
    have hdue := h.get? id
    have hread := get?_reread h.legible hload id
    revert hdue hread
    generalize due initial puts id = expected
    generalize document.get? id = written
    generalize loaded.get? id = found
    intro hdue hread
    cases hread with
    | none => exact hdue
    | some hstep =>
      cases hdue with
      | some hrewritten => exact .some (hrewritten.tail hstep)
  · rw [hsame] at hload
    rw [← Except.ok.inj hload]
    exact h

theorem InUse.concat {since : List (Nat × Request)} (h : InUse calls number since)
    {call : Nat × Request} (hcall : call ≠ (number, .reload)) :
    InUse (calls ++ [call]) number (since ++ [call]) := by
  obtain ⟨before, request, rfl, hrequest, hsince⟩ := h
  refine ⟨before, request, by simp, hrequest, fun hmem => ?_⟩
  rcases List.mem_append.mp hmem with hold | hnew
  · exact hsince hold
  · exact hcall (List.mem_singleton.mp hnew).symm

theorem InUse.now {request : Request} (h : request ≠ .reload) :
    InUse (calls ++ [(number, request)]) number [] :=
  ⟨calls, request, rfl, h, List.not_mem_nil⟩

theorem PutByOther.append {since : List (Nat × Request)} (h : PutByOther number since)
    (more : List (Nat × Request)) : PutByOther number (since ++ more) := by
  obtain ⟨other, anchor, hmem, hother⟩ := h
  exact ⟨other, anchor, List.mem_append_left more hmem, hother⟩

/-- After some calls, the file has all that is due, and so has the document of each handle, unless
another handle has put something since it was read. -/
structure Shown (stamp : String) (initial : Document) (calls : List (Nat × Request))
    (puts : List (Nat × Anchor)) (shared : Shared) : Prop where
  entry : ∃ document, shared.entry.Holds stamp document ∧ HasDue initial puts document
  handles : ∀ number document, (shared.handles number).document = some document →
    ∃ since, InUse calls number since ∧ (HasDue initial puts document ∨ PutByOther number since)

namespace Shown

/-- What a handle goes on from has all that is due, unless the handle was overtaken. -/
theorem of_load (h : Shown stamp initial calls puts shared)
    (hload : (shared.handles number).load stamp shared.entry = .ok document) :
    HasDue initial puts document ∨ ∃ since, InUse calls number since ∧ PutByOther number since := by
  unfold Handle.load at hload
  split at hload
  next kept hkept =>
    rw [Except.ok.inj hload] at hkept
    obtain ⟨since, hinUse, hdue | hother⟩ := h.handles number document hkept
    · exact .inl hdue
    · exact .inr ⟨since, hinUse, hother⟩
  next =>
    obtain ⟨held, hholds, hdue⟩ := h.entry
    exact .inl (hdue.of_load hholds hload)

/-- What holds of the other handles goes on to hold. -/
theorem other (h : Shown stamp initial calls puts shared) {other : Nat} (hother : other ≠ number)
    (request : Request) (hdocument : (shared.handles other).document = some document) :
    ∃ since, InUse (calls ++ [(number, request)]) other since ∧
      (HasDue initial puts document ∨ PutByOther other since) := by
  obtain ⟨since, hinUse, hdue⟩ := h.handles other document hdocument
  refine ⟨since ++ [(number, request)], hinUse.concat fun heq => ?_, ?_⟩
  · exact hother (congrArg Prod.fst heq).symm
  · exact hdue.imp_right fun hput => hput.append _

/-- **One request keeps what is shown**, unless it puts an anchor from a stale document. -/
theorem ask (h : Shown stamp initial calls puts shared) (number : Nat) {request : Request}
    (hclean : ∀ anchor, request = .put anchor → anchor.Clean)
    (hfresh : ∀ anchor, request = .put anchor → ∀ since, InUse calls number since →
      ¬PutByOther number since) :
    Shown stamp initial (calls ++ [(number, request)])
      (puts ++ putsDone [(number, request)] [(shared.ask stamp number request).1])
      (shared.ask stamp number request).2 := by
  have hasked := asked stamp number request shared
  generalize (shared.ask stamp number request).1 = reply at hasked
  generalize (shared.ask stamp number request).2 = next at hasked
  cases hasked with
  | failed hrequest =>
    have hputs : puts ++ putsDone [(number, request)] [.error ‹_›] = puts := by
      cases request <;> simp [putsDone]
    rw [hputs]
    refine ⟨h.entry, fun n document hdocument => ?_⟩
    obtain ⟨since, hinUse, hdue⟩ := h.handles n document hdocument
    refine ⟨since ++ [(number, request)], hinUse.concat fun heq => ?_, ?_⟩
    · exact hrequest (congrArg Prod.snd heq)
    · exact hdue.imp_right fun hput => hput.append _
  | reloaded =>
    have hputs : puts ++ putsDone [(number, .reload)] [.ok .done] = puts := by simp [putsDone]
    rw [hputs]
    refine ⟨h.entry, fun n document hdocument => ?_⟩
    by_cases hn : n = number
    · simp [Shared.set, hn] at hdocument
    · exact h.other hn .reload (by simpa [Shared.set, hn] using hdocument)
  | @looked _ reply document hrequest hput hload =>
    have hputs : puts ++ putsDone [(number, request)] [.ok reply] = puts := by
      cases request with
      | put anchor => exact absurd rfl (hput anchor)
      | _ => simp [putsDone]
    rw [hputs]
    refine ⟨h.entry, fun n kept hkept => ?_⟩
    by_cases hn : n = number
    · subst hn
      obtain rfl : document = kept := by simpa [Shared.set] using hkept
      rcases h.of_load hload with hdue | ⟨since, hinUse, hother⟩
      · exact ⟨[], .now hrequest, .inl hdue⟩
      · refine ⟨since ++ [(n, request)], hinUse.concat fun heq => ?_, .inr (hother.append _)⟩
        exact hrequest (congrArg Prod.snd heq)
    · exact h.other hn request (by simpa [Shared.set, hn] using hkept)
  | @put anchor document hload =>
    have hputs : putsDone [(number, .put anchor)] [.ok .done] = [(number, anchor)] := rfl
    rw [hputs]
    -- The document is not stale, so with the anchor it has all that is due now.
    have hdue : HasDue initial (puts ++ [(number, anchor)]) (document.put anchor) := by
      rcases h.of_load hload with hdue | ⟨since, hinUse, hother⟩
      · exact hdue.put (hclean anchor rfl) number
      · exact absurd hother (hfresh anchor rfl since hinUse)
    refine ⟨⟨_, .inl rfl, hdue⟩, fun n kept hkept => ?_⟩
    by_cases hn : n = number
    · subst hn
      obtain rfl : document.put anchor = kept := by simpa [Shared.set] using hkept
      exact ⟨[], .now (by simp), .inl hdue⟩
    · -- Every other handle is overtaken.
      have hkept' : (shared.handles n).document = some kept := by
        simpa [Shared.set, hn] using hkept
      obtain ⟨since, hinUse, -⟩ := h.handles n kept hkept'
      refine ⟨since ++ [(number, .put anchor)], hinUse.concat (by simp), .inr ?_⟩
      exact ⟨number, anchor, List.mem_append_right _ (List.mem_singleton_self _), Ne.symm hn⟩

/-- **What is shown at first is shown after any calls without stale puts.** -/
theorem run {entry : Entry} (hload : load stamp entry = .ok initial) :
    ∀ calls : List (Nat × Request),
      (∀ call ∈ calls, ∀ anchor, call.2 = .put anchor → anchor.Clean) → NoStalePut calls →
      Shown stamp initial calls (putsDone calls (Shared.run stamp calls { entry }).1)
        (Shared.run stamp calls { entry }).2 := by
  intro calls
  induction calls using List.reverseRecOn with
  | nil =>
    intro _ _
    refine ⟨⟨initial, .inr hload, .first (legible_of_load hload)⟩, fun n document h => ?_⟩
    exact absurd h (by simp [Shared.run])
  | append_singleton calls call ih =>
    intro hclean hfresh
    obtain ⟨number, request⟩ := call
    have hshown := ih (fun call hcall => hclean call (List.mem_append_left _ hcall))
      fun before n anchor after since heq => hfresh before n anchor (after ++ [(number, request)])
        since (by rw [heq]; simp)
    have hstep := hshown.ask number
      (hclean _ (List.mem_append_right _ (List.mem_singleton_self _)))
      fun anchor heq since => hfresh calls number anchor [] since
        (by rw [show request = .put anchor from heq])
    rw [Shared.run_append]
    simp only [Shared.run]
    rw [putsDone_concat (Shared.length_run stamp calls _)]
    exact hstep

end Shown

/-! ## The file is what the last put makes of it -/

/-- The puts that went through a handle. -/
def putsThrough (number : Nat) (puts : List (Nat × Anchor)) : List (Nat × Anchor) :=
  puts.filter (·.1 == number)

theorem putAll_concat (document : Document) (puts : List (Nat × Anchor)) (number : Nat)
    (anchor : Anchor) :
    putAll document (puts ++ [(number, anchor)]) = (putAll document puts).put anchor :=
  List.foldl_concat _ _ _ _

theorem putsThrough_self (number : Nat) (puts : List (Nat × Anchor)) (anchor : Anchor) :
    putsThrough number (puts ++ [(number, anchor)]) =
      putsThrough number puts ++ [(number, anchor)] := by
  unfold putsThrough
  rw [List.filter_append, List.filter_cons_of_pos (by simp), List.filter_nil]

theorem putsThrough_other {number other : Nat} (h : other ≠ number) (puts : List (Nat × Anchor))
    (anchor : Anchor) :
    putsThrough number (puts ++ [(other, anchor)]) = putsThrough number puts := by
  unfold putsThrough
  rw [List.filter_append, List.filter_cons_of_neg (by simpa using h), List.filter_nil,
    List.append_nil]

/-- What a handle has in memory after some calls, and what it wrote if it was the last to put. -/
structure Carried (number : Nat) (document : Document) (puts : List (Nat × Anchor))
    (shared : Shared) : Prop where
  memory : (shared.handles number).document = some (putAll document (putsThrough number puts))
  file : ∀ anchor, puts.getLast? = some (number, anchor) →
    shared.entry = .file (fileOf (putAll document (putsThrough number puts)))

/-- One request keeps what a handle carries, unless it tells the handle to reload. -/
theorem Carried.ask (h : Carried number document puts shared) (stamp : String) {other : Nat}
    {request : Request} (hreload : (number, Request.reload) ≠ (other, request)) :
    Carried number document
      (puts ++ putsDone [(other, request)] [(shared.ask stamp other request).1])
      (shared.ask stamp other request).2 := by
  have hasked := asked stamp other request shared
  generalize (shared.ask stamp other request).1 = reply at hasked
  generalize (shared.ask stamp other request).2 = next at hasked
  -- The handle's own requests find its document in memory.
  have hown : ∀ found, (shared.handles number).load stamp shared.entry = .ok found →
      found = putAll document (putsThrough number puts) := by
    intro found hload
    unfold Handle.load at hload
    rw [h.memory] at hload
    exact (Except.ok.inj hload).symm
  cases hasked with
  | failed hrequest =>
    have hputs : puts ++ putsDone [(other, request)] [.error ‹_›] = puts := by
      cases request <;> simp [putsDone]
    rw [hputs]
    exact h
  | reloaded =>
    have hother : number ≠ other := fun heq => hreload (by rw [heq])
    have hputs : puts ++ putsDone [(other, .reload)] [.ok .done] = puts := by simp [putsDone]
    rw [hputs]
    exact ⟨by simpa [Shared.set, hother] using h.memory, h.file⟩
  | @looked _ reply found hrequest hput hload =>
    have hputs : puts ++ putsDone [(other, request)] [.ok reply] = puts := by
      cases request with
      | put anchor => exact absurd rfl (hput anchor)
      | _ => simp [putsDone]
    rw [hputs]
    refine ⟨?_, h.file⟩
    by_cases hother : number = other
    · subst hother
      simp [Shared.set, hown found hload]
    · simpa [Shared.set, hother] using h.memory
  | @put anchor found hload =>
    have hputs : putsDone [(other, .put anchor)] [.ok .done] = [(other, anchor)] := rfl
    rw [hputs]
    by_cases hother : number = other
    · subst hother
      rw [hown found hload]
      have hnext : (putAll document (putsThrough number puts)).put anchor =
          putAll document (putsThrough number (puts ++ [(number, anchor)])) := by
        rw [putsThrough_self, putAll_concat]
      rw [hnext]
      exact ⟨by simp [Shared.set], fun _ _ => rfl⟩
    · refine ⟨?_, fun last hlast => ?_⟩
      · rw [putsThrough_other (Ne.symm hother)]
        simpa [Shared.set, hother] using h.memory
      · rw [List.getLast?_concat] at hlast
        exact absurd (congrArg Prod.fst (Option.some.inj hlast)).symm hother

theorem Carried.run (hmemory : (shared.handles number).document = some document) (stamp : String) :
    ∀ calls : List (Nat × Request), (number, Request.reload) ∉ calls →
      Carried number document (putsDone calls (Shared.run stamp calls shared).1)
        (Shared.run stamp calls shared).2 := by
  intro calls
  induction calls using List.reverseRecOn with
  | nil => exact fun _ => ⟨hmemory, fun _ h => absurd h (by simp [putsDone])⟩
  | append_singleton calls call ih =>
    intro hreload
    have hcarried := ih fun hmem => hreload (List.mem_append_left _ hmem)
    have hcall : (number, Request.reload) ≠ call := fun heq =>
      hreload (List.mem_append_right _ (List.mem_singleton.mpr heq))
    rw [Shared.run_append]
    simp only [Shared.run]
    rw [putsDone_concat (Shared.length_run stamp calls shared)]
    exact hcarried.ask stamp hcall

/-- It makes no difference whether a handle has read its document before or reads it now. -/
theorem ask_of_load (hload : (shared.handles number).load stamp shared.entry = .ok document)
    {request : Request} (hrequest : request ≠ .reload) :
    shared.ask stamp number request =
      (shared.set number shared.entry ⟨some document⟩).ask stamp number request := by
  have hset : ((shared.set number shared.entry ⟨some document⟩).handles number).load stamp
      (shared.set number shared.entry ⟨some document⟩).entry = .ok document := by
    simp [Shared.set, Handle.load]
  have hhandles : ∀ handle : Handle,
      (fun n => if n = number then handle else shared.handles n) =
        fun n => if n = number then handle else
          (shared.set number shared.entry ⟨some document⟩).handles n := by
    intro handle
    funext n
    by_cases hn : n = number <;> simp [Shared.set, hn]
  cases request with
  | get id => simp only [Shared.ask, Store.ask, withDocument, hload, hset, hhandles]; rfl
  | list => simp only [Shared.ask, Store.ask, withDocument, hload, hset, hhandles]; rfl
  | put anchor => simp only [Shared.ask, Store.ask, withDocument, hload, hset, hhandles]
  | reload => exact absurd rfl hrequest

/-- **The file is what the handle of the last put makes of it**: the document that it went on from,
with all that was put through it. -/
theorem entry_of_last_put (hload : (shared.handles number).load stamp shared.entry = .ok document)
    {request : Request} {after : List (Nat × Request)}
    (hreload : (number, Request.reload) ∉ (number, request) :: after)
    {replies : List (Except LoadError Reply)} {final : Shared}
    (hrun : Shared.run stamp ((number, request) :: after) shared = (replies, final))
    {anchor : Anchor}
    (hlast : (putsDone ((number, request) :: after) replies).getLast? = some (number, anchor)) :
    final.entry = .file (fileOf (putAll document
      (putsThrough number (putsDone ((number, request) :: after) replies)))) := by
  have hrequest : request ≠ .reload := fun heq => hreload (by rw [heq]; exact List.mem_cons_self)
  have hsame : Shared.run stamp ((number, request) :: after) shared =
      Shared.run stamp ((number, request) :: after)
        (shared.set number shared.entry ⟨some document⟩) := by
    rw [Shared.run, Shared.run, ask_of_load hload hrequest]
  have hmemory : ((shared.set number shared.entry ⟨some document⟩).handles number).document =
      some document := by
    simp [Shared.set]
  have hcarried := Carried.run hmemory stamp _ hreload
  rw [← hsame, hrun] at hcarried
  exact hcarried.file anchor hlast

/-! ## What is left of the puts of several handles -/

/-- **Handles that share a file.**  If no anchor is put from a stale document, the file has under
each id the anchor put last, or else the one that was there at first; anchors without unknown fields
are there just as they were.  And in any case, from a use of a handle on that was not told to reload
after it, the file is what that handle makes of it if it is the last to put: the document that it
went on from, with all that was put through it. -/
theorem file_of_shared {entry : Entry} (hload : load stamp entry = .ok initial)
    (hclean : ∀ call ∈ calls, ∀ anchor, call.2 = .put anchor → anchor.Clean)
    {replies : List (Except LoadError Reply)} {final : Shared}
    (hrun : Shared.run stamp calls { entry } = (replies, final)) :
    (NoStalePut calls → ∃ document, final.entry.Holds stamp document ∧
      HasDue initial (putsDone calls replies) document ∧
      ∀ id anchor, due initial (putsDone calls replies) id = some anchor → anchor.Plain →
        document.get? id = some anchor) ∧
    ∀ before number request after document later anchor,
      calls = before ++ (number, request) :: after →
      (number, Request.reload) ∉ (number, request) :: after →
      ((Shared.run stamp before { entry }).2.handles number).load stamp
        (Shared.run stamp before { entry }).2.entry = .ok document →
      later = putsDone ((number, request) :: after) (replies.drop before.length) →
      later.getLast? = some (number, anchor) →
      final.entry = .file (fileOf (putAll document (putsThrough number later))) := by
  refine ⟨fun hfresh => ?_, ?_⟩
  · have hshown := Shown.run hload calls hclean hfresh
    rw [hrun] at hshown
    obtain ⟨document, hholds, hdue⟩ := hshown.entry
    refine ⟨document, hholds, hdue, fun id anchor hanchor hplain => ?_⟩
    have hfound := hdue.get? id
    rw [hanchor] at hfound
    generalize document.get? id = found at hfound
    cases hfound with
    | some hrewritten => rw [hplain.eq_of_rewritten hrewritten]
  · intro before number request after document later anchor hcalls hreload hread hlater hlast
    subst hcalls
    rw [Shared.run_append] at hrun
    obtain ⟨rfl, rfl⟩ := Prod.mk.inj hrun
    rw [List.drop_left' (Shared.length_run stamp before { entry })] at hlater
    subst hlater
    exact entry_of_last_put hread hreload rfl hlast

/-- An anchor with an id and not much else. -/
def bareAnchor (id : String) : Anchor :=
  { id, selector := "#" ++ id, updatedAt := "" }

theorem plain_bareAnchor {id : String} (h : Anchor.visibleId (.string id) = .ok id) :
    (bareAnchor id).Plain :=
  { id := h
    stability := show ¬1 < (0 : Float) ∧ ¬(0 : Float) < 0 by decide +kernel
    range := fun _ h => absurd h (by simp [bareAnchor])
    hint := fun _ h => absurd h (by simp [bareAnchor])
    about := fun _ h => absurd h (by simp [bareAnchor])
    extra := rfl }

theorem load_bareAnchors (stamp : String) {ids : List String}
    (hvisible : ∀ id ∈ ids, Anchor.visibleId (.string id) = .ok id) (hids : ids.Nodup) :
    load stamp (.file (fileOf { anchors := ids.map bareAnchor })) =
      .ok { anchors := ids.map bareAnchor } := by
  refine load_fileOf_of_plain stamp rfl (fun anchor hanchor => ?_) ?_
  · obtain ⟨id, hid, rfl⟩ := List.mem_map.mp hanchor
    exact plain_bareAnchor (hvisible id hid)
  · show ((ids.map bareAnchor).map (·.id)).Nodup
    rw [List.map_map]
    exact (List.map_id ids).symm ▸ hids

theorem put_bareAnchor (ids : List String) {id : String} (h : id ∉ ids) :
    Document.put { anchors := ids.map bareAnchor } (bareAnchor id) =
      { anchors := (ids ++ [id]).map bareAnchor } := by
  have hput : Document.putAnchor (bareAnchor id) (ids.map bareAnchor) =
      (ids ++ [id]).map bareAnchor := by
    induction ids with
    | nil => rfl
    | cons first rest ih =>
      obtain ⟨hne, hrest⟩ := List.ne_and_not_mem_of_not_mem_cons h
      have hother : ¬(bareAnchor first).id == (bareAnchor id).id := by
        simpa [bareAnchor] using Ne.symm hne
      rw [List.map_cons, Document.putAnchor, if_neg hother, ih hrest]
      rfl
  show ({ anchors := Document.putAnchor _ _ } : Document) = _
  rw [hput]

/-- Two handles that put in turn, the second one opened after the first one is done. -/
def inTurn : List (Nat × Request) :=
  [(0, .put (bareAnchor "b")), (1, .list), (1, .put (bareAnchor "c"))]

theorem noStalePut_inTurn : NoStalePut inTurn := by
  intro before number anchor after since hsplit hinUse hother
  obtain ⟨earlier, request, rfl, -, -⟩ := hinUse
  obtain ⟨other, put, hmem, hne⟩ := hother
  -- There is room for one call at most between a use and a put, and only with the same handle.
  have hlength := congrArg List.length hsplit
  simp only [inTurn, List.length_append, List.length_cons, List.length_nil] at hlength
  rcases since with _ | ⟨x, _ | ⟨y, rest⟩⟩
  · exact absurd hmem List.not_mem_nil
  · obtain rfl : earlier = [] := List.length_eq_zero_iff.mp (by simp at hlength; omega)
    simp only [inTurn, List.nil_append, List.cons_append, List.cons.injEq] at hsplit
    obtain ⟨hfirst, -, hlast, -⟩ := hsplit
    have hzero := congrArg Prod.fst hfirst
    have hone := congrArg Prod.fst hlast
    simp only at hzero hone
    omega
  · simp only [List.length_cons] at hlength
    omega

/-- Every request of the two handles is done, and the second one sees what the first one put. -/
theorem run_inTurn {first second : Document}
    (hfirst : load "" (.file (fileOf first)) = .ok first)
    (hput : first.put (bareAnchor "b") = second)
    (hsecond : load "" (.file (fileOf second)) = .ok second) :
    (Shared.run "" inTurn { entry := .file (fileOf first) }).1 =
      [.ok .done, .ok (.anchors second.anchors), .ok .done] := by
  simp [inTurn, Shared.run, Shared.ask, Store.ask, withDocument, Handle.load, hfirst, hput, hsecond]

/-- Handles that put in turn lose nothing. -/
theorem file_of_shared_inTurn : ∃ replies final document,
    Shared.run "" inTurn { entry := .file (fileOf { anchors := ["a"].map bareAnchor }) } =
        (replies, final) ∧
      final.entry.Holds "" document ∧ document.get? "a" = some (bareAnchor "a") ∧
      document.get? "b" = some (bareAnchor "b") ∧ document.get? "c" = some (bareAnchor "c") := by
  have hvisible : ∀ id ∈ ["a", "b", "c"], Anchor.visibleId (.string id) = .ok id := by
    simp only [List.forall_mem_cons]
    exact ⟨rfl, rfl, rfl, fun _ h => absurd h (by simp)⟩
  have hplain : ∀ id ∈ ["a", "b", "c"], (bareAnchor id).Plain := fun id hid =>
    plain_bareAnchor (hvisible id hid)
  have hread : ∀ ids : List String, ids.Sublist ["a", "b", "c"] →
      load "" (.file (fileOf { anchors := ids.map bareAnchor })) =
        .ok { anchors := ids.map bareAnchor } := fun ids hids =>
    load_bareAnchors "" (fun id hid => hvisible id (hids.subset hid)) (hids.nodup (by simp))
  have hfirst := hread ["a"] (by decide)
  have hclean : ∀ call ∈ inTurn, ∀ anchor, call.2 = .put anchor → anchor.Clean := by
    intro call hcall anchor hput
    simp only [inTurn, List.mem_cons, List.not_mem_nil, or_false] at hcall
    rcases hcall with rfl | rfl | rfl <;> cases hput
    · exact (hplain "b" (by simp)).clean
    · exact (hplain "c" (by simp)).clean
  have hreplies := run_inTurn hfirst (put_bareAnchor ["a"] (by simp)) (hread ["a", "b"] (by decide))
  cases hrun : Shared.run "" inTurn
    { entry := .file (fileOf { anchors := ["a"].map bareAnchor }) } with
  | mk replies final =>
  rw [hrun] at hreplies
  dsimp only at hreplies
  obtain ⟨document, hholds, -, hkept⟩ := (file_of_shared hfirst hclean hrun).1 noStalePut_inTurn
  rw [hreplies] at hkept
  exact ⟨replies, final, document, rfl, hholds, hkept "a" _ rfl (hplain "a" (by simp)),
    hkept "b" _ rfl (hplain "b" (by simp)), hkept "c" _ rfl (hplain "c" (by simp))⟩

/-- Two handles that both read the file before either of them puts. -/
def crossed : List (Nat × Request) :=
  [(0, .list), (1, .put (bareAnchor "a")), (0, .put (bareAnchor "b"))]

/-- What the two handles leave in the file is what the first one makes of it. -/
theorem run_crossed {first last : Document}
    (hfirst : load "" (.file (fileOf first)) = .ok first)
    (hput : first.put (bareAnchor "b") = last) :
    (Shared.run "" crossed { entry := .file (fileOf first) }).1 =
        [.ok (.anchors first.anchors), .ok .done, .ok .done] ∧
      (Shared.run "" crossed { entry := .file (fileOf first) }).2.entry = .file (fileOf last) := by
  simp [crossed, Shared.run, Shared.ask, Store.ask, withDocument, Handle.load, hfirst, hput]

/-- A new handle gets what is in the file. -/
theorem ask_get_of_load {entry : Entry} {document : Document}
    (hload : load stamp entry = .ok document) (id : String) :
    (ask stamp (.get id) (entry, {})).1 = .ok (.anchor (document.get? id)) := by
  simp only [ask, withDocument, Handle.load, hload]

/-- **A put from a stale document loses what another handle put**: all requests are done, and yet
who reads the file afterwards does not get the anchor that was put last under its id. -/
theorem put_lost : ∃ replies final,
    load "" (.file (fileOf {})) = .ok {} ∧
      Shared.run "" crossed { entry := .file (fileOf {}) } = (replies, final) ∧
      due {} (putsDone crossed replies) "a" = some (bareAnchor "a") ∧
      (ask "" (.get "a") (final.entry, {})).1 = .ok (.anchor none) := by
  have hfirst : load "" (.file (fileOf {})) = .ok {} :=
    load_fileOf_of_plain "" rfl (fun _ h => absurd h (by simp)) List.nodup_nil
  have hlast : load "" (.file (fileOf { anchors := ["b"].map bareAnchor })) =
      .ok { anchors := ["b"].map bareAnchor } :=
    load_bareAnchors "" (List.forall_mem_singleton.mpr rfl) (List.nodup_singleton _)
  obtain ⟨hreplies, hentry⟩ := run_crossed hfirst (put_bareAnchor [] List.not_mem_nil)
  cases hrun : Shared.run "" crossed { entry := .file (fileOf {}) } with
  | mk replies final =>
  rw [hrun] at hreplies hentry
  dsimp only at hreplies hentry
  refine ⟨replies, final, hfirst, rfl, ?_, ?_⟩
  · rw [hreplies]
    simp [due, putsDone, crossed, bareAnchor]
  · rw [hentry, List.nil_append, ask_get_of_load hlast]
    simp [Document.get?, bareAnchor]

end Store

end Mooring
