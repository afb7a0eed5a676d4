import Mooring.Store.Folder
import Mooring.Proofs.Store.Written

/-!
# A handle is a map that keeps the order of its keys

A handle on a file that was missing at first answers like a map from ids to anchors that remembers
the order in which its ids were first put, whether it is told to reload or not
(`runIn_answers`).  An anchor comes back as it is written: two anchors that are written the same way
are not told apart.  A new handle on the file lists the same anchors, and besides that file nothing
new is in the folder.

What carries the run is `Mirrors`: the document of a handle, and the document that was written last,
has the ids in order of their first put, and under each id what was put last.  It is kept by a put
(`Mirrors.put`) and by writing and reading (`Mirrors.load`).
-/

namespace Mooring

open Mooring.Record

/-! ## Saving a file -/

namespace Table

theorem put_append_self {α : Type} {name : String} {table : Table α} (h : name ∉ names table)
    (value old : α) : put name value (table ++ [(name, old)]) = table ++ [(name, value)] := by
  induction table with
  | nil => exact if_pos rfl
  | cons first rest ih =>
    obtain ⟨key, found⟩ := first
    obtain ⟨hkey, hrest⟩ := not_or.mp (mt List.mem_cons.mpr h)
    rw [List.cons_append, put, if_neg (Ne.symm hkey), ih hrest, List.cons_append]

theorem without_append_self {α : Type} {name : String} {table : Table α} (h : name ∉ names table)
    (value : α) : without name (table ++ [(name, value)]) = table := by
  have htable : table.filter (·.1 != name) = table :=
    List.filter_eq_self.mpr fun pair hpair =>
      bne_iff_ne.mpr fun heq => h (by rw [← heq]; exact mem_names hpair)
  unfold without
  rw [List.filter_append, htable, List.filter_cons_of_neg (by simp), List.filter_nil,
    List.append_nil]

end Table

namespace Store

/-- **Saving changes the file and nothing else**: of the draft nothing is left. -/
theorem perform_saving {folder : Folder} {draft : String} (h : draft ∉ Table.names folder)
    (name : String) (bytes : ByteArray) :
    (saving draft name bytes).foldl Folder.perform folder = folder.put name bytes := by
  have hput : folder.put draft bytes = folder ++ [(draft, bytes)] :=
    Table.put_of_not_mem (fun pair hpair heq => h (by rw [← heq]; exact Table.mem_names hpair)) _
  have hget : Table.get? draft (folder ++ [(draft, bytes)]) = some bytes := by
    rw [← hput]
    exact Table.get?_put_self draft bytes folder
  show Folder.perform (folder.put draft bytes) (.rename draft name) = _
  rw [hput, Folder.perform, hget]
  dsimp only
  rw [Table.without_append_self h]

/-! ## What the map holds -/

/-- The anchors that the requests put, in order. -/
def putsOf (requests : List Request) : List Anchor :=
  requests.filterMap fun
    | .put anchor => some anchor
    | _ => none

/-- The anchor that was put last under an id. -/
def lastPut? (puts : List Anchor) (id : String) : Option Anchor :=
  (puts.filter (·.id == id)).getLast?

/-- The ids in order of their first put. -/
def firstPuts (puts : List Anchor) : List String :=
  (puts.map (·.id)).eraseDups

/-- The answers of a map after some anchors were put: under each id is what was put last, and the
ids are in order of their first put. -/
inductive Answers (puts : List Anchor) : Request → Except LoadError Reply → Prop
  | put (anchor : Anchor) : Answers puts (.put anchor) (.ok .done)
  | reload : Answers puts .reload (.ok .done)
  | get {id : String} {found : Option Anchor} :
      found.map Anchor.toJson = (lastPut? puts id).map Anchor.toJson →
      Answers puts (.get id) (.ok (.anchor found))
  | list {all : List Anchor} : all.map (·.id) = firstPuts puts → (all.map (·.id)).Nodup →
      (∀ anchor ∈ all, (lastPut? puts anchor.id).map Anchor.toJson = some anchor.toJson) →
      Answers puts .list (.ok (.anchors all))

/-- The answers to requests one after the other, when some anchors were put before. -/
inductive AnswersAll : List Anchor → List Request → List (Except LoadError Reply) → Prop
  | nil (puts : List Anchor) : AnswersAll puts [] []
  | cons {puts : List Anchor} {request : Request} {reply : Except LoadError Reply}
      {requests : List Request} {replies : List (Except LoadError Reply)} :
      Answers puts request reply → AnswersAll (puts ++ putsOf [request]) requests replies →
      AnswersAll puts (request :: requests) (reply :: replies)

theorem AnswersAll.head {puts : List Anchor} {request : Request} {reply : Except LoadError Reply}
    {requests : List Request} {replies : List (Except LoadError Reply)}
    (h : AnswersAll puts (request :: requests) (reply :: replies)) :
    Answers puts request reply := by
  cases h with
  | cons hfirst _ => exact hfirst

theorem AnswersAll.tail {puts : List Anchor} {request : Request} {reply : Except LoadError Reply}
    {requests : List Request} {replies : List (Except LoadError Reply)}
    (h : AnswersAll puts (request :: requests) (reply :: replies)) :
    AnswersAll (puts ++ putsOf [request]) requests replies := by
  cases h with
  | cons _ hrest => exact hrest

/-- What a map answers when it is asked for an id. -/
theorem Answers.get_eq {puts : List Anchor} {id : String} {reply : Except LoadError Reply}
    (h : Answers puts (.get id) reply) : ∃ found, reply = .ok (.anchor found) ∧
      found.map Anchor.toJson = (lastPut? puts id).map Anchor.toJson := by
  cases h with
  | get hsame => exact ⟨_, rfl, hsame⟩

theorem lastPut?_concat (puts : List Anchor) (anchor : Anchor) (id : String) :
    lastPut? (puts ++ [anchor]) id = if anchor.id = id then some anchor else lastPut? puts id := by
  unfold lastPut?
  rw [List.filter_append]
  by_cases h : anchor.id = id
  · rw [List.filter_cons_of_pos (by simpa using h)]
    simp [h]
  · rw [List.filter_cons_of_neg (by simpa using h)]
    simp [h]

theorem firstPuts_concat (puts : List Anchor) (anchor : Anchor) :
    firstPuts (puts ++ [anchor]) =
      if anchor.id ∈ firstPuts puts then firstPuts puts else firstPuts puts ++ [anchor.id] := by
  unfold firstPuts
  rw [List.map_append, List.eraseDups_append]
  simp only [List.map_cons, List.map_nil, List.removeAll, List.mem_eraseDups]
  by_cases h : anchor.id ∈ puts.map (·.id)
  · rw [if_pos h, List.filter_cons_of_neg (by simpa using h), List.filter_nil, List.eraseDups_nil,
      List.append_nil]
  · rw [if_neg h, List.filter_cons_of_pos (by simpa using h), List.filter_nil]
    rfl

end Store

/-! ## Documents that mirror the map -/

theorem Document.ids_put (document : Document) (anchor : Anchor) :
    (document.put anchor).ids =
      if anchor.id ∈ document.ids then document.ids else document.ids ++ [anchor.id] := by
  obtain ⟨version, anchors, extra⟩ := document
  show (putAnchor anchor anchors).map (·.id) =
    if anchor.id ∈ anchors.map (·.id) then anchors.map (·.id) else anchors.map (·.id) ++ [anchor.id]
  induction anchors with
  | nil => rfl
  | cons first rest ih =>
    rw [putAnchor]
    by_cases hfirst : first.id = anchor.id
    · simp [hfirst]
    · have hmem : anchor.id ∈ (first :: rest).map (·.id) ↔ anchor.id ∈ rest.map (·.id) := by
        rw [List.map_cons, List.mem_cons]
        exact or_iff_right (Ne.symm hfirst)
      rw [if_neg (by simpa using hfirst), List.map_cons, ih]
      simp only [hmem]
      split <;> rfl

theorem Document.nodup_ids_put {document : Document} (h : document.ids.Nodup) (anchor : Anchor) :
    (document.put anchor).ids.Nodup := by
  rw [ids_put]
  split
  next => exact h
  next hnew =>
    exact List.nodup_append.mpr ⟨h, List.nodup_singleton _, fun id hid other hother heq =>
      hnew (by rw [← List.mem_singleton.mp hother, ← heq]; exact hid)⟩

theorem Document.leftover_put {document : Document}
    (h : Leftover Document.keys document.fields document.extra) (anchor : Anchor) :
    Leftover Document.keys (document.put anchor).fields (document.put anchor).extra :=
  leftover_of_plain Document.plain_keys h.foreign _

theorem Document.Lasting.put {document : Document} (h : document.Lasting) {anchor : Anchor}
    (hanchor : anchor.Lasting) : (document.put anchor).Lasting := by
  refine ⟨leftover_put h.leftover anchor, h.portable, fun other hother => ?_,
    nodup_ids_put h.ids anchor⟩
  rcases mem_putAnchor_iff hother with rfl | hold
  · exact hanchor
  · exact h.anchors other hold

theorem Document.Readable.put {document : Document} (h : document.Readable) {anchor : Anchor}
    (hanchor : anchor.Readable ∧ anchor.Tidy) : (document.put anchor).Readable := by
  refine ⟨leftover_put h.leftover anchor, h.tidy, fun other hother => ?_,
    nodup_ids_put h.ids anchor⟩
  rcases mem_putAnchor_iff hother with rfl | hold
  · exact hanchor
  · exact h.anchors other hold

namespace Store

/-- The document holds what the map holds, as it is written, and can be read again. -/
structure Mirrors (puts : List Anchor) (document : Document) : Prop where
  ids : document.ids = firstPuts puts
  get? : ∀ id, (document.get? id).map Anchor.toJson = (lastPut? puts id).map Anchor.toJson
  lasting : document.Lasting

variable {puts : List Anchor} {document : Document}

theorem mirrors_empty : Mirrors [] {} :=
  ⟨rfl, fun _ => rfl, Document.lasting_empty⟩

theorem Mirrors.put (h : Mirrors puts document) {anchor : Anchor} (hanchor : anchor.Lasting) :
    Mirrors (puts ++ [anchor]) (document.put anchor) := by
  refine ⟨?_, fun id => ?_, h.lasting.put hanchor⟩
  · rw [Document.ids_put, firstPuts_concat, h.ids]
  · rw [Document.get?_put, lastPut?_concat]
    split
    · rfl
    · exact h.get? id

/-- **Written and read, a document mirrors the map as before.** -/
theorem Mirrors.load (h : Mirrors puts document) (stamp : String) : ∃ found,
    Store.load stamp (.file (fileOf document)) = .ok found ∧ Mirrors puts found := by
  obtain ⟨found, hread, hsame, hlasting⟩ := h.lasting.again stamp
  have hanchors := Document.anchors_of_toJson_eq hsame
  refine ⟨found, ?_, ?_, fun id => ?_, hlasting⟩
  · rw [load_fileOf, h.lasting.settled_toJson]
    rw [Document.ofJson_toJson] at hread
    exact documentOfJson_of_fields hread
  · rw [← h.ids]
    exact map_eq_of_forall₂ hanchors fun _ _ => Anchor.id_eq_of_toJson_eq
  · have hfound : Option.Rel (fun anchor found => found.toJson = anchor.toJson)
        (document.get? id) (found.get? id) :=
      find?_of_forall₂ hanchors fun _ _ _ hpair => by rw [Anchor.id_eq_of_toJson_eq hpair]
    rw [← h.get? id]
    generalize document.get? id = written at hfound ⊢
    generalize found.get? id = again at hfound ⊢
    cases hfound with
    | none => rfl
    | some hpair => exact congrArg some hpair

theorem Mirrors.lastPut? (h : Mirrors puts document) {anchor : Anchor}
    (hanchor : anchor ∈ document.anchors) :
    (Store.lastPut? puts anchor.id).map Anchor.toJson = some anchor.toJson := by
  have hget : document.get? anchor.id = some anchor :=
    Document.find?_id h.lasting.ids hanchor
  rw [← h.get?, hget]
  rfl

/-- Documents that mirror the same map hold the same anchors, as they are written. -/
theorem Mirrors.toJson_anchors (h : Mirrors puts document) {other : Document}
    (hother : Mirrors puts other) :
    other.anchors.map Anchor.toJson = document.anchors.map Anchor.toJson := by
  have hanchors : ∀ {document : Document}, Mirrors puts document →
      (document.anchors.map Anchor.toJson).map some =
        (firstPuts puts).map fun id => (Store.lastPut? puts id).map Anchor.toJson := by
    intro document h
    rw [← h.ids, Document.ids, List.map_map, List.map_map]
    exact List.map_congr_left fun anchor hanchor => (h.lastPut? hanchor).symm
  exact List.map_injective_iff.mpr (Option.some_injective _)
    ((hanchors hother).trans (hanchors h).symm)

/-! ## Runs -/

/-- After some anchors were put, the folder is what it was at first, with a file for them if there
are any; and so is what the handle has in memory. -/
structure Reflects (name : String) (first : Folder) (puts : List Anchor) (folder : Folder)
    (handle : Handle) : Prop where
  folder : (puts = [] ∧ folder = first) ∨
    ∃ written, Mirrors puts written ∧ folder = first ++ [(name, fileOf written)]
  handle : ∀ document ∈ handle.document, Mirrors puts document

variable {name : String} {first folder : Folder} {handle : Handle}

/-- **Whoever reads the file gets what was put.** -/
theorem Reflects.load (h : Reflects name first puts folder handle)
    (hname : name ∉ Table.names first) (stamp : String) :
    ∃ document, Store.load stamp (folder.entry name) = .ok document ∧ Mirrors puts document := by
  have hfirst : Table.get? name first = none :=
    Table.get?_eq_none fun pair hpair heq => hname (by rw [← heq]; exact Table.mem_names hpair)
  rcases h.folder with ⟨rfl, rfl⟩ | ⟨written, hwritten, rfl⟩
  · exact ⟨{}, by rw [Folder.entry, hfirst]; rfl, mirrors_empty⟩
  · obtain ⟨found, hload, hfound⟩ := hwritten.load stamp
    refine ⟨found, ?_, hfound⟩
    rw [Folder.entry, Table.get?_append, hfirst, Option.none_or, Table.get?, if_pos rfl]
    exact hload

/-- The handle goes on from what was put. -/
theorem Reflects.load_handle (h : Reflects name first puts folder handle)
    (hname : name ∉ Table.names first) (stamp : String) : ∃ document,
      handle.load stamp (folder.entry name) = .ok document ∧ Mirrors puts document := by
  cases hdocument : handle.document with
  | some document => exact ⟨document, by rw [Handle.load, hdocument], h.handle document hdocument⟩
  | none =>
    obtain ⟨found, hload, hfound⟩ := h.load hname stamp
    exact ⟨found, by rw [Handle.load, hdocument]; exact hload, hfound⟩

/-- **One call is answered like a request to the map**, and reflects it afterwards. -/
theorem Reflects.askIn (h : Reflects name first puts folder handle)
    (hname : name ∉ Table.names first) {call : Call}
    (hdraft : draftName (call.token folder) ∉ Table.names folder)
    (hput : ∀ anchor, call.request = .put anchor → anchor.Lasting) :
    Answers puts call.request (Store.askIn name call folder handle).1 ∧
      Reflects name first (puts ++ putsOf [call.request])
        (Store.askIn name call folder handle).2.1 (Store.askIn name call folder handle).2.2 := by
  obtain ⟨stamp, token, request⟩ := call
  obtain ⟨document, hload, hmirrors⟩ := h.load_handle hname stamp
  have hone : ∀ {puts : List Anchor} {document : Document}, Mirrors puts document →
      ∀ other ∈ (⟨some document⟩ : Handle).document, Mirrors puts other := by
    intro puts document hmirrors other hother
    rw [← Option.some.inj hother]
    exact hmirrors
  -- A request that puts nothing leaves the folder alone.
  have hkept : ∀ {handle : Handle}, (∀ document ∈ handle.document, Mirrors puts document) →
      Reflects name first (puts ++ []) folder handle := by
    intro handle hhandle
    rw [List.append_nil]
    exact ⟨h.folder, hhandle⟩
  cases request with
  | get id =>
    simp only [Store.askIn, ask, withDocument, hload]
    exact ⟨.get (hmirrors.get? id), hkept (hone hmirrors)⟩
  | list =>
    simp only [Store.askIn, ask, withDocument, hload]
    exact ⟨.list hmirrors.ids hmirrors.lasting.ids fun _ => hmirrors.lastPut?,
      hkept (hone hmirrors)⟩
  | reload =>
    simp only [Store.askIn, ask]
    exact ⟨.reload, hkept fun document hdocument => absurd hdocument (by simp)⟩
  | put anchor =>
    have hnext := hmirrors.put (hput anchor rfl)
    simp only [Store.askIn, ask, withDocument, hload]
    refine ⟨.put anchor, .inr ⟨document.put anchor, hnext, ?_⟩, hone hnext⟩
    rw [perform_saving hdraft]
    rcases h.folder with ⟨-, rfl⟩ | ⟨written, -, rfl⟩
    · exact Table.put_of_not_mem
        (fun pair hpair heq => hname (by rw [← heq]; exact Table.mem_names hpair)) _
    · exact Table.put_append_self hname _ _

/-- **A run is answered like requests to the map**, and reflects it afterwards. -/
theorem Reflects.runIn (hname : name ∉ Table.names first) : ∀ {calls : List Call}
    {puts : List Anchor} {folder : Folder} {handle : Handle},
    Reflects name first puts folder handle →
    (∀ call ∈ calls, ∀ folder, draftName (call.token folder) ∉ Table.names folder) →
    (∀ call ∈ calls, ∀ anchor, call.request = .put anchor → anchor.Lasting) →
    AnswersAll puts (calls.map (·.request)) (Store.runIn name calls folder handle).1 ∧
      Reflects name first (puts ++ putsOf (calls.map (·.request)))
        (Store.runIn name calls folder handle).2.1 (Store.runIn name calls folder handle).2.2 := by
  intro calls
  induction calls with
  | nil =>
    intro puts folder handle h _ _
    refine ⟨.nil puts, ?_⟩
    show Reflects name first (puts ++ []) folder handle
    rw [List.append_nil]
    exact h
  | cons call rest ih =>
    intro puts folder handle h hdrafts hputs
    obtain ⟨hdraft, hdrafts⟩ := List.forall_mem_cons.mp hdrafts
    obtain ⟨hput, hputs⟩ := List.forall_mem_cons.mp hputs
    obtain ⟨hanswer, hnext⟩ := h.askIn hname (hdraft folder) hput
    obtain ⟨hanswers, hlast⟩ := ih hnext hdrafts hputs
    refine ⟨.cons hanswer hanswers, ?_⟩
    have hall : putsOf ((call :: rest).map (·.request)) =
        putsOf [call.request] ++ putsOf (rest.map (·.request)) := by
      show putsOf ([call.request] ++ rest.map (·.request)) = _
      exact List.filterMap_append
    rw [hall, ← List.append_assoc]
    exact hlast

/-- **A handle refines a map that keeps the order of its keys, and what it holds is on disk.**  On a
file that was missing at first, all requests are answered as by the map; afterwards the folder has
the file and nothing else that it did not have before, and a new handle lists the same anchors as
the old one.  The anchors are those that were read from standard values, in which no field that
counts as missing hides another value. -/
theorem runIn_answers {name : String} {folder : Folder} (hname : name ∉ Table.names folder)
    {calls : List Call}
    (hdrafts : ∀ call ∈ calls, ∀ folder, draftName (call.token folder) ∉ Table.names folder)
    (hputs : ∀ call ∈ calls, ∀ anchor, call.request = .put anchor → ∃ stamp value,
      Json.Standard value ∧ Anchor.hides value = false ∧ Anchor.ofJson stamp value = .ok anchor) :
    let outcome := runIn name calls folder {}
    AnswersAll [] (calls.map (·.request)) outcome.1 ∧
      ((putsOf (calls.map (·.request)) = [] ∧ outcome.2.1 = folder) ∨
        ∃ bytes, outcome.2.1 = folder ++ [(name, bytes)]) ∧
      ∀ stamp, ∃ old new,
        (ask stamp .list (outcome.2.1.entry name, outcome.2.2)).1 = .ok (.anchors old) ∧
        (ask stamp .list (outcome.2.1.entry name, {})).1 = .ok (.anchors new) ∧
        new.map Anchor.toJson = old.map Anchor.toJson := by
  have hstart : Reflects name folder [] folder {} :=
    ⟨.inl ⟨rfl, rfl⟩, fun _ hdocument => absurd hdocument (by simp)⟩
  have hlasting : ∀ call ∈ calls, ∀ anchor, call.request = .put anchor → anchor.Lasting := by
    intro call hcall anchor hrequest
    obtain ⟨stamp, value, hstandard, hhides, hread⟩ := hputs call hcall anchor hrequest
    exact Anchor.lasting_of_ofJson hread hstandard hhides
  obtain ⟨hanswers, hend⟩ := Reflects.runIn hname hstart hdrafts hlasting
  refine ⟨hanswers, hend.folder.imp_right ?_, fun stamp => ?_⟩
  · rintro ⟨written, -, hfolder⟩
    exact ⟨_, hfolder⟩
  · obtain ⟨document, hload, hmirrors⟩ := hend.load_handle hname stamp
    obtain ⟨found, hfresh, hfound⟩ := hend.load hname stamp
    refine ⟨document.anchors, found.anchors, ?_, ?_, hmirrors.toJson_anchors hfound⟩
    · simp only [ask, withDocument, hload]
    · simp only [ask, withDocument, Handle.load, hfresh]

/-- All names of a folder in a row. -/
def freshToken (folder : Folder) : String :=
  String.ofList ((Table.names folder).flatMap String.toList)

/-- **There is always a name for a draft**: one that is longer than all the others. -/
theorem draftName_freshToken (folder : Folder) :
    draftName (freshToken folder) ∉ Table.names folder := by
  intro hmem
  have hle : (draftName (freshToken folder)).length ≤ (freshToken folder).length := by
    unfold freshToken
    rw [String.length_ofList, List.length_flatMap]
    exact List.single_le_sum (fun _ _ => Nat.zero_le _) _ (List.mem_map.mpr ⟨_, hmem, rfl⟩)
  have hlong : (draftName (freshToken folder)).length = (freshToken folder).length + 14 := by
    unfold draftName
    rw [String.length_append, String.length_append]
    show 9 + _ + 5 = _
    omega
  omega

/-- An anchor as JSON, with a hash in the second spelling. -/
def briefValue (id selector : String) : Json :=
  .object [("id", .string id), ("selector", .string selector), ("snippet_hash", .string "h")]

/-- The anchor that the value describes. -/
def briefAnchor (id selector : String) : Anchor :=
  { id, selector, snippetHash := some "h", updatedAt := "t" }

/-- Two anchors are put, and after a reload the first one again. -/
def briefCalls : List Call :=
  [.put (briefAnchor "a" "#a"), .put (briefAnchor "b" "#b"), .reload, .put (briefAnchor "a" "#new"),
    .list, .get "a"].map fun request => ⟨"t", freshToken, request⟩

theorem runIn_answers_brief : "anchors.json" ∉ Table.names ([] : Folder) ∧
    (∀ call ∈ briefCalls, ∀ folder, draftName (call.token folder) ∉ Table.names folder) ∧
    (∀ call ∈ briefCalls, ∀ anchor, call.request = .put anchor → ∃ stamp value,
      Json.Standard value ∧ Anchor.hides value = false ∧ Anchor.ofJson stamp value = .ok anchor) ∧
    AnswersAll [] (briefCalls.map (·.request)) (runIn "anchors.json" briefCalls [] {}).1 := by
  have hname : "anchors.json" ∉ Table.names ([] : Folder) := List.not_mem_nil
  have hdrafts : ∀ call ∈ briefCalls, ∀ folder,
      draftName (call.token folder) ∉ Table.names folder := by
    intro call hcall
    obtain ⟨request, -, rfl⟩ := List.mem_map.mp hcall
    exact draftName_freshToken
  have hputs : ∀ call ∈ briefCalls, ∀ anchor, call.request = .put anchor → ∃ stamp value,
      Json.Standard value ∧ Anchor.hides value = false ∧
        Anchor.ofJson stamp value = .ok anchor := by
    intro call hcall anchor hrequest
    obtain ⟨request, hmem, rfl⟩ := List.mem_map.mp hcall
    obtain rfl : request = .put anchor := hrequest
    simp only [List.mem_cons, Request.put.injEq, reduceCtorEq, List.not_mem_nil, or_false,
      false_or] at hmem
    rcases hmem with rfl | rfl | rfl
    · exact ⟨"t", briefValue "a" "#a", ⟨rfl, rfl⟩, by decide, rfl⟩
    · exact ⟨"t", briefValue "b" "#b", ⟨rfl, rfl⟩, by decide, rfl⟩
    · exact ⟨"t", briefValue "a" "#new", ⟨rfl, rfl⟩, by decide, rfl⟩
  exact ⟨hname, hdrafts, hputs, (runIn_answers hname hdrafts hputs).1⟩

/-- What is got after a put and a reload is read from the file. -/
theorem runIn_put_reload_get (anchor : Anchor) (id : String) :
    (runIn "anchors.json" ([.put anchor, .reload, .get id].map fun request =>
        ⟨"", freshToken, request⟩) [] {}).1 =
      [.ok .done, .ok .done,
        (ask "" (.get id) (.file (fileOf (Document.put {} anchor)), {})).1] := by
  simp only [List.map_cons, List.map_nil, runIn, askIn, ask, withDocument, Handle.load,
    Folder.entry, Table.get?, load, perform_saving (draftName_freshToken _), Table.put, if_pos]

/-- A handle that has not read its file answers from the file. -/
theorem ask_get_fresh (stamp id : String) (entry : Entry) :
    (ask stamp (.get id) (entry, {})).1 =
      (load stamp entry).map fun document => .anchor (document.get? id) := by
  cases hload : load stamp entry with
  | error error => simp only [ask, withDocument, Handle.load, hload, Except.map]
  | ok document => simp only [ask, withDocument, Handle.load, hload, Except.map]

/-- **A hidden value comes up after a reload**: the anchor that is got is not the one that was
put. -/
theorem hidden_value_got : Json.Standard hiddenHash ∧
    Anchor.ofJson "" hiddenHash = .ok hiddenHashAnchor ∧
    ¬AnswersAll [] [.put hiddenHashAnchor, .reload, .get "a"]
      (runIn "anchors.json" ([.put hiddenHashAnchor, .reload, .get "a"].map fun request =>
        ⟨"", freshToken, request⟩) [] {}).1 := by
  refine ⟨⟨rfl, rfl⟩, rfl, fun hanswers => ?_⟩
  rw [runIn_put_reload_get] at hanswers
  obtain ⟨found, hfound, hsame⟩ := hanswers.tail.tail.head.get_eq
  have hsettled : Json.Settled (Document.put {} hiddenHashAnchor).toJson := rfl
  have hload : load "" (.file (fileOf (Document.put {} hiddenHashAnchor))) =
      documentOfJson "" (Document.put {} hiddenHashAnchor).toJson :=
    (load_fileOf "" _).trans (congrArg (documentOfJson "") hsettled)
  rw [ask_get_fresh, hload] at hfound
  cases hread : documentOfJson "" (Document.put {} hiddenHashAnchor).toJson with
  | error error => rw [hread] at hfound; exact absurd hfound (by simp [Except.map])
  | ok document =>
    rw [hread] at hfound
    obtain rfl := Reply.anchor.inj (Except.ok.inj hfound)
    obtain ⟨hitems, -⟩ :=
      (Document.readFrom_of_ofFields (documentOfJson_eq_ok hread)).of_items rfl
    have hlast : lastPut? ([] ++ putsOf [.put hiddenHashAnchor] ++ putsOf [.reload]) "a" =
        some hiddenHashAnchor := by
      simp [lastPut?, putsOf, hiddenHashAnchor]
    rw [hlast] at hsame
    cases hget : document.get? "a" with
    | none => rw [hget] at hsame; exact absurd hsame (by simp)
    | some anchor =>
      rw [hget] at hsame
      obtain ⟨item, hitem, hfrom⟩ :=
        exists_of_forall₂ hitems.flip (List.mem_of_find?_eq_some hget)
      obtain rfl := List.mem_singleton.mp hitem
      exact toJson_ne_of_reread_hiddenHash hfrom (Option.some.inj hsame)

end Store

end Mooring
