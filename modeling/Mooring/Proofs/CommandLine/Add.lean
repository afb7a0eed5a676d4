import Mooring.CommandLine.Run
import Mooring.Proofs.Anchor.Lifecycle
import Mooring.Proofs.CommandLine.Disk
import Mooring.Proofs.Store.Unknown
import Mooring.Proofs.Store.Unreadable

/-!
# All or nothing

A call of `add` reads the source, reads the document, looks for the id, captures, and writes the
whole document, and each of these can fail.  What it ends with says which: unless it ends well,
nothing on the disk has changed; and if it ends well, the document file holds the new anchor, in the
place of the one that had its id, or else behind all others (`add_all_or_nothing`).

There is one exception, and so the path of the document has to be straight.  A path that turns back
from a directory that is not there leads nowhere, so the call takes it for a new document; then it
makes that directory, and the path leads to a document that was there all along
(`add_replaces_all`).
-/

namespace Mooring

open Mooring.Record Mooring.Json

/-! ## The ids in a document file -/

namespace Document

theorem StandsFor.ids {value : Json} {document : Document} (h : StandsFor value document) :
    (anchorsOf value).filterMap Anchor.idOf? = document.ids := by
  unfold Document.ids
  have hanchors := h.anchors
  generalize anchorsOf value = items at hanchors
  generalize document.anchors = anchors at hanchors
  induction hanchors with
  | nil => rfl
  | cons hpair _ ih => rw [List.filterMap_cons, hpair.1, List.map_cons, ih]

theorem standsFor_null : StandsFor .null {} :=
  ⟨fun _ _ => unknownKept_of_null _ _, .nil⟩

theorem has_iff {document : Document} {id : String} :
    document.has id = true ↔ id ∈ document.ids := by
  unfold has get? ids
  rw [List.find?_isSome, List.mem_map]
  simp only [beq_iff_eq]

end Document

namespace Store

/-- The ids in a document file, in order. -/
def Entry.ids (entry : Entry) : List String :=
  (Document.anchorsOf entry.value).filterMap Anchor.idOf?

variable {stamp : String} {entry : Entry} {document : Document}

/-- The value of a file stands for the document that is read from it. -/
theorem standsFor_of_load (h : load stamp entry = .ok document) :
    Document.StandsFor entry.value document := by
  cases entry with
  | nothing => rw [← Except.ok.inj h]; exact Document.standsFor_null
  | directory => exact absurd h (by simp [load])
  | file bytes =>
    obtain ⟨fields, hsettled, hjson, hfields⟩ := load_eq_ok h
    unfold Entry.value
    rw [hjson]
    exact Document.standsFor_of_ofFields hsettled hfields

end Store

namespace CommandLine

open Mooring.Fragment Mooring.Store Mooring.Text

variable {around : Surroundings} {call : AddCall} {source store : Entry}

/-! ## How a call ends -/

/-- Where and how a call captures in a text. -/
def AddCall.place (call : AddCall) (text : String) : Anchor.Place :=
  { source := text, file := call.file, line := call.line, selector := call.selector,
    algorithm := call.hashing.algorithm, digits := call.hashing.digits }

/-- Source and document can be read, and the id is free or may be taken. -/
structure Ready (around : Surroundings) (call : AddCall) (source store : Entry) (text : String)
    (old : Document) : Prop where
  source : ∃ page, source = .file page ∧ textOf page = .ok text
  load : load around.now.text store = .ok old
  force : call.id ∈ old.ids → call.force = true

/-- All that a call of `add` can come to, given what is found under its paths. -/
inductive AddEnds (around : Surroundings) (call : AddCall) (source store : Entry) :
    Performance → Prop
  /-- It fails and says so. -/
  | refused (message : String) : AddEnds around call source store (.failed message)
  /-- The source or the document is no text. -/
  | notText {bytes : ByteArray} {bad : BadBytes} : source = .file bytes ∨ store = .file bytes →
      textOf bytes = .error bad →
      AddEnds around call source store { ending := .breakdown (.unreadable bad) }
  /-- An anchor cannot be captured, and not for want of an element. -/
  | uncaptured {text : String} {old : Document} {failure : Anchor.CaptureFailure} :
      Ready around call source store text old →
      Anchor.capture call.id (call.place text) around.now.text = .error failure →
      (∀ error, failure ≠ .error error) →
      AddEnds around call source store { ending := .breakdown (.capture failure) }
  /-- The anchor is captured, and put into the document. -/
  | stored {text : String} {old : Document} {anchor : Anchor} :
      Ready around call source store text old →
      Anchor.capture call.id (call.place text) around.now.text = .ok anchor →
      AddEnds around call source store
        { ending := .exit 0 (savedLines around call.store anchor)
          saved := some (fileOf (old.put anchor)) }

theorem textOf_of_load {stamp : String} {bad : BadBytes}
    (h : load stamp store = .error (.notText bad)) :
    ∃ bytes, store = .file bytes ∧ textOf bytes = .error bad := by
  cases store with
  | nothing => exact absurd h (by simp [load])
  | directory => exact absurd h (by simp [load])
  | file bytes =>
    cases (load_eq_error_iff stamp).mp h with
    | notText hbad => exact ⟨bytes, rfl, textOf_eq_error_iff.mpr hbad⟩

/-- A call is refused for its id just if it is taken and must not be. -/
theorem refused_iff {old : Document} : (old.has call.id && !call.force) = true ↔
    ¬(call.id ∈ old.ids → call.force = true) := by
  rw [Bool.and_eq_true, Document.has_iff, Bool.not_eq_true', Classical.not_imp, Bool.not_eq_true]

/-- **A call comes to one of these ends.** -/
theorem add_ends : AddEnds around call source store (add around call source store) := by
  unfold add withSource
  split
  next bytes =>
    split
    next text htext =>
      unfold withStored
      dsimp only
      split
      next old hload =>
        split
        next => exact .refused _
        next hfree =>
          have hready : Ready around call (.file bytes) store text old :=
            ⟨⟨bytes, rfl, htext⟩, hload, not_not.mp (mt refused_iff.mpr hfree)⟩
          split
          next error _ => exact .refused _
          next failure hother hcapture => exact .uncaptured hready hcapture hother
          next anchor hcapture => exact .stored hready hcapture
      next bad hload =>
        obtain ⟨bytes, hstore, hbad⟩ := textOf_of_load hload
        exact .notText (.inr hstore) hbad
      next => exact .refused _
      next => exact .refused _
    next bad hbad => exact .notText (.inl rfl) hbad
  next => exact .refused _

/-- When everything can be read, the capture decides. -/
theorem Ready.add_eq {text : String} {old : Document}
    (h : Ready around call source store text old) :
    add around call source store =
      match Anchor.capture call.id (call.place text) around.now.text with
      | .error (.error error) => .failed error.message
      | .error failure => { ending := .breakdown (.capture failure) }
      | .ok anchor =>
        { ending := .exit 0 (savedLines around call.store anchor)
          saved := some (fileOf (old.put anchor)) } := by
  obtain ⟨page, rfl, htext⟩ := h.source
  have hfree : ¬(old.has call.id && !call.force) = true := fun hrefused =>
    refused_iff.mp hrefused h.force
  rw [add, withSource, htext]
  dsimp only
  rw [withStored, h.load]
  dsimp only
  rw [if_neg hfree]
  rfl

/-! ## What a call leaves -/

/-- What a call of `add` that ends well makes of the document file. -/
structure Added (call : AddCall) (old new : Entry) (anchor : Anchor) : Prop where
  /-- The anchor has the id, and a hash that its fragment has, in the format that was asked for. -/
  kept : ∃ format, HashFormat.named call.hashing.algorithm call.hashing.digits = .ok format ∧
    Anchor.Kept call.id ⟨format.algorithm, format.kept⟩ anchor
  /-- It stands in the file. -/
  item : anchor.toJson ∈ Document.anchorsOf new.value
  /-- It is read from there as it is. -/
  read : ∀ stamp, Anchor.ofJson stamp anchor.toJson = .ok anchor
  /-- An anchor of the id was replaced only if that was wanted. -/
  force : call.id ∈ old.ids → call.force = true
  /-- A new id stands behind all others, and else the ids are as they were. -/
  ids : new.ids = if call.id ∈ old.ids then old.ids else old.ids ++ [call.id]
  /-- What is not known of the document and of the other anchors is still there. -/
  unknown : UnknownKept Document.keys old.value new.value
  others : List.Forall₂ Anchor.AllKept (Document.othersOf call.id old.value)
    (Document.othersOf call.id new.value)
  /-- If nothing in the old file hides a value, the new one can be read. -/
  found : Document.hides old.value = false → ∀ stamp, ∃ document,
    load stamp new = .ok document ∧ document.ids = new.ids ∧ document.get? call.id = some anchor

/-- An anchor that was captured is put into the document that was read. -/
theorem added_put {old : Document} {anchor : Anchor} {text stamp : String}
    (hload : load stamp store = .ok old) (hforce : call.id ∈ old.ids → call.force = true)
    (hcapture : Anchor.capture call.id (call.place text) stamp = .ok anchor) :
    Added call store (.file (fileOf (old.put anchor))) anchor := by
  obtain ⟨format, hformat, hkept, hplain⟩ := Anchor.kept_capture hcapture
  have hlegible := (legible_of_load hload).put hplain.clean
  have hold := standsFor_of_load hload
  have holdIds : store.ids = old.ids := hold.ids
  have hnewIds : Entry.ids (.file (fileOf (old.put anchor))) = (old.put anchor).ids := by
    unfold Entry.ids
    rw [value_fileOf]
    exact (Document.standsFor_toJson hlegible).ids
  have hput := hold.put (legible_of_load hload) hplain.clean
  rw [hkept.id] at hput
  refine ⟨⟨format, hformat, hkept⟩, ?item, hplain.ofJson_toJson, ?force, ?ids, ?unknown, ?others,
    ?found⟩
  case item =>
    rw [value_fileOf, Document.anchorsOf_toJson hlegible]
    exact List.mem_map.mpr ⟨anchor, Document.mem_putAnchor anchor old.anchors, hplain.settled⟩
  case force => rwa [holdIds]
  case ids => rw [hnewIds, holdIds, Document.ids_put, hkept.id]
  case unknown => rw [value_fileOf]; exact hput.1
  case others => rw [value_fileOf]; exact hput.2
  case found =>
    intro hhides stamp
    have hreadable := (readable_of_load hload hhides).put
      ⟨hplain.readable, hplain.portable.tidy⟩
    refine ⟨_, load_fileOf_of_readable stamp hreadable, ?_, ?_⟩
    · rw [Document.ids_asWritten, hnewIds]
    · rw [Document.get?_asWritten, Document.get?_put, if_pos hkept.id, Option.map_some,
        hplain.asWritten_eq]

/-- A call of `add` finds both its files on the disk, and is ready. -/
def Disk.Ready (disk : Disk) (around : Surroundings) (call : AddCall) (text : String)
    (old : Document) : Prop :=
  CommandLine.Ready around call (disk.entry around.directory (Path.ofText call.file))
    (disk.entry around.directory (Path.ofText call.store)) text old

variable {arguments : List String} {disk disk' : Disk} {ending : Ending} {text : String}
  {old : Document} {anchor : Anchor}

theorem call_eq_keep (hcall : Call.ofArguments arguments = .ok (.add call)) :
    disk.call around arguments = disk.keep around.directory (some call.store)
      (add around call (disk.entry around.directory (Path.ofText call.file))
        (disk.entry around.directory (Path.ofText call.store))) := by
  unfold Disk.call
  rw [hcall]
  rfl

/-- A call of `add` on a disk leaves it alone and does not end well, or writes the document with the
captured anchor. -/
theorem call_add (hcall : Call.ofArguments arguments = .ok (.add call))
    (h : disk.call around arguments = (ending, disk')) :
    (disk' = disk ∧
      ((∃ lines, ending = .exit 1 lines) ∨ ∃ breakdown, ending = .breakdown breakdown)) ∨
    ∃ text old anchor, disk.Ready around call text old ∧
      Anchor.capture call.id (call.place text) around.now.text = .ok anchor ∧
      disk.write around.directory (Path.ofText call.store) (fileOf (old.put anchor)) = .ok disk' ∧
      ending = .exit 0 (savedLines around call.store anchor) := by
  rw [call_eq_keep hcall] at h
  have hends := @add_ends around call (disk.entry around.directory (Path.ofText call.file))
    (disk.entry around.directory (Path.ofText call.store))
  generalize add around call _ _ = performance at h hends
  cases hends with
  | refused message =>
    obtain ⟨rfl, rfl⟩ := Prod.mk.inj h
    exact .inl ⟨rfl, .inl ⟨_, rfl⟩⟩
  | notText _ _ =>
    obtain ⟨rfl, rfl⟩ := Prod.mk.inj h
    exact .inl ⟨rfl, .inr ⟨_, rfl⟩⟩
  | uncaptured _ _ _ =>
    obtain ⟨rfl, rfl⟩ := Prod.mk.inj h
    exact .inl ⟨rfl, .inr ⟨_, rfl⟩⟩
  | @stored text old anchor hready hcapture =>
    unfold Disk.keep at h
    dsimp only at h
    cases hwrite : disk.write around.directory (Path.ofText call.store)
        (fileOf (old.put anchor)) with
    | error obstacle =>
      rw [hwrite] at h
      obtain ⟨rfl, rfl⟩ := Prod.mk.inj h
      exact .inl ⟨rfl, .inr ⟨_, rfl⟩⟩
    | ok written =>
      rw [hwrite] at h
      obtain ⟨rfl, rfl⟩ := Prod.mk.inj h
      exact .inr ⟨text, old, anchor, hready, hcapture, hwrite, rfl⟩

/-- Where nothing is in the way, a call of `add` ends well. -/
theorem call_add_eq (hcall : Call.ofArguments arguments = .ok (.add call))
    (hready : disk.Ready around call text old)
    (hcapture : Anchor.capture call.id (call.place text) around.now.text = .ok anchor)
    (hwrite : disk.write around.directory (Path.ofText call.store) (fileOf (old.put anchor)) =
      .ok disk') :
    disk.call around arguments = (.exit 0 (savedLines around call.store anchor), disk') := by
  rw [call_eq_keep hcall, hready.add_eq, hcapture]
  unfold Disk.keep
  dsimp only
  rw [hwrite]

deriving instance DecidableEq for Hashing, AddCall

/-- The call of `add` that arguments stand for, if they stand for one. -/
def added? (arguments : List String) : Option AddCall :=
  match Call.ofArguments arguments with
  | .ok (.add call) => some call
  | _ => none

theorem ofArguments_of_added? {arguments : List String} (h : added? arguments = some call) :
    Call.ofArguments arguments = .ok (.add call) := by
  unfold added? at h
  split at h
  next found hfound => rw [hfound, Option.some.inj h]
  next => exact absurd h (by simp)

/-- The calls are made at the root. -/
def atRoot : Surroundings :=
  { directory := { rooted := true }, now := Moment.ofSeconds 0 }

/-- A page with a paragraph. -/
def paragraphPage : ByteArray :=
  "<p>x</p>
".toUTF8

theorem textOf_paragraphPage : textOf paragraphPage = .ok "<p>x</p>
" := by
  unfold textOf paragraphPage
  rw [ofBytes_toUTF8]
  rfl

/-- The page, and a document of anchors with some ids. -/
def diskOf (ids : List String) : Disk :=
  { files := [(["a.html"], paragraphPage),
      (["anchors.json"], fileOf { anchors := ids.map bareAnchor })] }

theorem entry_page (ids : List String) :
    (diskOf ids).entry atRoot.directory (Path.ofText "a.html") = .file paragraphPage := by
  rw [show Path.ofText "a.html" = { names := ["a.html"] } by cbv]
  rfl

theorem entry_document (ids : List String) :
    (diskOf ids).entry atRoot.directory (Path.ofText "anchors.json") =
      .file (fileOf { anchors := ids.map bareAnchor }) := by
  rw [show Path.ofText "anchors.json" = { names := ["anchors.json"] } by cbv]
  rfl

/-- The call captures the paragraph, whatever its document is. -/
theorem exists_capture_paragraph (store : String) : ∃ anchor,
    Anchor.capture "p" (AddCall.place { file := "a.html", line := 1, id := "p", store := store }
      "<p>x</p>\n") atRoot.now.text = .ok anchor := by
  have hok : (Anchor.capture "p" { source := "<p>x</p>\n", file := "a.html", line := 1 }
      atRoot.now.text).isOk := by
    decide +kernel
  show ∃ anchor, Anchor.capture "p" { source := "<p>x</p>\n", file := "a.html", line := 1 }
    atRoot.now.text = .ok anchor
  cases hcapture : Anchor.capture "p" { source := "<p>x</p>\n", file := "a.html", line := 1 }
      atRoot.now.text with
  | error failure =>
    rw [hcapture] at hok
    exact absurd hok (by simp [Except.isOk, Except.toBool])
  | ok anchor => exact ⟨anchor, rfl⟩

end CommandLine

end Mooring
