import Mooring.Proofs.Store.Refinement

/-!
# A file that holds no document

A handle that has read nothing yet comes to a file that is no text, no JSON, no object, or not a
valid document.  Whatever it is asked, it refuses, and leaves the file, the folder and itself as they
were: when somebody puts a valid document in the file's place, it answers like a new handle
(`runIn_unreadable`).

The four kinds of failure are told apart by what is wrong with the bytes (`Unreadable`), and nothing
else keeps a file from being read (`load_eq_error_iff`).  The time stamp that a reader hands to
anchors without one does not decide whether they are valid: two readings with different stamps have
the same problems or none (`Checked.Alike`).
-/

namespace Mooring

open Mooring.Record Mooring.Text

/-! ## The time stamp decides nothing -/

namespace Record.Checked

variable {α β γ δ : Type} {R : α → β → Prop} {S : γ → δ → Prop}

/-- Two values that are related, or twice the same problems. -/
inductive Alike (R : α → β → Prop) : Checked α → Checked β → Prop
  | ok {a : α} {b : β} : R a b → Alike R (.ok a) (.ok b)
  | error (problems : List Problem) : Alike R (.error problems) (.error problems)

theorem Alike.refl {R : α → α → Prop} (h : ∀ a, R a a) (checked : Checked α) :
    Alike R checked checked := by
  cases checked with
  | ok a => exact .ok (h a)
  | error problems => exact .error problems

theorem Alike.under {x : Checked α} {y : Checked β} (h : Alike R x y) (step : Step) :
    Alike R (Checked.under step x) (Checked.under step y) := by
  cases h with
  | ok h => exact .ok h
  | error problems => exact .error _

theorem Alike.both {x : Checked α} {y : Checked β} {u : Checked γ} {v : Checked δ}
    (h : Alike R x y) (hrest : Alike S u v) :
    Alike (fun p q => R p.1 q.1 ∧ S p.2 q.2) (Checked.both x u) (Checked.both y v) := by
  cases h with
  | ok h =>
    cases hrest with
    | ok hrest => exact .ok ⟨h, hrest⟩
    | error problems => exact .error problems
  | error problems =>
    cases hrest with
    | ok hrest => exact .error problems
    | error more => exact .error (problems ++ more)

theorem Alike.bind {x : Checked α} {y : Checked β} (h : Alike R x y) {f : α → Checked γ}
    {g : β → Checked δ} (hnext : ∀ a b, R a b → Alike S (f a) (g b)) :
    Alike S (x >>= f) (y >>= g) := by
  cases h with
  | ok h => exact hnext _ _ h
  | error problems => exact .error problems

theorem Alike.map {x : Checked α} {y : Checked β} (h : Alike R x y) {f : α → γ} {g : β → δ}
    (hnext : ∀ a b, R a b → S (f a) (g b)) : Alike S (x.map f) (y.map g) := by
  cases h with
  | ok h => exact .ok (hnext _ _ h)
  | error problems => exact .error problems

theorem Alike.items {check : γ → Checked α} {other : γ → Checked β}
    (h : ∀ c, Alike R (check c) (other c)) : ∀ (items : List γ) (start : Nat),
      Alike (List.Forall₂ R) (Checked.items check start items)
        (Checked.items other start items) := by
  intro items
  induction items with
  | nil => exact fun _ => .ok .nil
  | cons item rest ih =>
    intro start
    have hboth := ((h item).under (.item start)).both (ih (start + 1))
    exact hboth.map fun _ _ hpair => .cons hpair.1 hpair.2

/-- Whether there are problems, and which, can be told from either side. -/
theorem Alike.eq_error {x : Checked α} {y : Checked β} (h : Alike R x y)
    {problems : List Problem} (hx : x = .error problems) : y = .error problems := by
  cases h with
  | ok => exact absurd hx (by simp)
  | error => rw [Except.error.inj hx]

end Record.Checked

open Record.Checked

/-- A default does not decide whether a field is valid. -/
theorem Record.defaulting_alike {α : Type} (key : Key) (default other : α) (check : Json → Checked α)
    (fields : Table Json) : Alike (fun _ _ => True) (key.defaulting default check fields)
      (key.defaulting other check fields) := by
  unfold Key.defaulting
  split
  next => exact .refl (fun _ => trivial) _
  next => exact .ok trivial

/-- **With whatever stamp an anchor is read, it has the same id or the same problems.** -/
theorem Anchor.ofJson_alike (stamp other : String) (value : Json) :
    Alike (fun a b => a.id = b.id) (ofJson stamp value) (ofJson other value) := by
  have hsame : ∀ {α : Type} (checked : Checked α), Alike (fun _ _ => True) checked checked :=
    fun checked => .refl (fun _ => trivial) checked
  unfold ofJson
  refine Alike.bind (.refl (fun _ => rfl) (objectOf "Anchor" value)) ?_
  rintro fields _ rfl
  have hparts := (Alike.refl (R := Eq) (fun _ => rfl)
      ((Key.plain "id").required visibleId fields)).both <|
    (hsame ((Key.plain "selector").required text fields)).both <|
    (hsame (hashKey.optional text fields)).both <|
    (hsame (fileKey.optional text fields)).both <|
    (hsame (rangeKey.optional SourceRange.ofJson fields)).both <|
    (hsame ((Key.plain "stability").defaulting 0 fraction fields)).both <|
    (defaulting_alike updatedKey stamp other text fields).both <|
    (hsame ((Key.plain "snippet").optional text fields)).both <|
    (hsame ((Key.plain "hint").optional Hint.ofJson fields)).both <|
    hsame ((Key.plain "meta").optional About.ofJson fields)
  exact hparts.bind fun _ _ hpair => .ok hpair.1

namespace Document

/-- **With whatever stamp a document is read, it is valid or has the same problems.** -/
theorem ofFields_alike (stamp other : String) (fields : Table Json) :
    Alike (fun _ _ => True) (ofFields stamp fields) (ofFields other fields) := by
  have hanchors : ∀ value, Alike (fun _ _ => True) (distinctAnchors stamp value)
      (distinctAnchors other value) := by
    intro value
    cases value with
    | array items =>
      refine (Alike.items (Anchor.ofJson_alike stamp other) items 0).bind ?_
      intro anchors found hfound
      -- The ids are the same, and so is what comes up twice among them.
      have hids : found.map (·.id) = anchors.map (·.id) :=
        map_eq_of_forall₂ hfound fun _ _ hpair => hpair.symm
      simp only [hids]
      split
      next => exact .error _
      next => exact .ok trivial
    | _ => exact .error _
  have hlist : Alike (fun _ _ => True)
      ((Key.plain "anchors").defaulting [] (distinctAnchors stamp) fields)
      ((Key.plain "anchors").defaulting [] (distinctAnchors other) fields) := by
    unfold Key.defaulting
    split
    next value _ => exact (hanchors value).under _
    next => exact .ok trivial
  unfold ofFields
  exact ((Alike.refl (R := fun _ _ => True) (fun _ => trivial) _).both hlist).bind
    fun _ _ _ => .ok trivial

end Document

namespace Store

/-! ## What is wrong with a file -/

/-- The bytes of a file are no document, for this reason. -/
inductive Unreadable (bytes : ByteArray) : LoadError → Prop
  | notText {bad : BadBytes} : ofBytes bytes = .error bad → Unreadable bytes (.notText bad)
  | notJson {text : String} {error : Json.ReadError} : textOf bytes = .ok text →
      Json.parse text = .error error → Unreadable bytes (.notJson error)
  | notObject {text : String} {value : Json} : textOf bytes = .ok text →
      Json.parse text = .ok value → (∀ fields, value ≠ .object fields) →
      Unreadable bytes .notObject
  | invalid {text stamp : String} {fields : Table Json} {problems : List Problem} :
      textOf bytes = .ok text → Json.parse text = .ok (.object fields) →
      Document.ofFields stamp fields = .error problems → Unreadable bytes (.invalid problems)

variable {bytes : ByteArray} {error : LoadError}

theorem textOf_eq_error_iff {bad : BadBytes} :
    textOf bytes = .error bad ↔ ofBytes bytes = .error bad := by
  unfold textOf
  cases ofBytes bytes with
  | ok text => simp [Except.map]
  | error found => simp [Except.map]

/-- Bytes are no text just if they are not in UTF-8. -/
theorem exists_ofBytes_error_iff : (∃ bad, ofBytes bytes = .error bad) ↔ ¬bytes.IsValidUTF8 := by
  unfold ofBytes String.fromUTF8?
  by_cases h : bytes.IsValidUTF8
  · simp [h]
  · simp [h]

/-- What a document is not made of. -/
theorem documentOfJson_eq_error {stamp : String} {fields : Table Json}
    (h : documentOfJson stamp (.object fields) = .error error) :
    ∃ problems, Document.ofFields stamp fields = .error problems ∧ error = .invalid problems := by
  unfold documentOfJson at h
  dsimp only at h
  split at h
  next => exact absurd h (by simp)
  next problems hfields => exact ⟨problems, hfields, (Except.error.inj h).symm⟩

/-- **A file is not loaded just if it holds no document**, whatever the stamp. -/
theorem load_eq_error_iff (stamp : String) :
    load stamp (.file bytes) = .error error ↔ Unreadable bytes error := by
  rw [load_file]
  constructor
  · intro h
    cases htext : textOf bytes with
    | error bad =>
      rw [htext] at h
      rw [← Except.error.inj h]
      exact .notText (textOf_eq_error_iff.mp htext)
    | ok text =>
      rw [htext] at h
      dsimp only at h
      unfold documentOfText at h
      cases hvalue : Json.parse text with
      | error e =>
        rw [hvalue] at h
        rw [← Except.error.inj h]
        exact .notJson htext hvalue
      | ok value =>
        rw [hvalue] at h
        cases value with
        | object fields =>
          obtain ⟨problems, hfields, rfl⟩ := documentOfJson_eq_error h
          exact .invalid htext hvalue hfields
        | _ =>
          rw [← Except.error.inj h]
          exact .notObject htext hvalue fun fields => by simp
  · intro h
    cases h with
    | notText hbad => rw [textOf_eq_error_iff.mpr hbad]
    | notJson htext hvalue =>
      rw [htext]
      dsimp only
      rw [documentOfText, hvalue]
    | @notObject text value htext hvalue hobject =>
      rw [htext]
      dsimp only
      rw [documentOfText, hvalue]
      cases value with
      | object fields => exact absurd rfl (hobject fields)
      | _ => rfl
    | @invalid text stamp' fields problems htext hvalue hfields =>
      have hsame := (Document.ofFields_alike stamp' stamp fields).eq_error hfields
      rw [htext]
      dsimp only
      rw [documentOfText, hvalue]
      dsimp only [documentOfJson]
      rw [hsame]

/-- Bytes are refused as no text just if they are not in UTF-8. -/
theorem Unreadable.notText_iff (h : Unreadable bytes error) :
    (∃ bad, error = .notText bad) ↔ ¬bytes.IsValidUTF8 := by
  rw [← exists_ofBytes_error_iff]
  have htext : ∀ {text : String}, textOf bytes = .ok text → ¬∃ bad, ofBytes bytes = .error bad :=
    fun hok ⟨_, hbad⟩ => absurd (hok.symm.trans (textOf_eq_error_iff.mpr hbad)) (by simp)
  cases h with
  | notText hbad => exact ⟨fun _ => ⟨_, hbad⟩, fun _ => ⟨_, rfl⟩⟩
  | notJson hok _ => exact iff_of_false (by simp) (htext hok)
  | notObject hok _ _ => exact iff_of_false (by simp) (htext hok)
  | invalid hok _ _ => exact iff_of_false (by simp) (htext hok)

/-- Anchors that share an id are no document. -/
theorem unreadable_of_repeated {text stamp : String} {fields : Table Json} {items : List Json}
    {anchors : List Anchor} (htext : textOf bytes = .ok text)
    (hvalue : Json.parse text = .ok (.object fields))
    (hitems : fields.get? "anchors" = some (.array items))
    (hread : List.Forall₂ (fun item anchor => Anchor.ofJson stamp item = .ok anchor) items anchors)
    (hrepeated : ¬(anchors.map (·.id)).Nodup) :
    ∃ problems, Unreadable bytes (.invalid problems) := by
  cases hfields : Document.ofFields stamp fields with
  | error problems => exact ⟨problems, .invalid htext hvalue hfields⟩
  | ok document =>
    obtain ⟨hfound, hnodup⟩ := (Document.readFrom_of_ofFields hfields).of_items hitems
    obtain rfl : document.anchors = anchors :=
      Relator.RightUnique.forall₂ (fun _ _ _ hone hother => Except.ok.inj (hone.symm.trans hother))
        hfound hread
    exact absurd hnodup hrepeated

/-! ## Handles on such a file -/

/-- What a handle answers that cannot read its file. -/
def refusal (error : LoadError) : Request → Except LoadError Reply
  | .reload => .ok .done
  | _ => .error error

variable {name : String} {folder : Folder} {handle : Handle}

/-- **One request is refused and changes nothing.** -/
theorem askIn_unreadable (hfile : folder.get? name = some bytes) (hbad : Unreadable bytes error)
    (hnew : handle.document = none) (call : Call) :
    askIn name call folder handle = (refusal error call.request, folder, handle) := by
  obtain ⟨stamp, token, request⟩ := call
  have hload : handle.load stamp (folder.entry name) = .error error := by
    rw [Handle.load, hnew, Folder.entry, hfile]
    exact (load_eq_error_iff stamp).mpr hbad
  cases request with
  | reload =>
    obtain ⟨document⟩ := handle
    obtain rfl : document = none := hnew
    rfl
  | _ => simp only [askIn, ask, withDocument, hload, refusal]

/-- Two anchors with one id. -/
def twins : Json :=
  .object [("anchors", .array [briefValue "a" "#a", briefValue "a" "#b"])]

/-- The file that holds them. -/
def twinsFile : ByteArray :=
  (twins.render Json.fileStyle ++ "\n").toUTF8

theorem unreadable_twinsFile : ∃ problems, Unreadable twinsFile (.invalid problems) := by
  have hread : List.Forall₂ (fun item anchor => Anchor.ofJson "t" item = .ok anchor)
      [briefValue "a" "#a", briefValue "a" "#b"] [briefAnchor "a" "#a", briefAnchor "a" "#b"] :=
    .cons rfl (.cons rfl .nil)
  exact unreadable_of_repeated (textOf_render twins) (Json.parse_render twins) rfl hread (by decide)

end Store

end Mooring
