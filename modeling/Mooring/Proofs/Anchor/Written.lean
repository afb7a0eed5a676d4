import Mooring.Proofs.Record.Leftover
import Mooring.Proofs.Decimal.Doubles

/-!
# An anchor is read back from its JSON

An anchor is read back from what is written for it, field by field (`Readable.ofJson_toJson`).  Three
things have to hold of it, and hold of every anchor that was made and of most that were read: its id
is not blank, its stability does not lie outside 0 and 1, and no unknown field can be taken for one
of its own.  `Anchor.Readable` collects them.  What comes back has the unknown fields as they were
written (`asWritten`); where there are none, it is the same anchor (`Plain.ofJson_toJson`).

A reader of the text keeps one value for each name of an object.  The names of a written anchor are
distinct at every level, if those of its unknown fields are, so nothing is lost there
(`Readable.settled`).

A document comes back if each of its anchors does (`Document.ofFields_of_forall₂`).
-/

namespace Mooring

open Mooring.Record

theorem forall_mem_fieldOf? {α : Type} {P : String × Json → Prop} {name : String}
    {encode : α → Json} {a : Option α} (h : ∀ x ∈ a, P (name, encode x)) :
    ∀ field ∈ fieldOf? name encode a, P field := by
  cases a with
  | none => simp [fieldOf?]
  | some x => simpa [fieldOf?] using h x rfl

theorem names_append (fields more : Table Json) :
    Table.names (fields ++ more) = Table.names fields ++ Table.names more :=
  List.map_append

open Json

/-! ## Ranges, hints and descriptions -/

theorem lineNumber_int {n : Int} (h : 1 ≤ n) : lineNumber (.int n) = .ok ⟨n, h⟩ := by
  show (if h : 1 ≤ n then _ else _) = _
  rw [dif_pos h]

namespace SourceRange

/-- The known fields of a range as they are written. -/
def fields (range : SourceRange) : Table Json :=
  [("start", .int range.first), ("end", .int range.last)]

/-- The range with its unknown fields as they are written. -/
def asWritten (range : SourceRange) : SourceRange :=
  { range with extra := extraFields range.extra }

variable {range : SourceRange}

theorem apart_keys : Apart keys := by
  simp [Apart, keys, Key.plain]

theorem asWritten_of_extra (h : range.extra = []) : range.asWritten = range := by
  obtain ⟨first, last, extra, hfirst, hlast⟩ := range
  obtain rfl : extra = [] := h
  rfl

theorem toJson_asWritten (h : Portable range.extra) : range.asWritten.toJson = range.toJson :=
  congrArg (fun extra => object (range.fields ++ extra)) h.extraFields_extraFields

theorem settled (h : Leftover keys range.fields range.extra) (hextra : Tidy range.extra) :
    Settled range.toJson :=
  h.settled hextra (List.Sublist.refl _) (by decide) (by simp [fields, Settled, merged])

/-- **A range is read as it was written.** -/
theorem ofJson_toJson (h : Leftover keys range.fields range.extra) :
    ofJson range.toJson = .ok range.asWritten := by
  have hnames : (Table.names range.fields).Sublist (keys.map (·.name)) := List.Sublist.refl _
  have hget := h.map_get? hnames apart_keys
  simp only [keys, List.map_cons, List.cons.injEq] at hget
  obtain ⟨hstart, hend, -⟩ := hget
  have hfirst := required_of_get? _ hstart (lineNumber_int range.one_le_first)
  have hlast := required_of_get? _ hend
    (lineNumber_int (Int.le_trans range.one_le_first range.first_le_last))
  show ofFields (range.fields ++ extraFields range.extra) = _
  unfold ofFields
  rw [hfirst, hlast, Checked.both_ok]
  dsimp only
  rw [h.extras hnames, ofLines, dif_pos range.first_le_last]
  rfl

/-- **Two lines in order are a range.** -/
theorem ofFields_lines {first last : Int} (hfirst : 1 ≤ first) (hlast : first ≤ last) :
    ofFields [("start", .int first), ("end", .int last)] =
      .ok ⟨first, last, [], hfirst, hlast⟩ :=
  ofJson_toJson (leftover_nil keys (fields ⟨first, last, [], hfirst, hlast⟩))

end SourceRange

namespace Hint

/-- The known fields of a hint as they are written. -/
def fields (hint : Hint) : Table Json :=
  fieldOf? "testid" .string hint.testid ++ fieldOf? "role" .string hint.role ++
    fieldOf? labelKey.name .string hint.label ++
    fieldOf? expectedTextKey.name .string hint.expectedText ++
    fieldOf? "prefer" .ofTexts hint.prefer

/-- The hint with its unknown fields as they are written. -/
def asWritten (hint : Hint) : Hint :=
  { hint with extra := extraFields hint.extra }

theorem names_fields (hint : Hint) :
    (Table.names hint.fields).Sublist (keys.map (·.name)) := by
  unfold fields
  simp only [names_append]
  exact ((((names_fieldOf? _ _ _).append (names_fieldOf? _ _ _)).append
    (names_fieldOf? _ _ _)).append (names_fieldOf? _ _ _)).append (names_fieldOf? _ _ _)

variable {hint : Hint}

theorem apart_keys : Apart keys := by
  simp [Apart, keys, Key.plain, labelKey, expectedTextKey]

theorem asWritten_of_extra (h : hint.extra = []) : hint.asWritten = hint := by
  obtain ⟨testid, role, label, expectedText, prefer, extra⟩ := hint
  obtain rfl : extra = [] := h
  rfl

theorem toJson_asWritten (h : Portable hint.extra) : hint.asWritten.toJson = hint.toJson :=
  congrArg (fun extra => object (hint.fields ++ extra)) h.extraFields_extraFields

theorem settled (h : Leftover keys hint.fields hint.extra) (hextra : Tidy hint.extra) :
    Settled hint.toJson := by
  refine h.settled hextra hint.names_fields (by decide) ?_
  unfold fields
  simp only [List.forall_mem_append]
  exact ⟨⟨⟨⟨forall_mem_fieldOf? fun _ _ => rfl, forall_mem_fieldOf? fun _ _ => rfl⟩,
    forall_mem_fieldOf? fun _ _ => rfl⟩, forall_mem_fieldOf? fun _ _ => rfl⟩,
    forall_mem_fieldOf? fun _ _ => settled_ofTexts _⟩

/-- Each field stands under its name, if it is there. -/
theorem get?_fields (hint : Hint) : keys.map (fun key => hint.fields.get? key.name) =
    [hint.testid.map .string, hint.role.map .string, hint.label.map .string,
      hint.expectedText.map .string, hint.prefer.map .ofTexts] := by
  simp [keys, fields, get?_fieldOf?, Key.plain, labelKey, expectedTextKey]

/-- **A hint is read as it was written.** -/
theorem ofJson_toJson (h : Leftover keys hint.fields hint.extra) :
    ofJson hint.toJson = .ok hint.asWritten := by
  have hget := (h.map_get? hint.names_fields apart_keys).trans hint.get?_fields
  simp only [keys, List.map_cons, List.cons.injEq] at hget
  obtain ⟨htestid, hrole, hlabel, hexpected, hprefer, -⟩ := hget
  have hreadTestid : (Key.plain "testid").optional text _ = .ok hint.testid :=
    optional_of_get? Json.string htestid (fun _ => rfl) (fun _ _ => rfl)
  have hreadRole : (Key.plain "role").optional text _ = .ok hint.role :=
    optional_of_get? Json.string hrole (fun _ => rfl) (fun _ _ => rfl)
  have hreadLabel : labelKey.optional text _ = .ok hint.label :=
    optional_of_get? Json.string hlabel (fun _ => rfl) (fun _ _ => rfl)
  have hreadExpected : expectedTextKey.optional text _ = .ok hint.expectedText :=
    optional_of_get? Json.string hexpected (fun _ => rfl) (fun _ _ => rfl)
  have hreadPrefer : (Key.plain "prefer").optional (listOf text) _ = .ok hint.prefer :=
    optional_of_get? Json.ofTexts hprefer (fun _ => rfl) (fun texts _ => listOf_text_ofTexts texts)
  show ofJson (object (hint.fields ++ extraFields hint.extra)) = _
  unfold ofJson objectOf
  simp only [bind, Except.bind, hreadTestid, hreadRole, hreadLabel, hreadExpected, hreadPrefer,
    h.extras hint.names_fields, Checked.both_ok, pure, Except.pure]
  rfl

end Hint

namespace About

/-- The known fields of a description as they are written. -/
def fields (about : About) : Table Json :=
  fieldOf? "component" .string about.component ++
    fieldOf? "description" .string about.description ++ fieldOf? "tags" .ofTexts about.tags

/-- The description with its unknown fields as they are written. -/
def asWritten (about : About) : About :=
  { about with extra := extraFields about.extra }

theorem names_fields (about : About) :
    (Table.names about.fields).Sublist (keys.map (·.name)) := by
  unfold fields
  simp only [names_append]
  exact ((names_fieldOf? _ _ _).append (names_fieldOf? _ _ _)).append (names_fieldOf? _ _ _)

variable {about : About}

theorem apart_keys : Apart keys := by
  simp [Apart, keys, Key.plain]

theorem asWritten_of_extra (h : about.extra = []) : about.asWritten = about := by
  obtain ⟨component, description, tags, extra⟩ := about
  obtain rfl : extra = [] := h
  rfl

theorem toJson_asWritten (h : Portable about.extra) : about.asWritten.toJson = about.toJson :=
  congrArg (fun extra => object (about.fields ++ extra)) h.extraFields_extraFields

theorem settled (h : Leftover keys about.fields about.extra) (hextra : Tidy about.extra) :
    Settled about.toJson := by
  refine h.settled hextra about.names_fields (by decide) ?_
  unfold fields
  simp only [List.forall_mem_append]
  exact ⟨⟨forall_mem_fieldOf? fun _ _ => rfl, forall_mem_fieldOf? fun _ _ => rfl⟩,
    forall_mem_fieldOf? fun _ _ => settled_ofTexts _⟩

/-- Each field stands under its name, if it is there. -/
theorem get?_fields (about : About) : keys.map (fun key => about.fields.get? key.name) =
    [about.component.map .string, about.description.map .string, about.tags.map .ofTexts] := by
  simp [keys, fields, get?_fieldOf?, Key.plain]

/-- **A description is read as it was written.** -/
theorem ofJson_toJson (h : Leftover keys about.fields about.extra) :
    ofJson about.toJson = .ok about.asWritten := by
  have hget := (h.map_get? about.names_fields apart_keys).trans about.get?_fields
  simp only [keys, List.map_cons, List.cons.injEq] at hget
  obtain ⟨hcomponent, hdescription, htags, -⟩ := hget
  have hreadComponent : (Key.plain "component").optional text _ = .ok about.component :=
    optional_of_get? Json.string hcomponent (fun _ => rfl) (fun _ _ => rfl)
  have hreadDescription : (Key.plain "description").optional text _ = .ok about.description :=
    optional_of_get? Json.string hdescription (fun _ => rfl) (fun _ _ => rfl)
  have hreadTags : (Key.plain "tags").optional (listOf text) _ = .ok about.tags :=
    optional_of_get? Json.ofTexts htags (fun _ => rfl) (fun texts _ => listOf_text_ofTexts texts)
  show ofJson (object (about.fields ++ extraFields about.extra)) = _
  unfold ofJson objectOf
  simp only [bind, Except.bind, hreadComponent, hreadDescription, hreadTags,
    h.extras about.names_fields, Checked.both_ok, pure, Except.pure]
  rfl

end About

/-! ## Anchors -/

namespace Anchor

theorem visibleId_eq_ok {id found : String} (h : visibleId (.string id) = .ok found) :
    found = id := by
  unfold visibleId at h
  simp only [bind, Except.bind, text] at h
  split at h
  · exact absurd h (by simp [Checked.refuse])
  · split at h
    · exact absurd h (by simp [Checked.refuse])
    · exact (Except.ok.inj h).symm

theorem fraction_float {x : Float} (h : ¬1 < x ∧ ¬x < 0) : fraction (.float x) = .ok x := by
  show (if 1 < x then _ else if x < 0 then _ else _) = _
  rw [if_neg h.1, if_neg h.2]

/-- The known fields of an anchor as they are written. -/
def fields (anchor : Anchor) : Table Json :=
  [("id", .string anchor.id), ("selector", .string anchor.selector)] ++
    fieldOf? hashKey.name .string anchor.snippetHash ++
    fieldOf? fileKey.name .string anchor.sourceFile ++
    fieldOf? rangeKey.name SourceRange.toJson anchor.range ++
    [("stability", .float anchor.stability), (updatedKey.name, .string anchor.updatedAt)] ++
    fieldOf? "snippet" .string anchor.snippet ++ fieldOf? "hint" Hint.toJson anchor.hint ++
    fieldOf? "meta" About.toJson anchor.about

/-- The anchor with its unknown fields as they are written. -/
def asWritten (anchor : Anchor) : Anchor :=
  { anchor with
    range := anchor.range.map SourceRange.asWritten
    hint := anchor.hint.map Hint.asWritten
    about := anchor.about.map About.asWritten
    extra := extraFields anchor.extra }

theorem names_fields (anchor : Anchor) :
    (Table.names anchor.fields).Sublist (keys.map (·.name)) := by
  unfold fields
  simp only [names_append]
  exact ((((((List.Sublist.refl ["id", "selector"]).append (names_fieldOf? _ _ _)).append
    (names_fieldOf? _ _ _)).append (names_fieldOf? _ _ _)).append
    (List.Sublist.refl ["stability", "updatedAt"])).append (names_fieldOf? _ _ _)).append
    (names_fieldOf? _ _ _) |>.append (names_fieldOf? _ _ _)

/-- Each field stands under its name, if it is there. -/
theorem get?_fields (anchor : Anchor) : keys.map (fun key => anchor.fields.get? key.name) =
    [some (.string anchor.id), some (.string anchor.selector), anchor.snippetHash.map .string,
      anchor.sourceFile.map .string, anchor.range.map SourceRange.toJson,
      some (.float anchor.stability), some (.string anchor.updatedAt), anchor.snippet.map .string,
      anchor.hint.map Hint.toJson, anchor.about.map About.toJson] := by
  simp [keys, fields, get?_fieldOf?, Table.get?, Key.plain, hashKey, fileKey, rangeKey, updatedKey]

theorem apart_keys : Apart keys := by
  simp [Apart, keys, Key.plain, hashKey, fileKey, rangeKey, updatedKey]

/-- What makes an anchor come back where it was written: an id that is not blank, a stability that
does not lie outside 0 and 1, and no unknown field that can be taken for a known one. -/
structure Readable (anchor : Anchor) : Prop where
  id : visibleId (.string anchor.id) = .ok anchor.id
  stability : ¬1 < anchor.stability ∧ ¬anchor.stability < 0
  range : ∀ range ∈ anchor.range, Leftover SourceRange.keys range.fields range.extra
  hint : ∀ hint ∈ anchor.hint, Leftover Hint.keys hint.fields hint.extra
  about : ∀ about ∈ anchor.about, Leftover About.keys about.fields about.extra
  extra : Leftover keys anchor.fields anchor.extra

/-- A text can stand for all unknown fields of the anchor. -/
structure Portable (anchor : Anchor) : Prop where
  range : ∀ range ∈ anchor.range, Record.Portable range.extra
  hint : ∀ hint ∈ anchor.hint, Record.Portable hint.extra
  about : ∀ about ∈ anchor.about, Record.Portable about.extra
  extra : Record.Portable anchor.extra

/-- A reader may have handed out all unknown fields of the anchor. -/
structure Tidy (anchor : Anchor) : Prop where
  range : ∀ range ∈ anchor.range, Record.Tidy range.extra
  hint : ∀ hint ∈ anchor.hint, Record.Tidy hint.extra
  about : ∀ about ∈ anchor.about, Record.Tidy about.extra
  extra : Record.Tidy anchor.extra

variable {anchor : Anchor}

theorem Portable.tidy (h : anchor.Portable) : anchor.Tidy :=
  ⟨fun range hrange => (h.range range hrange).tidy, fun hint hhint => (h.hint hint hhint).tidy,
    fun about habout => (h.about about habout).tidy, h.extra.tidy⟩

/-- **Written once more, the anchor does not change.** -/
theorem Portable.toJson_asWritten (h : anchor.Portable) :
    anchor.asWritten.toJson = anchor.toJson := by
  -- A part is written the same way twice.
  have hpart : ∀ {α : Type} (name : String) (encode : α → Json) (back : α → α) (part : Option α),
      (∀ x ∈ part, encode (back x) = encode x) →
        fieldOf? name encode (part.map back) = fieldOf? name encode part := by
    intro α name encode back part hsame
    cases part with
    | none => rfl
    | some x => exact congrArg (fun value => [(name, value)]) (hsame x rfl)
  have hrange := hpart rangeKey.name SourceRange.toJson SourceRange.asWritten anchor.range
    fun range hrange => SourceRange.toJson_asWritten (h.range range hrange)
  have hhint := hpart "hint" Hint.toJson Hint.asWritten anchor.hint
    fun hint hhint => Hint.toJson_asWritten (h.hint hint hhint)
  have habout := hpart "meta" About.toJson About.asWritten anchor.about
    fun about habout => About.toJson_asWritten (h.about about habout)
  unfold toJson asWritten
  dsimp only
  rw [hrange, hhint, habout, h.extra.extraFields_extraFields]

/-- **A reader of the text takes the anchor as it was written.** -/
theorem Readable.settled (h : anchor.Readable) (htidy : anchor.Tidy) :
    Settled anchor.toJson := by
  refine h.extra.settled htidy.extra anchor.names_fields (by decide) ?_
  unfold fields
  simp only [List.forall_mem_append, List.forall_mem_cons]
  refine ⟨⟨⟨⟨⟨⟨⟨⟨rfl, rfl, by simp⟩, forall_mem_fieldOf? fun _ _ => rfl⟩,
    forall_mem_fieldOf? fun _ _ => rfl⟩, ?_⟩, ⟨rfl, rfl, by simp⟩⟩,
    forall_mem_fieldOf? fun _ _ => rfl⟩, ?_⟩, ?_⟩
  · exact forall_mem_fieldOf? fun range hrange =>
      SourceRange.settled (h.range range hrange) (htidy.range range hrange)
  · exact forall_mem_fieldOf? fun hint hhint =>
      Hint.settled (h.hint hint hhint) (htidy.hint hint hhint)
  · exact forall_mem_fieldOf? fun about habout =>
      About.settled (h.about about habout) (htidy.about about habout)

/-- **An anchor is read as it was written.** -/
theorem Readable.ofJson_toJson (h : anchor.Readable) (stamp : String) :
    ofJson stamp anchor.toJson = .ok anchor.asWritten := by
  -- Each field is found where it was written.
  have hget := (h.extra.map_get? anchor.names_fields apart_keys).trans anchor.get?_fields
  simp only [keys, List.map_cons, List.cons.injEq] at hget
  obtain ⟨hid, hselector, hhash, hfile, hrange, hstability, hupdated, hsnippet, hhint, habout, -⟩ :=
    hget
  have hreadId := required_of_get? _ hid h.id
  have hreadSelector : (Key.plain "selector").required text _ = .ok anchor.selector :=
    required_of_get? _ hselector rfl
  have hreadHash : hashKey.optional text _ = .ok anchor.snippetHash :=
    optional_of_get? Json.string hhash (fun _ => rfl) (fun _ _ => rfl)
  have hreadFile : fileKey.optional text _ = .ok anchor.sourceFile :=
    optional_of_get? Json.string hfile (fun _ => rfl) (fun _ _ => rfl)
  have hreadRange := optional_map_of_get? SourceRange.toJson SourceRange.asWritten hrange
    (fun _ => rfl) (fun range hrange => SourceRange.ofJson_toJson (h.range range hrange))
  have hreadStability : (Key.plain "stability").defaulting 0 fraction _ = .ok anchor.stability :=
    defaulting_of_get? _ hstability (fraction_float h.stability)
  have hreadUpdated : updatedKey.defaulting stamp text _ = .ok anchor.updatedAt :=
    defaulting_of_get? _ hupdated rfl
  have hreadSnippet : (Key.plain "snippet").optional text _ = .ok anchor.snippet :=
    optional_of_get? Json.string hsnippet (fun _ => rfl) (fun _ _ => rfl)
  have hreadHint := optional_map_of_get? Hint.toJson Hint.asWritten hhint
    (fun _ => rfl) (fun hint hhint => Hint.ofJson_toJson (h.hint hint hhint))
  have hreadAbout := optional_map_of_get? About.toJson About.asWritten habout
    (fun _ => rfl) (fun about habout => About.ofJson_toJson (h.about about habout))
  show ofJson stamp (object (anchor.fields ++ extraFields anchor.extra)) = _
  unfold ofJson objectOf
  simp only [bind, Except.bind, hreadId, hreadSelector, hreadHash, hreadFile, hreadRange,
    hreadStability, hreadUpdated, hreadSnippet, hreadHint, hreadAbout,
    h.extra.extras anchor.names_fields, Checked.both_ok, pure, Except.pure]
  rfl

/-! ## Anchors without unknown fields -/

/-- What makes an anchor come back as it was: an id that is not blank, a stability from 0 to 1, and
no unknown fields anywhere. -/
structure Plain (anchor : Anchor) : Prop where
  id : visibleId (.string anchor.id) = .ok anchor.id
  stability : ¬1 < anchor.stability ∧ ¬anchor.stability < 0
  range : ∀ range ∈ anchor.range, range.extra = []
  hint : ∀ hint ∈ anchor.hint, hint.extra = []
  about : ∀ about ∈ anchor.about, about.extra = []
  extra : anchor.extra = []

theorem Plain.readable (h : anchor.Plain) : anchor.Readable where
  id := h.id
  stability := h.stability
  range range hrange := h.range range hrange ▸ leftover_nil _ _
  hint hint hhint := h.hint hint hhint ▸ leftover_nil _ _
  about about habout := h.about about habout ▸ leftover_nil _ _
  extra := h.extra ▸ leftover_nil _ _

theorem Plain.portable (h : anchor.Plain) : anchor.Portable where
  range range hrange := h.range range hrange ▸ portable_nil
  hint hint hhint := h.hint hint hhint ▸ portable_nil
  about about habout := h.about about habout ▸ portable_nil
  extra := h.extra ▸ portable_nil

theorem Plain.asWritten_eq (h : anchor.Plain) : anchor.asWritten = anchor := by
  have hpart : ∀ {α : Type} {back : α → α} {part : Option α}, (∀ x ∈ part, back x = x) →
      part.map back = part := by
    intro α back part hsame
    cases part with
    | none => rfl
    | some x => exact congrArg some (hsame x rfl)
  unfold asWritten
  rw [hpart fun range hrange => SourceRange.asWritten_of_extra (h.range range hrange),
    hpart fun hint hhint => Hint.asWritten_of_extra (h.hint hint hhint),
    hpart fun about habout => About.asWritten_of_extra (h.about about habout), h.extra,
    show extraFields [] = anchor.extra from h.extra.symm]

/-- A reader of the text takes an anchor without unknown fields as it was written. -/
theorem Plain.settled (h : anchor.Plain) : Settled anchor.toJson :=
  h.readable.settled h.portable.tidy

/-- **An anchor without unknown fields is read as it was.** -/
theorem Plain.ofJson_toJson (h : anchor.Plain) (stamp : String) :
    ofJson stamp anchor.toJson = .ok anchor := by
  rw [h.readable.ofJson_toJson, h.asWritten_eq]

end Anchor

/-! ## Documents -/

namespace Document

/-- The known fields of a document as they are written. -/
def fields (document : Document) : Table Json :=
  [("version", .string document.version), ("anchors", .array (document.anchors.map Anchor.toJson))]

variable {document : Document}

theorem apart_keys : Apart keys := by
  simp [Apart, keys, Key.plain]

/-- **A reader of the text takes the document as it was written**, if it takes each anchor so. -/
theorem settled (h : Leftover keys document.fields document.extra)
    (hextra : Record.Tidy document.extra)
    (hanchors : ∀ anchor ∈ document.anchors, Settled anchor.toJson) : Settled document.toJson := by
  have hall : Settled (.array (document.anchors.map Anchor.toJson)) :=
    settled_array (List.forall_mem_map.mpr hanchors)
  exact h.settled hextra (List.Sublist.refl _) (by decide)
    (List.forall_mem_cons.mpr ⟨rfl, List.forall_mem_singleton.mpr hall⟩)

theorem ofJson_toJson (stamp : String) (document : Document) :
    ofJson stamp document.toJson = ofFields stamp (document.fields ++ extraFields document.extra) :=
  rfl

/-- **A document is read as it was written**, if each anchor is read as some anchor. -/
theorem ofFields_of_forall₂ {stamp : String} {found : List Anchor}
    (h : Leftover keys document.fields document.extra)
    (hread : List.Forall₂ (fun anchor found => Anchor.ofJson stamp anchor.toJson = .ok found)
      document.anchors found) (hids : (found.map (·.id)).Nodup) :
    ofFields stamp (document.fields ++ extraFields document.extra) =
      .ok ⟨document.version, found, extraFields document.extra⟩ := by
  have hnames : (Table.names document.fields).Sublist (keys.map (·.name)) := List.Sublist.refl _
  have hget := h.map_get? hnames apart_keys
  simp only [keys, List.map_cons, List.cons.injEq] at hget
  obtain ⟨hversion, hanchors, -⟩ := hget
  have hitems : listOf (Anchor.ofJson stamp) (.array (document.anchors.map Anchor.toJson)) =
      .ok found := items_of_forall₂ (List.forall₂_map_left_iff.mpr hread) 0
  have hnew : firstRepeated? [] (found.map (·.id)) = none :=
    firstRepeated?_of_nodup hids fun _ _ => List.not_mem_nil
  have hdistinct : distinctAnchors stamp (.array (document.anchors.map Anchor.toJson)) =
      .ok found := by
    unfold distinctAnchors
    rw [hitems]
    simp only [bind, Except.bind, hnew]
    rfl
  have hreadVersion : (Key.plain "version").defaulting "1.0.0" text _ = .ok document.version :=
    defaulting_of_get? _ hversion rfl
  have hreadAnchors : (Key.plain "anchors").defaulting [] (distinctAnchors stamp) _ = .ok found :=
    defaulting_of_get? _ hanchors hdistinct
  unfold ofFields
  rw [hreadVersion, hreadAnchors, Checked.both_ok]
  simp only [bind, Except.bind, h.extras hnames]
  rfl

/-- What makes a document come back where it was written: no unknown field can be taken for one of
its own, nor any of an anchor, and no id comes up twice. -/
structure Readable (document : Document) : Prop where
  leftover : Leftover keys document.fields document.extra
  tidy : Record.Tidy document.extra
  anchors : ∀ anchor ∈ document.anchors, anchor.Readable ∧ anchor.Tidy
  ids : document.ids.Nodup

/-- The document with its unknown fields as they are written. -/
def asWritten (document : Document) : Document :=
  { document with
    anchors := document.anchors.map Anchor.asWritten
    extra := extraFields document.extra }

theorem ids_asWritten (document : Document) : document.asWritten.ids = document.ids :=
  List.map_map

theorem get?_asWritten (document : Document) (id : String) :
    document.asWritten.get? id = (document.get? id).map Anchor.asWritten :=
  List.find?_map

theorem readable_empty : Readable {} :=
  ⟨leftover_nil _ _, portable_nil.tidy, fun _ h => absurd h List.not_mem_nil, List.nodup_nil⟩

theorem Readable.settled (h : document.Readable) : Settled document.toJson :=
  Document.settled h.leftover h.tidy fun anchor hanchor =>
    (h.anchors anchor hanchor).1.settled (h.anchors anchor hanchor).2

/-- **A readable document is read as it was written.** -/
theorem Readable.ofFields_toJson (h : document.Readable) (stamp : String) :
    ofFields stamp (document.fields ++ extraFields document.extra) = .ok document.asWritten :=
  ofFields_of_forall₂ h.leftover
    (List.forall₂_map_right_iff.mpr (List.forall₂_same.mpr fun anchor hanchor =>
      (h.anchors anchor hanchor).1.ofJson_toJson stamp))
    (document.ids_asWritten.symm ▸ h.ids : document.asWritten.ids.Nodup)

end Document

end Mooring
