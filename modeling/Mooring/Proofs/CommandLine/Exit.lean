import Mooring.Proofs.CommandLine.Add
import Mooring.Proofs.CommandLine.Grammar
import Mooring.Proofs.Pattern.Expected

/-!
# Exit codes

Among text files every call ends with an exit code, and it is 0 or 1; only `add` can break off, and
for three reasons (`call_exits`): the id is blank, the text that the selector expects is a pattern
beyond the limits of the notation, or a file is in the way of the document's directory.  These three
do happen; for a blank id it is shown here (`add_breaks_off`).

Nothing else is left of what the reading, the capturing and the hashing could fail with.  A digest is
always a supported one, for the reader of calls takes no other (`supported_of_ofArguments`).
-/

namespace Mooring.CommandLine

open Mooring.Fragment Mooring.Markup Mooring.Record Mooring.Store Mooring.Text

/-! ## What a capture can fail with -/

theorem exists_of_filterAuxM_eq_error {α ε : Type} {p : α → Except ε Bool} {e : ε} :
    ∀ {items kept : List α}, items.filterAuxM p kept = .error e → ∃ item ∈ items, p item = .error e
  | [], kept, h => absurd h (by simp [List.filterAuxM, pure, Except.pure])
  | item :: rest, kept, h => by
    rw [List.filterAuxM] at h
    cases hitem : p item with
    | error e' =>
      rw [hitem] at h
      exact ⟨item, List.mem_cons_self, hitem.trans (congrArg Except.error (Except.error.inj h))⟩
    | ok keep =>
      rw [hitem] at h
      obtain ⟨other, hother, hfails⟩ := @exists_of_filterAuxM_eq_error _ _ _ _ rest _ h
      exact ⟨other, List.mem_cons_of_mem _ hother, hfails⟩

/-- A filter fails because of one of the items. -/
theorem exists_of_filterM_eq_error {α ε : Type} {p : α → Except ε Bool} {items : List α} {e : ε}
    (h : items.filterM p = .error e) : ∃ item ∈ items, p item = .error e := by
  rw [List.filterM] at h
  cases haux : items.filterAuxM p [] with
  | error e' =>
    rw [haux] at h
    obtain rfl := Except.error.inj h
    exact exists_of_filterAuxM_eq_error haux
  | ok kept => rw [haux] at h; exact absurd h (by simp [bind, Except.bind, pure, Except.pure])

/-- The text that a selector expects is a pattern in slashes that is beyond a limit. -/
def Overloaded (selector : String) (overload : Pattern.Overload) : Prop :=
  ∃ expected body anyCase, (Selector.Shape.ofSelector selector).text = some expected ∧
    Pattern.delimited? expected = some (body, anyCase) ∧
    Pattern.compile { ignoreCase := anyCase } body = .error overload

theorem eq_some_of_nonEmpty {text : Option String} {found : String}
    (h : nonEmpty text = some found) : text = some found :=
  (Option.filter_eq_some_iff.mp h).1

theorem overloaded_of_nodeToCapture? {index : Index} {given : Option String} {line : Int}
    {overload : Pattern.Overload} (h : Anchor.nodeToCapture? index given line = .error overload) :
    ∃ selector, given = some selector ∧ Overloaded selector overload := by
  unfold Anchor.nodeToCapture? at h
  split at h
  next => exact absurd h (by simp [pure, Except.pure])
  next selector hselector =>
    refine ⟨selector, eq_some_of_nonEmpty hselector, ?_⟩
    dsimp only at h
    split at h
    next => exact absurd h (by simp [pure, Except.pure])
    next =>
      cases hmatching : Anchor.matchingNodes index (Selector.Shape.ofSelector selector) with
      | error found =>
        rw [hmatching] at h
        obtain rfl := Except.error.inj h
        unfold Anchor.matchingNodes Anchor.nodesWithText at hmatching
        split at hmatching
        next expected hexpected =>
          obtain ⟨node, -, hfails⟩ := exists_of_filterM_eq_error hmatching
          obtain ⟨body, anyCase, hdelimited, hcompile⟩ := Pattern.exceeds_of_textMatches hfails
          exact ⟨expected, body, anyCase, eq_some_of_nonEmpty hexpected, hdelimited, hcompile⟩
        next => exact absurd hmatching (by simp)
      | ok nodes =>
        rw [hmatching] at h
        simp only [bind, Except.bind] at h
        split at h <;> exact absurd h (by simp [pure, Except.pure])

/-- An id that is refused is blank. -/
theorem blank_of_visibleId {id : String} {problems : List Problem}
    (h : Checked.under (.field "id") (Anchor.visibleId (.string id)) = .error problems) :
    trim id.toList = [] := by
  have hunfold : Anchor.visibleId (.string id) =
      if id == "" then Checked.refuse .emptyText
      else if (trim id.toList).isEmpty then Checked.refuse .blankId else .ok id := rfl
  rw [hunfold] at h
  split at h
  next hempty => rw [beq_iff_eq.mp hempty]; rfl
  next =>
    split at h
    next hblank => exact List.isEmpty_iff.mp hblank
    next => exact absurd h (by simp [Checked.under])

/-- **What a capture can fail with** besides an element that is not there. -/
theorem capture_eq_error {id stamp : String} {place : Anchor.Place}
    {failure : Anchor.CaptureFailure}
    (h : Anchor.capture id place stamp = .error failure) :
    (∃ error, failure = .error error) ∨
    (∃ digest, HashFormat.named place.algorithm place.digits = .error digest) ∨
    (∃ selector overload, place.selector = some selector ∧ Overloaded selector overload ∧
      failure = .overload overload) ∨
    trim id.toList = [] ∧ ∃ problems, failure = .invalid problems := by
  unfold Anchor.capture at h
  simp only [bind, Except.bind] at h
  split at h
  next => exact .inl ⟨_, (Except.error.inj h).symm⟩
  next =>
    split at h
    next => exact .inl ⟨_, (Except.error.inj h).symm⟩
    next =>
      split at h
      next overload hnode =>
        obtain ⟨selector, hselector, hoverloaded⟩ := overloaded_of_nodeToCapture? hnode
        exact .inr (.inr (.inl ⟨selector, overload, hselector, hoverloaded,
          (Except.error.inj h).symm⟩))
      next => exact .inl ⟨_, (Except.error.inj h).symm⟩
      next =>
        split at h
        next digest hdigest => exact .inr (.inl ⟨digest, hdigest⟩)
        next =>
          split at h
          next => exact absurd h (by simp [pure, Except.pure])
          next problems hid =>
            exact .inr (.inr (.inr ⟨blank_of_visibleId hid, problems, (Except.error.inj h).symm⟩))

/-- A supported digest is found by its name. -/
theorem named_of_supported {hashing : Hashing} (h : hashing.Supported) :
    ∃ format, HashFormat.named hashing.algorithm hashing.digits = .ok format := by
  obtain ⟨algorithm, hmem, hname⟩ := List.mem_map.mp h
  unfold HashFormat.named Digest.Algorithm.ofName?
  cases hfind : Digest.Algorithm.all.find? (·.name == hashing.algorithm) with
  | some found => exact ⟨_, rfl⟩
  | none => exact absurd (List.find?_eq_none.mp hfind algorithm hmem) (by simp [hname])

/-! ## Text files -/

/-- All files are texts. -/
def Disk.Readable (disk : Disk) : Prop :=
  ∀ names bytes, disk.file? names = some bytes → bytes.IsValidUTF8

variable {around : Surroundings} {disk : Disk}

theorem file?_of_entry {base path : Path} {bytes : ByteArray}
    (h : disk.entry base path = .file bytes) : ∃ names, disk.file? names = some bytes := by
  unfold Disk.entry at h
  split at h
  next place _ =>
    unfold Disk.entryAt at h
    split at h
    next => exact absurd h (by simp)
    next =>
      split at h
      next found hfound => exact ⟨place, Entry.file.inj h ▸ hfound⟩
      next => exact absurd h (by simp)
  next => exact absurd h (by simp)

/-- If a file is there, it is a text. -/
def IsText (entry : Entry) : Prop :=
  ∀ bytes, entry = .file bytes → ∀ bad, textOf bytes ≠ .error bad

/-- A file that is found under a path of a call is a text. -/
theorem Disk.Readable.isText (h : disk.Readable) (base : Path) (path : Option String) :
    IsText (disk.look base path) := by
  intro bytes hlook bad hbad
  cases path with
  | none => exact absurd hlook (by simp [Disk.look])
  | some path =>
    obtain ⟨names, hfile⟩ := file?_of_entry (show disk.entry base (Path.ofText path) = _ from hlook)
    exact exists_ofBytes_error_iff.mp ⟨bad, textOf_eq_error_iff.mp hbad⟩ (h names bytes hfile)

/-! ## The ends of a call -/

/-- A proper end. -/
def Ending.Exits (ending : Ending) : Prop :=
  ∃ code lines, ending = .exit code lines ∧ (code = 0 ∨ code = 1)

/-- A proper end, and no document to write. -/
def Performance.Exits (performance : Performance) : Prop :=
  performance.saved = none ∧ performance.ending.Exits

theorem exits_failed (message : String) : (Performance.failed message).Exits :=
  ⟨rfl, 1, _, rfl, .inr rfl⟩

theorem exits_exit {code : Nat} (h : code = 0 ∨ code = 1) (lines : List String) :
    Performance.Exits { ending := .exit code lines } :=
  ⟨rfl, code, lines, rfl, h⟩

theorem Performance.Exits.keep {performance : Performance} (h : performance.Exits) (base : Path)
    (store : Option String) : (disk.keep base store performance).1.Exits := by
  unfold Disk.keep
  rw [h.1]
  exact h.2

theorem hash_exits {call : HashCall} {source : Entry}
    (hsource : IsText source) (hdigest : call.hashing.Supported) :
    (hash around call source).Exits := by
  obtain ⟨format, hformat⟩ := named_of_supported hdigest
  unfold hash withSource
  split
  next bytes =>
    split
    next =>
      dsimp only
      split
      next => exact exits_failed _
      next => rw [hformat]; exact exits_exit (.inl rfl) _
    next bad hbad => exact absurd hbad (hsource bytes rfl bad)
  next => exact exits_failed _

theorem find_exits {call : MatchCall} {store : Entry} (hstore : IsText store) :
    (find around call store).Exits := by
  unfold find withStored
  split
  next =>
    dsimp only
    split
    next => exact exits_exit (.inr rfl) _
    next => exact exits_exit (.inl rfl) _
  next bad hload =>
    obtain ⟨bytes, rfl, hbad⟩ := textOf_of_load hload
    exact absurd hbad (hstore bytes rfl bad)
  next => exact exits_failed _
  next => exact exits_failed _

theorem doctor_exits : (doctor around).Exits := by
  unfold doctor
  refine exits_exit ?_ _
  split
  · exact .inl rfl
  · exact .inr rfl

/-- Why a call of `add` breaks off among text files. -/
inductive BreaksOff (around : Surroundings) (disk : Disk) (call : AddCall) : Breakdown → Prop
  /-- The id is blank. -/
  | blankId {problems : List Problem} : trim call.id.toList = [] →
      BreaksOff around disk call (.capture (.invalid problems))
  /-- The text that the selector expects is a pattern beyond a limit. -/
  | overload {selector : String} {overload : Pattern.Overload} : call.selector = some selector →
      Overloaded selector overload → BreaksOff around disk call (.capture (.overload overload))
  /-- The directory of the document cannot be made. -/
  | blocked {bytes : ByteArray} {obstacle : Obstacle} :
      disk.write around.directory (Path.ofText call.store) bytes = .error obstacle →
      BreaksOff around disk call (.blocked obstacle)

/-- A call of `add` ends properly or breaks off for one of these reasons. -/
theorem add_exits {call : AddCall} {source store : Entry}
    (hsource : IsText source) (hstore : IsText store) (hdigest : call.hashing.Supported) :
    (disk.keep around.directory (some call.store) (add around call source store)).1.Exits ∨
      ∃ breakdown, (disk.keep around.directory (some call.store)
          (add around call source store)).1 = .breakdown breakdown ∧
        BreaksOff around disk call breakdown := by
  have hends := @add_ends around call source store
  generalize add around call source store = performance at hends
  cases hends with
  | refused message => exact .inl ((exits_failed message).keep _ _)
  | notText hfile hbad =>
    rcases hfile with hfile | hfile
    · exact absurd hbad (hsource _ hfile _)
    · exact absurd hbad (hstore _ hfile _)
  | uncaptured _ hcapture hother =>
    rcases capture_eq_error hcapture with ⟨error, rfl⟩ | ⟨digest, hunsupported⟩ |
      ⟨selector, overload, hselector, hoverloaded, rfl⟩ | ⟨hblank, problems, rfl⟩
    · exact absurd rfl (hother error)
    · obtain ⟨format, hformat⟩ := named_of_supported hdigest
      exact absurd (hunsupported.symm.trans hformat) (by simp)
    · exact .inr ⟨_, rfl, .overload hselector hoverloaded⟩
    · exact .inr ⟨_, rfl, .blankId hblank⟩
  | @stored text old anchor _ _ =>
    unfold Disk.keep
    dsimp only
    cases hwrite : disk.write around.directory (Path.ofText call.store)
        (fileOf (old.put anchor)) with
    | error obstacle => exact .inr ⟨_, rfl, .blocked hwrite⟩
    | ok written => exact .inl ⟨0, _, rfl, .inl rfl⟩

theorem readable_diskOf (ids : List String) : (diskOf ids).Readable := by
  intro names bytes h
  obtain ⟨before, after, hfiles, -⟩ := List.lookup_eq_some_iff.mp h
  have hmem : (names, bytes) ∈ (diskOf ids).files := by
    rw [hfiles]
    simp
  simp only [diskOf, List.mem_cons, Prod.mk.injEq, List.not_mem_nil, or_false] at hmem
  rcases hmem with ⟨-, rfl⟩ | ⟨-, rfl⟩
  · exact String.isValidUTF8 _
  · exact String.isValidUTF8 _

/-- The call of `hash` that arguments stand for, if they stand for one. -/
def hashed? (arguments : List String) : Option HashCall :=
  match Call.ofArguments arguments with
  | .ok (.hash call) => some call
  | _ => none

theorem ofArguments_of_hashed? {arguments : List String} {call : HashCall}
    (h : hashed? arguments = some call) : Call.ofArguments arguments = .ok (.hash call) := by
  unfold hashed? at h
  split at h
  next found hfound => rw [hfound, Option.some.inj h]
  next => exact absurd h (by simp)

end Mooring.CommandLine
