import Mooring.Proofs.Json.Settled
import Mooring.Proofs.Record.Reading

/-!
# What is left over of a record

A record is written with the fields that nobody took behind its own ones.  When that is read again,
each own field is found where it was written (`Leftover.get?`), and the same fields are left over
(`Leftover.extras`).

One thing can come between.  A field that has two spellings may have been null under its name while
something else stood under its second spelling.  Then the field is read as null and not written, the
other thing is left over, and next time it is found in the field's place (`Key.hides`).  What is
left over of a record in which no field hides another value is a `Leftover` (`leftover_extras`).
-/

namespace Mooring

namespace Record

open Mooring.Json

/-! ## Unknown fields as they are written -/

theorem isNull_eq_false {value : Json} (h : value ≠ .null) : value.isNull = false := by
  cases value with
  | null => exact absurd rfl h
  | _ => rfl

theorem mem_extraFields_iff {extra : Table Json} {field : String × Json} :
    field ∈ extraFields extra ↔
      ∃ value, (field.1, value) ∈ extra ∧ value ≠ .null ∧ field.2 = value.finite := by
  constructor
  · intro h
    obtain ⟨⟨name, value⟩, hpair, rfl⟩ := List.mem_map.mp h
    obtain ⟨hmem, hnull⟩ := List.mem_filter.mp hpair
    refine ⟨value, hmem, ?_, rfl⟩
    rintro rfl
    exact absurd hnull (by simp [isNull])
  · rintro ⟨value, hmem, hnull, hvalue⟩
    refine List.mem_map.mpr ⟨(field.1, value), List.mem_filter.mpr ⟨hmem, ?_⟩, ?_⟩
    · simp [isNull_eq_false hnull]
    · exact Prod.ext rfl hvalue.symm

/-- Unknown fields whose numbers are finite are written as they are, without those that are null. -/
theorem extraFields_of_finite {extra : Table Json} (h : ∀ field ∈ extra, field.2.finite = field.2) :
    extraFields extra = extra.filter fun field => !field.2.isNull := by
  have hsame : ∀ field ∈ extra.filter fun field => !field.2.isNull,
      (field.1, field.2.finite) = id field :=
    fun field hfield => Prod.ext rfl (h field (List.mem_filter.mp hfield).1)
  unfold extraFields
  exact (List.map_congr_left hsame).trans (List.map_id _)

theorem extraFields_extraFields {extra : Table Json}
    (h : ∀ field ∈ extra, field.2.finite = field.2) :
    extraFields (extraFields extra) = extraFields extra := by
  have hkept : ∀ field ∈ extraFields extra, field.2.finite = field.2 := by
    rw [extraFields_of_finite h]
    exact fun field hfield => h field (List.mem_filter.mp hfield).1
  rw [extraFields_of_finite hkept, extraFields_of_finite h, List.filter_filter]
  simp only [Bool.and_self]

theorem names_extraFields (extra : Table Json) :
    (Table.names (extraFields extra)).Sublist (Table.names extra) := by
  have hwritten : Table.names (extraFields extra) =
      Table.names (extra.filter fun field => !field.2.isNull) := by
    unfold extraFields Table.names
    rw [List.map_map]
    rfl
  rw [hwritten]
  exact List.filter_sublist.map _

/-- Unknown fields that a reader hands out: each name comes up once, also inside the values. -/
structure Tidy (extra : Table Json) : Prop where
  nodup : (Table.names extra).Nodup
  settled : ∀ field ∈ extra, Settled field.2

/-- What is left over of a settled value is tidy. -/
theorem tidy_extras {fields : Table Json} (h : Settled (.object fields)) (keys : List Key) :
    Tidy (extras keys fields) :=
  ⟨h.nodup.sublist (List.filter_sublist.map _),
    fun field hfield => h.field field (List.mem_filter.mp hfield).1⟩

theorem Tidy.extraFields {extra : Table Json} (h : Tidy extra) :
    Tidy (Mooring.extraFields extra) := by
  refine ⟨h.nodup.sublist (names_extraFields extra), fun field hfield => ?_⟩
  obtain ⟨value, hvalue, -, hwritten⟩ := mem_extraFields_iff.mp hfield
  exact hwritten ▸ (h.settled _ hvalue).finite

/-- Unknown fields that a text can stand for: each name comes up once, and all values are
standard. -/
structure Portable (extra : Table Json) : Prop where
  nodup : (Table.names extra).Nodup
  standard : ∀ field ∈ extra, Standard field.2

theorem Portable.tidy {extra : Table Json} (h : Portable extra) : Tidy extra :=
  ⟨h.nodup, fun field hfield => (h.standard field hfield).settled⟩

theorem portable_nil : Portable [] :=
  ⟨List.nodup_nil, fun _ h => absurd h List.not_mem_nil⟩

/-- What is left over of a standard value is portable. -/
theorem portable_extras {fields : Table Json} (h : Standard (.object fields)) (keys : List Key) :
    Portable (extras keys fields) :=
  ⟨h.settled.nodup.sublist (List.filter_sublist.map _),
    fun field hfield => h.field field (List.mem_filter.mp hfield).1⟩

theorem Portable.extraFields {extra : Table Json} (h : Portable extra) :
    Portable (Mooring.extraFields extra) := by
  rw [extraFields_of_finite fun field hfield => (h.standard field hfield).finite]
  exact ⟨h.nodup.sublist (List.filter_sublist.map _),
    fun field hfield => h.standard field (List.mem_filter.mp hfield).1⟩

/-- **Written a second time, unknown fields do not change any more.** -/
theorem Portable.extraFields_extraFields {extra : Table Json} (h : Portable extra) :
    Mooring.extraFields (Mooring.extraFields extra) = Mooring.extraFields extra :=
  Record.extraFields_extraFields fun field hfield => (h.standard field hfield).finite

theorem mem_extras_iff {keys : List Key} {fields : Table Json} {field : String × Json} :
    field ∈ extras keys fields ↔
      field ∈ fields ∧ ∀ key ∈ keys, key.found? fields ≠ some field.1 := by
  refine List.mem_filter.trans (and_congr_right fun _ => ?_)
  show (!keys.any fun key => key.found? fields == some field.1) = true ↔ _
  simp

/-! ## Fields that hide a value -/

/-- A field is null under its name, and something else stands under its second spelling: the record
has nothing in the field, and the other value is left over. -/
def Key.hides (key : Key) (fields : Table Json) : Bool :=
  (fields.get? key.name).any Json.isNull &&
    fields.any fun field => field.1 == key.spelling && !field.2.isNull

theorem Key.hides_of_mem {key : Key} {fields : Table Json} {value : Json}
    (hname : fields.get? key.name = some .null) (hmem : (key.spelling, value) ∈ fields)
    (hvalue : value ≠ .null) : key.hides fields = true := by
  have hother : fields.any (fun field => field.1 == key.spelling && !field.2.isNull) = true :=
    List.any_eq_true.mpr ⟨_, hmem, by simp [isNull_eq_false hvalue]⟩
  unfold Key.hides
  rw [hname, hother]
  rfl

/-- Fields that may be left over of a record with the fields `known`: none has the name of a field,
and what has the second spelling of a field that is not there is null. -/
structure Leftover (keys : List Key) (known extra : Table Json) : Prop where
  foreign : ∀ field ∈ extra, ∀ key ∈ keys, field.1 ≠ key.name
  unread : ∀ key ∈ keys, known.get? key.name = none →
    ∀ field ∈ extra, field.1 = key.spelling → field.2 = .null

/-- No field is called by the name of another one. -/
def Apart (keys : List Key) : Prop :=
  ∀ key ∈ keys, ∀ other ∈ keys, key.spelling = other.name → key.name = other.name

variable {keys : List Key} {key : Key} {fields known extra : Table Json}

theorem leftover_nil (keys : List Key) (known : Table Json) : Leftover keys known [] :=
  ⟨fun _ h => absurd h List.not_mem_nil, fun _ _ _ _ h => absurd h List.not_mem_nil⟩

/-- A field that was found stands in the record. -/
theorem Key.mem_of_get? {value : Json} (h : key.get? fields = some value) :
    ∃ name, (name, value) ∈ fields := by
  rw [Key.get?_eq] at h
  rcases Option.or_eq_some_iff.mp h with hname | ⟨-, hspelling⟩
  · exact ⟨key.name, Table.mem_of_get? hname⟩
  · exact ⟨key.spelling, Table.mem_of_get? hspelling⟩

/-- An optional field without a value was missing or null. -/
theorem missing_of_optional {α : Type} {check : Json → Checked α} {encode : α → Json}
    {a : Option α} (h : key.optional check fields = .ok a) (hnone : a.map encode = none) :
    key.get? fields = none ∨ key.get? fields = some .null := by
  rcases optional_eq_ok h with ⟨-, hmissing⟩ | ⟨value, x, -, -, rfl⟩
  · exact hmissing
  · exact absurd hnone (by simp)

/-- What may be left over of a record whose fields have one spelling each. -/
theorem leftover_of_plain (hplain : ∀ key ∈ keys, key.spelling = key.name)
    (h : ∀ field ∈ extra, ∀ key ∈ keys, field.1 ≠ key.name) (known : Table Json) :
    Leftover keys known extra := by
  refine ⟨h, fun key hkey _ field hfield hspelling => ?_⟩
  exact absurd (hspelling.trans (hplain key hkey)) (h field hfield key hkey)

/-- **What is left over of a record in which no field hides a value.**  The fields that are not
written are those that were missing or null. -/
theorem leftover_extras
    (hopen : ∀ key ∈ keys, known.get? key.name = none →
      key.get? fields = none ∨ key.get? fields = some .null)
    (hhides : ∀ key ∈ keys, ¬key.hides fields) : Leftover keys known (extras keys fields) := by
  refine ⟨fun field hfield key hkey => ne_name_of_mem_extras hfield hkey, ?_⟩
  intro key hkey hunwritten field hfield hspelling
  obtain ⟨hmem, huntaken⟩ := mem_extras_iff.mp hfield
  by_contra hnull
  have hvalue : (key.spelling, field.2) ∈ fields := hspelling ▸ hmem
  rcases hopen key hkey hunwritten with hget | hget
  · -- The field is missing, but here it stands under its second spelling.
    rw [Key.get?_eq, Option.or_eq_none_iff] at hget
    have hhas := Table.has_of_mem hvalue
    rw [Table.has, hget.2] at hhas
    exact absurd hhas (by simp)
  · cases hname : fields.get? key.name with
    | some value =>
      rw [Key.get?_eq, hname, Option.some_or] at hget
      exact hhides key hkey (Key.hides_of_mem (hname.trans hget) hvalue hnull)
    | none =>
      -- The field is null under its second spelling, so it was taken from there.
      refine huntaken key hkey ?_
      unfold Key.found?
      rw [if_neg (by rw [Table.has, hname]; simp), if_pos (Table.has_of_mem hvalue), hspelling]

/-- **A field is found where it was written, and nowhere else.** -/
theorem Leftover.get? (h : Leftover keys known extra)
    (hnames : (Table.names known).Sublist (keys.map (·.name))) (hapart : Apart keys)
    (hkey : key ∈ keys) : key.get? (known ++ extraFields extra) = known.get? key.name := by
  have hforeign : (extraFields extra).get? key.name = none := by
    refine Table.get?_eq_none fun field hfield => ?_
    obtain ⟨value, hvalue, -⟩ := mem_extraFields_iff.mp hfield
    exact h.foreign (field.1, value) hvalue key hkey
  rw [Key.get?_eq, Table.get?_append, Table.get?_append, hforeign, Option.or_none]
  cases hname : known.get? key.name with
  | some value => rfl
  | none =>
    rw [Option.none_or, Option.or_eq_none_iff]
    constructor
    · -- A field of the record that is called by this spelling would be this one.
      cases hspelling : known.get? key.spelling with
      | none => rfl
      | some value =>
        have hmem : key.spelling ∈ Table.names known :=
          List.mem_map_of_mem (Table.mem_of_get? hspelling)
        obtain ⟨other, hother, heq⟩ := List.mem_map.mp (hnames.subset hmem)
        rw [(hapart key hkey other hother heq.symm).trans heq, hspelling] at hname
        exact hname
    · refine Table.get?_eq_none fun field hfield heq => ?_
      obtain ⟨value, hvalue, hnull, -⟩ := mem_extraFields_iff.mp hfield
      exact hnull (h.unread key hkey hname (field.1, value) hvalue heq)

theorem Leftover.map_get? (h : Leftover keys known extra)
    (hnames : (Table.names known).Sublist (keys.map (·.name))) (hapart : Apart keys) :
    keys.map (fun key => key.get? (known ++ extraFields extra)) =
      keys.map fun key => known.get? key.name :=
  List.map_congr_left fun _ hkey => h.get? hnames hapart hkey

/-- **The same fields are left over again.** -/
theorem Leftover.extras (h : Leftover keys known extra)
    (hnames : (Table.names known).Sublist (keys.map (·.name))) :
    extras keys (known ++ extraFields extra) = extraFields extra := by
  unfold Record.extras
  rw [List.filter_append]
  have hknown : known.filter (fun field =>
      !(keys.any fun key => key.found? (known ++ extraFields extra) == some field.1)) = [] := by
    rw [List.filter_eq_nil_iff]
    intro field hfield
    obtain ⟨key, hkey, hname⟩ := List.mem_map.mp (hnames.subset (List.mem_map_of_mem hfield))
    have hfound : key.found? (known ++ extraFields extra) = some field.1 := by
      unfold Key.found?
      rw [hname, if_pos (Table.has_of_mem (List.mem_append_left _ hfield))]
    simp only [Bool.not_eq_true, Bool.not_eq_false', List.any_eq_true]
    exact ⟨key, hkey, by rw [hfound]; exact beq_self_eq_true _⟩
  have hrest : (extraFields extra).filter (fun field =>
      !(keys.any fun key => key.found? (known ++ extraFields extra) == some field.1)) =
        extraFields extra := by
    rw [List.filter_eq_self]
    intro field hfield
    obtain ⟨value, hvalue, hnull, -⟩ := mem_extraFields_iff.mp hfield
    rw [Bool.not_eq_true', List.any_eq_false]
    intro key hkey hfound
    replace hfound := beq_iff_eq.mp hfound
    unfold Key.found? at hfound
    split at hfound
    next => exact h.foreign (field.1, value) hvalue key hkey (Option.some.inj hfound).symm
    next hname =>
      split at hfound
      next =>
        -- It could be taken for a field that is not there only under the second spelling.
        have hunwritten : known.get? key.name = none := by
          cases hget : known.get? key.name with
          | none => rfl
          | some value =>
            exact absurd (Table.has_of_mem (List.mem_append_left _ (Table.mem_of_get? hget))) hname
        exact hnull (h.unread key hkey hunwritten (field.1, value) hvalue
          (Option.some.inj hfound).symm)
      next => exact absurd hfound (by simp)
  rw [hknown, hrest, List.nil_append]

/-- **The names of a record are distinct as it is written.** -/
theorem nodup_names_written (hforeign : ∀ field ∈ extra, ∀ key ∈ keys, field.1 ≠ key.name)
    (hextra : (Table.names extra).Nodup)
    (hnames : (Table.names known).Sublist (keys.map (·.name))) (hkeys : (keys.map (·.name)).Nodup) :
    (Table.names (known ++ extraFields extra)).Nodup := by
  rw [Table.names, List.map_append, List.nodup_append]
  refine ⟨hnames.nodup hkeys, hextra.sublist (names_extraFields extra),
    fun name hname other hother heq => ?_⟩
  -- A name of a field is none of the unknown ones.
  obtain ⟨key, hkey, hkeyName⟩ := List.mem_map.mp (hnames.subset hname)
  obtain ⟨field, hfield, rfl⟩ := List.mem_map.mp hother
  obtain ⟨value, hvalue, -⟩ := mem_extraFields_iff.mp hfield
  exact hforeign (field.1, value) hvalue key hkey (hkeyName.trans heq).symm

/-- **A reader takes a record as it was written.** -/
theorem Leftover.settled (h : Leftover keys known extra) (hextra : Tidy extra)
    (hnames : (Table.names known).Sublist (keys.map (·.name))) (hkeys : (keys.map (·.name)).Nodup)
    (hknown : ∀ field ∈ known, Settled field.2) :
    Settled (.object (known ++ extraFields extra)) :=
  settled_object (nodup_names_written h.foreign hextra.nodup hnames hkeys)
    (List.forall_mem_append.mpr
      ⟨hknown, hextra.extraFields.settled⟩)

end Record

end Mooring
