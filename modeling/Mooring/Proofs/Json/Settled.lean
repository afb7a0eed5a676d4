import Mooring.Proofs.Json.RoundTrip

/-!
# Values without repeated names

A value in which no object has a name twice is taken by a reader as it is (`Settled`).  It is what a
reader hands out: whatever text it reads, the value is settled (`settled_of_parse`).

The values that a text can stand for are settled, and their numbers are finite (`Standard`); the
reader here accepts more, for it knows words for numbers that are not finite.
-/

namespace Mooring

open Mooring.Text

theorem Table.get?_map {α β : Type} (f : α → β) (name : String) (table : Table α) :
    Table.get? name (table.map fun pair => (pair.1, f pair.2)) = (table.get? name).map f := by
  induction table with
  | nil => rfl
  | cons first rest ih =>
    obtain ⟨key, value⟩ := first
    rw [List.map_cons, Table.get?, Table.get?, ih]
    split <;> rfl

namespace Json

/-- The value is taken as it is: no object in it has a name twice. -/
def Settled (value : Json) : Prop :=
  merged value = value

theorem mergedFields_eq {fields : Table Json} (h : ∀ field ∈ fields, Settled field.2) :
    mergedFields fields = fields := by
  have hsame : fields.map (fun field => (field.1, merged field.2)) = fields.map id :=
    List.map_congr_left fun field hfield => Prod.ext rfl (h field hfield)
  rw [mergedFields_eq_map, hsame, List.map_id]

theorem settled_object {fields : Table Json} (hnames : (Table.names fields).Nodup)
    (h : ∀ field ∈ fields, Settled field.2) : Settled (object fields) := by
  unfold Settled
  rw [merged, mergedFields_eq h, Table.ofPairs_of_nodup hnames]

theorem settled_ofTexts (texts : List String) : Settled (ofTexts texts) := by
  unfold Settled ofTexts
  rw [merged, mergedItems_eq_map, List.map_map]
  rfl

theorem settled_array {items : List Json} (h : ∀ item ∈ items, Settled item) :
    Settled (array items) := by
  unfold Settled
  rw [merged, mergedItems_eq_map, List.map_congr_left h, List.map_id']

/-! ## Inside a settled value -/

theorem names_mergedFields (fields : Table Json) :
    Table.names (mergedFields fields) = Table.names fields := by
  rw [mergedFields_eq_map, Table.names, List.map_map]
  rfl

theorem Settled.nodup {fields : Table Json} (h : Settled (object fields)) :
    (Table.names fields).Nodup := by
  have hfields : Table.ofPairs (mergedFields fields) = fields := Json.object.inj h
  rw [← hfields]
  exact Table.nodup_names_ofPairs _

theorem Settled.field {fields : Table Json} (h : Settled (object fields)) :
    ∀ field ∈ fields, Settled field.2 := by
  have hfields : Table.ofPairs (mergedFields fields) = fields := Json.object.inj h
  have hnames := h.nodup
  rw [← names_mergedFields] at hnames
  rw [Table.ofPairs_of_nodup hnames, mergedFields_eq_map] at hfields
  intro field hfield
  have hsame := List.map_inj_left.mp (hfields.trans (List.map_id fields).symm) field hfield
  exact congrArg Prod.snd hsame

theorem Settled.item {items : List Json} (h : Settled (array items)) :
    ∀ item ∈ items, Settled item := by
  have hitems : mergedItems items = items := Json.array.inj h
  rw [mergedItems_eq_map] at hitems
  exact List.map_inj_left.mp (hitems.trans (List.map_id items).symm)

theorem names_finiteFields (fields : Table Json) :
    Table.names (finiteFields fields) = Table.names fields := by
  induction fields with
  | nil => rfl
  | cons field rest ih => exact congrArg (field.1 :: ·) ih

mutual

/-- Without its numbers that are not finite, a settled value is settled. -/
theorem Settled.finite : ∀ {value : Json}, Settled value → Settled value.finite
  | .float x, _ => by
    rw [Json.finite]
    split <;> rfl
  | .array _, h => settled_array (settled_finiteItems h.item)
  | .object fields, h =>
    settled_object ((names_finiteFields fields).symm ▸ h.nodup) (settled_finiteFields h.field)
  | .null, h | .bool _, h | .int _, h | .string _, h => h

theorem settled_finiteItems : ∀ {items : List Json}, (∀ item ∈ items, Settled item) →
    ∀ item ∈ finiteItems items, Settled item
  | [], h => h
  | _ :: _, h =>
    List.forall_mem_cons.mpr ⟨(h _ List.mem_cons_self).finite,
      settled_finiteItems (List.forall_mem_cons.mp h).2⟩

theorem settled_finiteFields : ∀ {fields : Table Json}, (∀ field ∈ fields, Settled field.2) →
    ∀ field ∈ finiteFields fields, Settled field.2
  | [], h => h
  | _ :: _, h =>
    List.forall_mem_cons.mpr ⟨(h _ List.mem_cons_self).finite,
      settled_finiteFields (List.forall_mem_cons.mp h).2⟩

end

/-! ## What a reader hands out -/

theorem settled_ofPairs {fields : Table Json} (h : ∀ field ∈ fields, Settled field.2) :
    Settled (object (Table.ofPairs fields)) :=
  settled_object (Table.nodup_names_ofPairs fields) fun field hfield =>
    h field (Table.mem_of_mem_ofPairs hfield)

theorem settled_readNumber? {negative : Bool} {cs : List Char} {found : Json × List Char}
    (h : readNumber? negative cs = some found) : Settled found.1 := by
  unfold readNumber? at h
  cases hwhole : wholePart? cs with
  | none => rw [hwhole] at h; exact absurd h (by simp)
  | some whole =>
    rw [hwhole] at h
    simp only [Option.bind_eq_bind, Option.bind_some] at h
    split at h
    · rw [← Option.some.inj h]; rfl
    · rw [← Option.some.inj h]; rfl

theorem settled_readPlain? {cs : List Char} {found : Json × List Char}
    (h : readPlain? cs = some found) : Settled found.1 := by
  -- A word stands for a value of its own, which holds no object.
  have hword : ∀ (text : String) (value : Json),
      ((afterLead? text.toList cs).map fun rest => (value, rest)) = some found →
        Settled value → Settled found.1 := by
    intro text value hread hvalue
    obtain ⟨rest, -, rfl⟩ := Option.map_eq_some_iff.mp hread
    exact hvalue
  unfold readPlain? at h
  dsimp only at h
  split at h
  next => exact hword "null" _ h rfl
  next => exact hword "true" _ h rfl
  next => exact hword "false" _ h rfl
  next => exact hword "NaN" _ h rfl
  next => exact hword "Infinity" _ h rfl
  next =>
    rcases Option.or_eq_some_iff.mp h with hinfinite | ⟨-, hnumber⟩
    · exact hword "-Infinity" _ hinfinite rfl
    · exact settled_readNumber? hnumber
  next => exact settled_readNumber? h

/-- **Whatever is read, no object in it has a name twice**: neither in a value nor in further items
or fields.  The induction is on the steps left. -/
theorem settled_read : ∀ fuel : Nat,
    (∀ cs found, readValue fuel cs = .ok found → Settled found.1) ∧
    (∀ cs found, readItems fuel cs = .ok found → ∀ item ∈ found.1, Settled item) ∧
    ∀ cs found, readFields fuel cs = .ok found → ∀ field ∈ found.1, Settled field.2 := by
  intro fuel
  induction fuel with
  | zero =>
    refine ⟨fun cs found h => ?_, fun cs found h => ?_, fun cs found h => ?_⟩
    · exact absurd h (by simp [readValue])
    · exact absurd h (by simp [readItems])
    · exact absurd h (by simp [readFields])
  | succ fuel ih =>
    obtain ⟨hvalue, hitems, hfields⟩ := ih
    refine ⟨fun cs found h => ?_, fun cs found h => ?_, fun cs found h => ?_⟩
    · unfold readValue at h
      split at h
      next rest =>
        cases htext : readText ('"' :: rest).length (rest.length + 1) rest with
        | error e => rw [htext] at h; exact absurd h (by simp [bind, Except.bind])
        | ok text => rw [htext] at h; rw [← Except.ok.inj h]; rfl
      next rest =>
        split at h
        next after => rw [← Except.ok.inj h]; rfl
        next first =>
          cases hread : readItems fuel (skipSpace rest) with
          | error e => rw [hread] at h; exact absurd h (by simp [bind, Except.bind])
          | ok items =>
            rw [hread] at h
            rw [← Except.ok.inj h]
            exact settled_array (hitems _ items hread)
      next rest =>
        split at h
        next after => rw [← Except.ok.inj h]; rfl
        next first =>
          cases hread : readFields fuel (skipSpace rest) with
          | error e => rw [hread] at h; exact absurd h (by simp [bind, Except.bind])
          | ok fields =>
            rw [hread] at h
            rw [← Except.ok.inj h]
            exact settled_ofPairs (hfields _ fields hread)
      next =>
        split at h
        next found' hplain => rw [← Except.ok.inj h]; exact settled_readPlain? hplain
        next => exact absurd h (by simp)
    · unfold readItems at h
      cases hread : readValue fuel cs with
      | error e => rw [hread] at h; exact absurd h (by simp [bind, Except.bind])
      | ok first =>
        rw [hread] at h
        simp only [bind, Except.bind] at h
        have hfirst := hvalue cs first hread
        split at h
        next after => rw [← Except.ok.inj h]; exact List.forall_mem_singleton.mpr hfirst
        next more _ =>
          cases hmore : readItems fuel (skipSpace more) with
          | error e => rw [hmore] at h; exact absurd h (by simp)
          | ok others =>
            rw [hmore] at h
            rw [← Except.ok.inj h]
            exact List.forall_mem_cons.mpr ⟨hfirst, hitems _ others hmore⟩
        next => exact absurd h (by simp)
    · unfold readFields at h
      split at h
      next rest =>
        cases htext : readText ('"' :: rest).length (rest.length + 1) rest with
        | error e => rw [htext] at h; exact absurd h (by simp [bind, Except.bind])
        | ok name =>
          rw [htext] at h
          simp only [bind, Except.bind] at h
          split at h
          next more _ =>
            cases hread : readValue fuel (skipSpace more) with
            | error e => rw [hread] at h; exact absurd h (by simp)
            | ok first =>
              rw [hread] at h
              dsimp only at h
              have hfirst := hvalue _ first hread
              split at h
              next after => rw [← Except.ok.inj h]; exact List.forall_mem_singleton.mpr hfirst
              next more _ =>
                cases hmore : readFields fuel (skipSpace more) with
                | error e => rw [hmore] at h; exact absurd h (by simp)
                | ok others =>
                  rw [hmore] at h
                  rw [← Except.ok.inj h]
                  exact List.forall_mem_cons.mpr ⟨hfirst, hfields _ others hmore⟩
              next => exact absurd h (by simp)
          next => exact absurd h (by simp)
      next => exact absurd h (by simp)

/-- **Reading a text gives a settled value.** -/
theorem settled_of_parse {text : String} {value : Json} (h : parse text = .ok value) :
    Settled value := by
  unfold parse readAll at h
  split at h
  · exact absurd h (by simp [bind, Except.bind, Except.mapError])
  · cases hread : readValue (2 * text.toList.length + 2) (skipSpace text.toList) with
    | error e =>
      rw [hread] at h
      exact absurd h (by simp [bind, Except.bind, Except.mapError])
    | ok found =>
      rw [hread] at h
      simp only [bind, Except.bind, pure, Except.pure] at h
      split at h
      next => rw [← Except.ok.inj h]; exact (settled_read _).1 _ found hread
      next => exact absurd h (by simp [Except.mapError])

/-! ## Values that a text can stand for -/

/-- A value as the standard has them: no object in it has a name twice, and every number in it is
finite. -/
structure Standard (value : Json) : Prop where
  settled : Settled value
  finite : value.finite = value

theorem finite_of_mem {fields : Table Json} (h : finiteFields fields = fields) :
    ∀ field ∈ fields, field.2.finite = field.2 := by
  induction fields with
  | nil => exact fun _ hfield => absurd hfield List.not_mem_nil
  | cons first rest ih =>
    obtain ⟨name, value⟩ := first
    rw [finiteFields] at h
    obtain ⟨hfirst, hrest⟩ := List.cons.inj h
    exact List.forall_mem_cons.mpr ⟨(Prod.mk.inj hfirst).2, ih hrest⟩

theorem Standard.field {fields : Table Json} (h : Standard (object fields)) :
    ∀ field ∈ fields, Standard field.2 := fun field hfield =>
  ⟨h.settled.field field hfield, finite_of_mem (Json.object.inj h.finite) field hfield⟩

theorem Standard.item {items : List Json} (h : Standard (array items)) :
    ∀ item ∈ items, Standard item := by
  have hfinite : finiteItems items = items := Json.array.inj h.finite
  have hsettled := h.settled.item
  clear h
  induction items with
  | nil => exact fun _ hitem => absurd hitem List.not_mem_nil
  | cons first rest ih =>
    obtain ⟨hfirst, hrest⟩ := List.cons.inj hfinite
    obtain ⟨hsettledFirst, hsettledRest⟩ := List.forall_mem_cons.mp hsettled
    exact List.forall_mem_cons.mpr ⟨⟨hsettledFirst, hfirst⟩, ih hrest hsettledRest⟩

end Json

end Mooring
