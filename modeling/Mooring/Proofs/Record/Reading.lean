import Mathlib.Data.List.Forall2
import Mooring.Anchor.Basic

/-!
# Reading the fields that were written

A record is written as its fields in a row, those that are not there left out.  Such an object is
read back field by field: a field is found under its name (`Key.get?_eq`), a check that passes on
what was written gives the value that was written (`required_of_get?`, `defaulting_of_get?`,
`optional_of_get?`), and what is left over has no name of a field (`ne_name_of_mem_extras`).

The items of a list are checked one by one, so what was found at a place is what the check makes of
the item at that place (`items_eq_ok`).
-/

namespace Mooring.Record

variable {α β : Type}

/-! ## One field -/

/-- A field is looked up under its name, and else under its second spelling. -/
theorem Key.get?_eq (key : Key) (fields : Table Json) :
    key.get? fields = (fields.get? key.name).or (fields.get? key.spelling) := by
  unfold Key.get? Key.found? Table.has
  cases hname : fields.get? key.name with
  | some value => simp [hname]
  | none =>
    cases hspelling : fields.get? key.spelling with
    | some value => simp [hspelling]
    | none => simp

theorem Key.get?_plain (name : String) (fields : Table Json) :
    (Key.plain name).get? fields = fields.get? name := by
  rw [Key.get?_eq]
  exact Option.or_self

@[simp] theorem Checked.both_ok (a : α) (b : β) :
    Checked.both (.ok a) (.ok b) = .ok (a, b) :=
  rfl

theorem Checked.under_eq_ok {step : Step} {checked : Checked α} {a : α}
    (h : Checked.under step checked = .ok a) : checked = .ok a := by
  cases checked with
  | ok => exact h
  | error problems => exact absurd h (by simp [Checked.under])

theorem Checked.both_eq_ok {first : Checked α} {second : Checked β} {pair : α × β}
    (h : Checked.both first second = .ok pair) : first = .ok pair.1 ∧ second = .ok pair.2 := by
  cases first with
  | ok a =>
    cases second with
    | ok b => rw [← Except.ok.inj h]; exact ⟨rfl, rfl⟩
    | error problems => exact absurd h (by simp [Checked.both])
  | error problems =>
    cases second with
    | ok b => exact absurd h (by simp [Checked.both])
    | error more => exact absurd h (by simp [Checked.both])

variable {key : Key} {fields : Table Json} {check : Json → Checked α}

theorem required_of_get? (value : Json) {a : α} (h : key.get? fields = some value)
    (hcheck : check value = .ok a) : key.required check fields = .ok a := by
  unfold Key.required
  rw [h]
  dsimp only
  rw [hcheck]
  rfl

theorem defaulting_of_get? {default a : α} (value : Json) (h : key.get? fields = some value)
    (hcheck : check value = .ok a) : key.defaulting default check fields = .ok a := by
  unfold Key.defaulting
  rw [h]
  dsimp only
  rw [hcheck]
  rfl

/-- **A field that is written if it is there is read as its check takes it.** -/
theorem optional_map_of_get? (encode : α → Json) (taken : α → α) {a : Option α}
    (h : key.get? fields = a.map encode) (hnull : ∀ x, (encode x).isNull = false)
    (hcheck : ∀ x ∈ a, check (encode x) = .ok (taken x)) :
    key.optional check fields = .ok (a.map taken) := by
  unfold Key.optional
  rw [h]
  cases a with
  | none => rfl
  | some x =>
    have hx := hcheck x rfl
    have hn := hnull x
    rw [Option.map_some]
    split
    next heq => exact absurd heq (by simp)
    next heq =>
      rw [Option.some.inj heq] at hn
      exact absurd hn (by simp [Json.isNull])
    next value hne heq =>
      rw [← Option.some.inj heq, hx]
      rfl

/-- **A field that is written if it is there is read as it was**, if its check takes it so. -/
theorem optional_of_get? (encode : α → Json) {a : Option α}
    (h : key.get? fields = a.map encode) (hnull : ∀ x, (encode x).isNull = false)
    (hcheck : ∀ x ∈ a, check (encode x) = .ok x) : key.optional check fields = .ok a := by
  rw [optional_map_of_get? encode id h hnull hcheck, Option.map_id_fun, id]

/-- A field that is there only if its value is. -/
theorem get?_fieldOf? (name other : String) (encode : α → Json) (a : Option α) :
    Table.get? other (fieldOf? name encode a) =
      if name = other then a.map encode else none := by
  cases a with
  | none => simp [fieldOf?, Table.get?]
  | some x => simp [fieldOf?, Table.get?]

theorem names_fieldOf? (name : String) (encode : α → Json) (a : Option α) :
    (Table.names (fieldOf? name encode a)).Sublist [name] := by
  cases a with
  | none => exact List.nil_sublist _
  | some x => exact List.Sublist.refl _

/-- **What is left over has no name of a field.** -/
theorem ne_name_of_mem_extras {keys : List Key} {key : Key} {field : String × Json}
    (h : field ∈ extras keys fields) (hkey : key ∈ keys) : field.1 ≠ key.name := by
  intro hname
  obtain ⟨hmem, hunknown⟩ := List.mem_filter.mp h
  -- A field of that name would have been taken.
  have hfound : key.found? fields = some field.1 := by
    unfold Key.found?
    rw [show key.name = field.1 from hname.symm, if_pos (Table.has_of_mem hmem)]
  have htaken : keys.any (fun key => key.found? fields == some field.1) = true :=
    List.any_eq_true.mpr ⟨key, hkey, by rw [hfound]; exact beq_self_eq_true _⟩
  have hnot : (!keys.any fun key => key.found? fields == some field.1) = true := hunknown
  rw [htaken] at hnot
  exact absurd hnot (by simp)

/-- What is known of a required field that was read. -/
theorem required_eq_ok {a : α} (h : key.required check fields = .ok a) :
    ∃ value, key.get? fields = some value ∧ check value = .ok a := by
  have hfound := Checked.under_eq_ok h
  cases hget : key.get? fields with
  | none => rw [hget] at hfound; exact absurd hfound (by simp [Checked.refuse])
  | some value => rw [hget] at hfound; exact ⟨value, rfl, hfound⟩

/-- What is known of a field with a default that was read. -/
theorem defaulting_eq_ok {default a : α} (h : key.defaulting default check fields = .ok a) :
    (a = default ∧ key.get? fields = none) ∨
      ∃ value, key.get? fields = some value ∧ check value = .ok a := by
  unfold Key.defaulting at h
  split at h
  next value hvalue => exact .inr ⟨value, hvalue, Checked.under_eq_ok h⟩
  next hnone => exact .inl ⟨(Except.ok.inj h).symm, hnone⟩

/-- What is known of an optional field that was read. -/
theorem optional_eq_ok {a : Option α} (h : key.optional check fields = .ok a) :
    (a = none ∧ (key.get? fields = none ∨ key.get? fields = some .null)) ∨
      ∃ value x, key.get? fields = some value ∧ check value = .ok x ∧ a = some x := by
  unfold Key.optional at h
  split at h
  next hnone => exact .inl ⟨(Except.ok.inj h).symm, .inl hnone⟩
  next hnull => exact .inl ⟨(Except.ok.inj h).symm, .inr hnull⟩
  next value _ hvalue =>
    have hmap := Checked.under_eq_ok h
    cases hcheck : check value with
    | error problems => rw [hcheck] at hmap; exact absurd hmap (by simp [Except.map])
    | ok x => rw [hcheck] at hmap; exact .inr ⟨value, x, hvalue, hcheck, (Except.ok.inj hmap).symm⟩

/-! ## Lists -/

/-- **What stands at a place of a checked list is what the check makes of the item there.** -/
theorem items_eq_ok {γ : Type} {check : γ → Checked α} : ∀ {items : List γ} {start : Nat}
    {found : List α}, Checked.items check start items = .ok found →
      List.Forall₂ (fun item a => check item = .ok a) items found := by
  intro items
  induction items with
  | nil =>
    intro start found h
    rw [← Except.ok.inj h]
    exact .nil
  | cons item rest ih =>
    intro start found h
    rw [Checked.items] at h
    cases hboth : Checked.both (Checked.under (.item start) (check item))
        (Checked.items check (start + 1) rest) with
    | error problems => rw [hboth] at h; exact absurd h (by simp [Except.map])
    | ok pair =>
      rw [hboth] at h
      obtain ⟨hfirst, hrest⟩ := Checked.both_eq_ok hboth
      rw [← Except.ok.inj h]
      exact .cons (Checked.under_eq_ok hfirst) (ih hrest)

theorem exists_of_forall₂ {γ : Type} {R : γ → α → Prop} {items : List γ} {found : List α}
    (h : List.Forall₂ R items found) {item : γ} (hmem : item ∈ items) : ∃ a ∈ found, R item a := by
  induction h with
  | nil => exact absurd hmem (by simp)
  | cons hfirst _ ih =>
    rcases List.mem_cons.mp hmem with rfl | hrest
    · exact ⟨_, List.mem_cons_self, hfirst⟩
    · obtain ⟨a, ha, hR⟩ := ih hrest
      exact ⟨a, List.mem_cons_of_mem _ ha, hR⟩

theorem exists_forall₂ {γ : Type} {R : γ → α → Prop} {items : List γ}
    (h : ∀ item ∈ items, ∃ a, R item a) : ∃ found, List.Forall₂ R items found := by
  induction items with
  | nil => exact ⟨[], .nil⟩
  | cons item rest ih =>
    obtain ⟨⟨a, ha⟩, hrest⟩ := List.forall_mem_cons.mp h
    obtain ⟨found, hfound⟩ := ih hrest
    exact ⟨a :: found, .cons ha hfound⟩

theorem map_eq_of_forall₂ {γ δ : Type} {R : γ → α → Prop} {f : γ → δ} {g : α → δ}
    {items : List γ} {found : List α} (h : List.Forall₂ R items found)
    (hsame : ∀ item a, R item a → g a = f item) : found.map g = items.map f := by
  induction h with
  | nil => rfl
  | cons hfirst _ ih => rw [List.map_cons, List.map_cons, hsame _ _ hfirst, ih]

/-- What stands under a name on both sides of a list whose items correspond. -/
theorem find?_of_forall₂ {γ : Type} {R : γ → α → Prop} {p : γ → Bool} {q : α → Bool}
    {items : List γ} {found : List α}
    (h : List.Forall₂ R items found) (hp : ∀ a ∈ items, ∀ b, R a b → q b = p a) :
    Option.Rel R (items.find? p) (found.find? q) := by
  induction h with
  | nil => exact .none
  | @cons a b items found hab _ ih =>
    obtain ⟨ha, hrest⟩ := List.forall_mem_cons.mp hp
    rw [List.find?_cons, List.find?_cons, ha b hab]
    cases p a with
    | true => exact .some hab
    | false => exact ih hrest

/-- A list whose items all pass gives what the checks make of them. -/
theorem items_of_forall₂ {γ : Type} {check : γ → Checked α} {items : List γ} {found : List α}
    (h : List.Forall₂ (fun item a => check item = .ok a) items found) :
    ∀ start, Checked.items check start items = .ok found := by
  induction h with
  | nil => exact fun _ => rfl
  | cons hfirst _ ih =>
    intro start
    rw [Checked.items, hfirst, ih (start + 1)]
    rfl

theorem items_ok {γ : Type} (check : γ → Checked α) (encode : α → γ) {found : List α}
    (h : ∀ a ∈ found, check (encode a) = .ok a) (start : Nat) :
    Checked.items check start (found.map encode) = .ok found :=
  items_of_forall₂ (List.forall₂_map_left_iff.mpr (List.forall₂_same.mpr h)) start

/-- A list of texts is read as it was. -/
theorem listOf_text_ofTexts (texts : List String) :
    listOf text (Json.ofTexts texts) = .ok texts :=
  items_ok text Json.string (fun _ _ => rfl) 0

/-- Texts without repetitions have no text that comes up a second time. -/
theorem firstRepeated?_of_nodup : ∀ {texts seen : List String}, texts.Nodup →
    (∀ s ∈ texts, s ∉ seen) → firstRepeated? seen texts = none := by
  intro texts
  induction texts with
  | nil => exact fun _ _ => rfl
  | cons s rest ih =>
    intro seen hnodup hseen
    obtain ⟨hs, hrest⟩ := List.nodup_cons.mp hnodup
    have hnew : ¬seen.contains s = true := by simpa using hseen s List.mem_cons_self
    rw [firstRepeated?, if_neg hnew]
    refine ih hrest fun t ht hmem => ?_
    rcases List.mem_cons.mp hmem with rfl | hmem
    · exact hs ht
    · exact hseen t (List.mem_cons_of_mem _ ht) hmem

/-- A list that was accepted as one without repetitions has none. -/
theorem nodup_of_firstRepeated? : ∀ {texts seen : List String},
    firstRepeated? seen texts = none → texts.Nodup ∧ ∀ s ∈ texts, s ∉ seen := by
  intro texts
  induction texts with
  | nil => exact fun _ => ⟨List.nodup_nil, by simp⟩
  | cons s rest ih =>
    intro seen h
    rw [firstRepeated?] at h
    split at h
    next => exact absurd h (by simp)
    next hnew =>
      obtain ⟨hnodup, hseen⟩ := ih h
      refine ⟨List.nodup_cons.mpr ⟨fun hmem => ?_, hnodup⟩, List.forall_mem_cons.mpr ⟨?_, ?_⟩⟩
      · exact hseen s hmem List.mem_cons_self
      · simpa using hnew
      · exact fun t ht hmem => hseen t ht (List.mem_cons_of_mem _ hmem)

end Mooring.Record
