/-!
# Tables in insertion order

A table from names to values that remembers the order in which its names were first put.  Putting a
name that is there already changes its value and leaves it in its place.
-/

namespace Mooring

/-- Names with their values, in the order the names were first put; `put` keeps names distinct. -/
abbrev Table (α : Type) := List (String × α)

namespace Table

variable {α β : Type}

/-- The value under a name. -/
def get? (name : String) : Table α → Option α
  | [] => none
  | (key, value) :: rest => if key = name then some value else get? name rest

/-- The name is in the table. -/
def has (name : String) (table : Table α) : Bool :=
  (table.get? name).isSome

/-- The table with a value under a name: in the name's place if it has one, else at the end. -/
def put (name : String) (value : α) : Table α → Table α
  | [] => [(name, value)]
  | (key, old) :: rest =>
    if key = name then (name, value) :: rest else (key, old) :: put name value rest

/-- The table without a name. -/
def without (name : String) (table : Table α) : Table α :=
  table.filter (·.1 != name)

/-- The table of some pairs, put one after the other. -/
def ofPairs (pairs : List (String × α)) : Table α :=
  pairs.foldl (fun table (name, value) => put name value table) []

/-- The names, in order. -/
def names (table : Table α) : List String :=
  table.map (·.1)

/-- The table with the pairs of another put on top. -/
def union (table more : Table α) : Table α :=
  more.foldl (fun table (name, value) => put name value table) table

@[simp] theorem get?_put_self (name : String) (value : α) (table : Table α) :
    (put name value table).get? name = some value := by
  induction table with
  | nil => simp [put, get?]
  | cons pair rest ih =>
    obtain ⟨key, old⟩ := pair
    by_cases h : key = name <;> simp [put, get?, h, ih]

theorem get?_put_of_ne {name other : String} (h : other ≠ name) (value : α) (table : Table α) :
    (put name value table).get? other = table.get? other := by
  induction table with
  | nil => simp [put, get?, Ne.symm h]
  | cons pair rest ih =>
    obtain ⟨key, old⟩ := pair
    by_cases hk : key = name
    · subst hk
      simp [put, get?, Ne.symm h]
    · simp [put, get?, hk, ih]

@[simp] theorem get?_append (name : String) (table more : Table α) :
    get? name (table ++ more) = (get? name table).or (get? name more) := by
  induction table with
  | nil => simp [get?]
  | cons pair rest ih =>
    obtain ⟨key, value⟩ := pair
    by_cases h : key = name <;> simp [get?, h, ih]

theorem has_of_mem {table : Table α} {pair : String × α} (h : pair ∈ table) :
    table.has pair.1 = true := by
  induction table with
  | nil => exact absurd h (by simp)
  | cons first rest ih =>
    obtain ⟨key, value⟩ := first
    unfold has get?
    split
    next => rfl
    next hne =>
      rcases List.mem_cons.mp h with rfl | hrest
      · exact absurd rfl hne
      · exact ih hrest

/-- Putting other names on top leaves a name's value alone. -/
theorem get?_union_of_not_mem {name : String} {more : Table α} (h : ∀ pair ∈ more, pair.1 ≠ name) :
    ∀ table : Table α, get? name (union table more) = get? name table := by
  induction more with
  | nil => exact fun _ => rfl
  | cons pair rest ih =>
    obtain ⟨hpair, hrest⟩ := List.forall_mem_cons.mp h
    intro table
    exact (ih hrest _).trans (get?_put_of_ne (Ne.symm hpair) _ _)

theorem put_of_not_mem {name : String} {table : Table α} (h : ∀ pair ∈ table, pair.1 ≠ name)
    (value : α) : put name value table = table ++ [(name, value)] := by
  induction table with
  | nil => rfl
  | cons pair rest ih =>
    obtain ⟨hpair, hrest⟩ := List.forall_mem_cons.mp h
    rw [put, if_neg hpair, ih hrest, List.cons_append]

/-! ### What is in a table -/

theorem mem_of_get? {name : String} {value : α} {table : Table α}
    (h : table.get? name = some value) : (name, value) ∈ table := by
  induction table with
  | nil => exact absurd h (by simp [get?])
  | cons pair rest ih =>
    obtain ⟨key, found⟩ := pair
    rw [get?] at h
    split at h
    next heq =>
      rw [← heq, ← Option.some.inj h]
      exact List.mem_cons_self
    next => exact List.mem_cons_of_mem _ (ih h)

theorem get?_eq_none {name : String} {table : Table α} (h : ∀ pair ∈ table, pair.1 ≠ name) :
    table.get? name = none := by
  cases hget : table.get? name with
  | none => rfl
  | some value => exact absurd rfl (h _ (mem_of_get? hget))

theorem mem_names {pair : String × α} {table : Table α} (h : pair ∈ table) :
    pair.1 ∈ names table :=
  List.mem_map_of_mem h

theorem mem_of_mem_put {name : String} {value : α} {pair : String × α} {table : Table α}
    (h : pair ∈ put name value table) : pair = (name, value) ∨ pair ∈ table := by
  induction table with
  | nil => exact .inl (List.mem_singleton.mp h)
  | cons first rest ih =>
    rw [put] at h
    split at h
    · exact (List.mem_cons.mp h).imp_right (List.mem_cons_of_mem _)
    · rcases List.mem_cons.mp h with rfl | hrest
      · exact .inr List.mem_cons_self
      · exact (ih hrest).imp_right (List.mem_cons_of_mem _)

/-- A name that is put keeps its place, and a new one comes last. -/
theorem names_put (name : String) (value : α) (table : Table α) :
    names (put name value table) =
      if name ∈ names table then names table else names table ++ [name] := by
  induction table with
  | nil => rfl
  | cons first rest ih =>
    obtain ⟨key, old⟩ := first
    have hnames : names ((key, old) :: rest) = key :: names rest := rfl
    rw [put, hnames]
    by_cases hkey : key = name
    · rw [if_pos hkey, if_pos (by rw [hkey]; exact List.mem_cons_self), ← hkey]
      rfl
    · have hmem : name ∈ key :: names rest ↔ name ∈ names rest :=
        List.mem_cons.trans (or_iff_right fun h => hkey h.symm)
      rw [if_neg hkey]
      show key :: names (put name value rest) = _
      simp only [ih, hmem]
      split <;> rfl

theorem nodup_names_put {table : Table α} (h : (names table).Nodup) (name : String) (value : α) :
    (names (put name value table)).Nodup := by
  rw [names_put]
  split
  next => exact h
  next hnew => exact List.nodup_append.mpr ⟨h, by simp, fun a ha b hb hab =>
      hnew (by rw [← List.mem_singleton.mp hb, ← hab]; exact ha)⟩

theorem ofPairs_append (pairs more : List (String × α)) :
    ofPairs (pairs ++ more) = union (ofPairs pairs) more :=
  List.foldl_append

/-- **Pairs with distinct names are a table as they stand.** -/
theorem ofPairs_of_nodup {pairs : List (String × α)} (h : (names pairs).Nodup) :
    ofPairs pairs = pairs := by
  suffices ∀ table : Table α,
      (names (table ++ pairs)).Nodup → union table pairs = table ++ pairs from this [] h
  clear h
  induction pairs with
  | nil => intro table _; simp [union]
  | cons pair rest ih =>
    intro table h
    obtain ⟨name, value⟩ := pair
    have hname : ∀ pair ∈ table, pair.1 ≠ name := by
      intro pair hpair heq
      rw [names, List.map_append, List.nodup_append] at h
      exact h.2.2 pair.1 (List.mem_map_of_mem hpair) name (by simp) heq
    have hrest := ih (table ++ [(name, value)]) (by simpa using h)
    simpa [union, put_of_not_mem hname] using hrest

/-- The pairs that are put are all there is in a table. -/
theorem mem_of_mem_ofPairs {pair : String × α} {pairs : List (String × α)}
    (h : pair ∈ ofPairs pairs) : pair ∈ pairs := by
  suffices ∀ table : Table α, pair ∈ union table pairs → pair ∈ table ∨ pair ∈ pairs from
    (this [] h).resolve_left List.not_mem_nil
  clear h
  induction pairs with
  | nil => exact fun table h => .inl h
  | cons first rest ih =>
    intro table h
    rcases ih _ h with hput | hrest
    · rcases mem_of_mem_put hput with rfl | htable
      · exact .inr List.mem_cons_self
      · exact .inl htable
    · exact .inr (List.mem_cons_of_mem _ hrest)

theorem nodup_names_ofPairs (pairs : List (String × α)) : (names (ofPairs pairs)).Nodup := by
  suffices ∀ table : Table α, (names table).Nodup → (names (union table pairs)).Nodup from
    this [] List.nodup_nil
  induction pairs with
  | nil => exact fun table h => h
  | cons first rest ih => exact fun table h => ih _ (nodup_names_put h _ _)

/-- Where names are distinct, what is under a name is found there. -/
theorem get?_of_mem {name : String} {value : α} {table : Table α} (h : (names table).Nodup)
    (hmem : (name, value) ∈ table) : table.get? name = some value := by
  induction table with
  | nil => exact absurd hmem List.not_mem_nil
  | cons first rest ih =>
    obtain ⟨key, other⟩ := first
    obtain ⟨hkey, hrest⟩ := List.nodup_cons.mp h
    rw [get?]
    rcases List.mem_cons.mp hmem with heq | hlater
    · rw [if_pos (Prod.mk.inj heq).1.symm, (Prod.mk.inj heq).2]
    · have hname : name ∈ names rest := mem_names hlater
      rw [if_neg fun heq => hkey (by rw [heq]; exact hname), ih hrest hlater]

end Table

end Mooring
