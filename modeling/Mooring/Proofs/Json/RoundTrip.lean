import Mooring.Proofs.Json.Numbers
import Mooring.Proofs.Json.Texts

/-!
# Written values are read back

A value that is written as a file is read back as it was (`parse_render`), up to one thing: an
object can hold a name twice, and a reader keeps only one value for a name.  `merged` says which:
the last one, in the place of the first.

The proof goes along the writer.  A value is read up to its own end, whatever follows it that does
not go on with a number (`ReadsBack`), and with it the further items of an array and the
further fields of an object.  The text is always long enough to pay for the recursion, two steps a
character.
-/

namespace Mooring.Json

open Mooring.Text

/-! ## Repeated names -/

mutual

/-- The value as a reader takes it: of repeated names in an object the last value, in the place of
the first. -/
def merged : Json → Json
  | array items => array (mergedItems items)
  | object fields => object (Table.ofPairs (mergedFields fields))
  | value => value

/-- Items as a reader takes them. -/
def mergedItems : List Json → List Json
  | [] => []
  | item :: rest => merged item :: mergedItems rest

/-- Names with their values as a reader takes them, repeated names still apart. -/
def mergedFields : List (String × Json) → List (String × Json)
  | [] => []
  | (name, value) :: rest => (name, merged value) :: mergedFields rest

end

theorem mergedItems_eq_map (items : List Json) : mergedItems items = items.map merged := by
  induction items with
  | nil => rfl
  | cons item rest ih => rw [mergedItems, ih, List.map_cons]

theorem mergedFields_eq_map (fields : Table Json) :
    mergedFields fields = fields.map fun field => (field.1, merged field.2) := by
  induction fields with
  | nil => rfl
  | cons field rest ih => rw [mergedFields, ih, List.map_cons]

/-! ## White space -/

theorem skipSpace_cons {c : Char} (h : isSpace c = false) (cs : List Char) :
    skipSpace (c :: cs) = c :: cs := by
  rw [skipSpace, List.dropWhile_cons, h]
  rfl

theorem skipSpace_lineStart (level : Nat) (cs : List Char) :
    skipSpace (lineStart fileStyle level ++ cs) = skipSpace cs := by
  have hspaces : ∀ n, skipSpace (List.replicate n ' ' ++ cs) = skipSpace cs := by
    intro n
    induction n with
    | zero => rfl
    | succ n ih => exact ih
  exact hspaces (2 * level)

/-! ## The start of a value -/

/-- A plain value starts with one of these. -/
def PlainStart (c : Char) : Prop :=
  c ∈ ['n', 't', 'f', 'N', 'I', '-'] ∨ isAsciiDigit c = true

theorem readPlain?_start {cs : List Char} {found : Json × List Char}
    (h : readPlain? cs = some found) : ∃ c rest, cs = c :: rest ∧ PlainStart c := by
  unfold readPlain? at h
  dsimp only at h
  split at h
  next rest => exact ⟨_, rest, rfl, Or.inl (by decide)⟩
  next rest => exact ⟨_, rest, rfl, Or.inl (by decide)⟩
  next rest => exact ⟨_, rest, rfl, Or.inl (by decide)⟩
  next rest => exact ⟨_, rest, rfl, Or.inl (by decide)⟩
  next rest => exact ⟨_, rest, rfl, Or.inl (by decide)⟩
  next rest => exact ⟨_, rest, rfl, Or.inl (by decide)⟩
  next =>
    obtain ⟨c, rest, rfl, hc⟩ := readNumber?_head h
    exact ⟨c, rest, rfl, Or.inr hc⟩

theorem PlainStart.ne {c d : Char} (h : PlainStart c)
    (hd : d ∉ ['n', 't', 'f', 'N', 'I', '-'] ∧ isAsciiDigit d = false) : c ≠ d := by
  rintro rfl
  rcases h with h | h
  · exact hd.1 h
  · rw [hd.2] at h
    exact Bool.false_ne_true h

/-- A text that starts with a plain value is read as it. -/
theorem readValue_plain {fuel : Nat} {cs : List Char} {found : Json × List Char}
    (h : readPlain? cs = some found) : readValue (fuel + 1) cs = .ok found := by
  obtain ⟨c, rest, rfl, hc⟩ := readPlain?_start h
  unfold readValue
  dsimp only
  split
  next heq => exact absurd (List.cons.inj heq).1 (hc.ne (by decide))
  next heq => exact absurd (List.cons.inj heq).1 (hc.ne (by decide))
  next heq => exact absurd (List.cons.inj heq).1 (hc.ne (by decide))
  next => rw [h]

/-- A written value starts with a character that is no white space, no byte order mark, and closes
no array. -/
theorem write_start (level : Nat) (value : Json) :
    ∃ c cs, write fileStyle level value = c :: cs ∧ isSpace c = false ∧ c ≠ ']' ∧
      c ≠ '\ufeff' := by
  have hends : EndsNumber [] := fun c hc => absurd hc (by simp)
  -- Of a plain value it is enough to know that it can be read.
  have hplain : ∀ {cs : List Char} {found : Json × List Char}, readPlain? cs = some found →
      ∃ c rest, cs = c :: rest ∧ isSpace c = false ∧ c ≠ ']' ∧ c ≠ '\ufeff' := by
    intro cs found h
    obtain ⟨c, rest, rfl, hc⟩ := readPlain?_start h
    refine ⟨c, rest, rfl, ?_, hc.ne (by decide), hc.ne (by decide)⟩
    unfold isSpace
    simp [hc.ne (d := ' ') (by decide), hc.ne (d := '\t') (by decide),
      hc.ne (d := '\n') (by decide), hc.ne (d := '\r') (by decide)]
  cases value with
  | null => exact ⟨_, _, rfl, by decide, by decide, by decide⟩
  | bool b => cases b <;> exact ⟨_, _, rfl, by decide, by decide, by decide⟩
  | int n =>
    have h := readPlain?_intText n hends
    rw [List.append_nil] at h
    exact hplain h
  | float x =>
    have h := readPlain?_writeFloat x hends
    rw [List.append_nil] at h
    exact hplain h
  | string s => exact ⟨_, _, rfl, by decide, by decide, by decide⟩
  | array items => cases items <;> exact ⟨_, _, rfl, by decide, by decide, by decide⟩
  | object fields =>
    cases fields with
    | nil => exact ⟨_, _, rfl, by decide, by decide, by decide⟩
    | cons field rest => exact ⟨_, _, rfl, by decide, by decide, by decide⟩

/-! ## Reading what was written -/

theorem endsNumber_cons {c : Char} (cs : List Char)
    (h : isAsciiDigit c = false ∧ c ≠ '.' ∧ c ≠ 'e' ∧ c ≠ 'E') : EndsNumber (c :: cs) := by
  intro d hd
  rw [List.head?_cons, Option.mem_some_iff] at hd
  exact hd ▸ h

theorem endsNumber_lineStart (level : Nat) (cs : List Char) :
    EndsNumber (lineStart fileStyle level ++ cs) :=
  endsNumber_cons _ (by decide)

/-- The value is read back wherever it stands: up to its end, whatever follows that does not go on
with a number. -/
def ReadsBack (value : Json) : Prop :=
  ∀ (level fuel : Nat) (rest : List Char), EndsNumber rest →
    2 * (write fileStyle level value).length < fuel →
      readValue fuel (write fileStyle level value ++ rest) = .ok (merged value, rest)

theorem readsBack_plain {value : Json} (hmerged : merged value = value)
    (h : ∀ level rest, EndsNumber rest →
      readPlain? (write fileStyle level value ++ rest) = some (value, rest)) : ReadsBack value := by
  intro level fuel rest hrest hfuel
  obtain ⟨fuel, rfl⟩ := Nat.exists_eq_succ_of_ne_zero (Nat.ne_of_gt (Nat.zero_lt_of_lt hfuel))
  rw [hmerged]
  exact readValue_plain (h level rest hrest)

theorem readText_text {opening fuel : Nat} (s : String) (rest : List Char)
    (hfuel : (writeText fileStyle s).length ≤ fuel + 1) :
    readText opening fuel (s.toList.flatMap (writeChar fileStyle) ++ '"' :: rest) =
      .ok (s.toList, rest) := by
  have hlength := length_le_flatMap_writeChar s.toList
  apply readText_writeText
  simp only [writeText, List.length_append, List.length_cons, List.length_nil] at hfuel
  omega

theorem writeText_append (s : String) (rest : List Char) :
    writeText fileStyle s ++ rest =
      '"' :: (s.toList.flatMap (writeChar fileStyle) ++ '"' :: rest) := by
  simp [writeText]

theorem readsBack_string (s : String) : ReadsBack (string s) := by
  intro level fuel rest _ hfuel
  obtain ⟨fuel, rfl⟩ := Nat.exists_eq_succ_of_ne_zero (Nat.ne_of_gt (Nat.zero_lt_of_lt hfuel))
  show readValue (fuel + 1) (writeText fileStyle s ++ rest) = _
  rw [writeText_append, readValue, readText_text s rest (by simp [writeText])]
  simp [bind, Except.bind, pure, Except.pure, merged]

theorem skipSpace_write (level : Nat) (value : Json) (rest : List Char) :
    skipSpace (write fileStyle level value ++ rest) = write fileStyle level value ++ rest := by
  obtain ⟨c, cs, hcs, hspace, -⟩ := write_start level value
  rw [hcs, List.cons_append, skipSpace_cons hspace]

theorem skipSpace_writeText (s : String) (rest : List Char) :
    skipSpace (writeText fileStyle s ++ rest) = writeText fileStyle s ++ rest := by
  rw [writeText_append, skipSpace_cons (by decide)]

/-- What follows an item or a field: a comma and the next one, on a line of its own. -/
theorem comma_append (level : Nat) (cs : List Char) :
    comma fileStyle level ++ cs = ',' :: (lineStart fileStyle level ++ cs) :=
  rfl

/-! ### Arrays -/

/-- Written items are read up to the end of their array. -/
theorem readItems_write (level outer : Nat) (rest : List Char) :
    ∀ (items : List Json) (item : Json) (fuel : Nat), (∀ v ∈ item :: items, ReadsBack v) →
      2 * ((write fileStyle level item).length + (writeItems fileStyle level items).length) + 1 <
        fuel →
      readItems fuel (write fileStyle level item ++ (writeItems fileStyle level items ++
        (lineStart fileStyle outer ++ ']' :: rest))) = .ok (mergedItems (item :: items), rest) := by
  intro items
  induction items with
  | nil =>
    intro item fuel hback hfuel
    obtain ⟨fuel, rfl⟩ := Nat.exists_eq_succ_of_ne_zero (Nat.ne_of_gt (Nat.zero_lt_of_lt hfuel))
    -- The last item: behind it the array ends on a line of its own.
    have hitem := hback item List.mem_cons_self level fuel
      (lineStart fileStyle outer ++ ']' :: rest) (endsNumber_lineStart outer _) (by omega)
    rw [writeItems, List.nil_append, readItems, hitem]
    simp only [bind, Except.bind, skipSpace_lineStart, skipSpace_cons (show isSpace ']' = false from
      rfl)]
    rfl
  | cons next more ih =>
    intro item fuel hback hfuel
    obtain ⟨fuel, rfl⟩ := Nat.exists_eq_succ_of_ne_zero (Nat.ne_of_gt (Nat.zero_lt_of_lt hfuel))
    obtain ⟨hitem, hmore⟩ := List.forall_mem_cons.mp hback
    simp only [writeItems, List.length_append] at hfuel
    -- Another item follows; the number of steps left covers it, since the comma has been paid.
    have hread := hitem level fuel (',' :: (lineStart fileStyle level ++
      (write fileStyle level next ++ (writeItems fileStyle level more ++
        (lineStart fileStyle outer ++ ']' :: rest))))) (endsNumber_cons _ (by decide)) (by omega)
    have hcomma : 0 < (comma fileStyle level).length := Nat.succ_pos _
    have hrest := ih next fuel hmore (by omega)
    rw [writeItems, List.append_assoc, List.append_assoc, comma_append, readItems, hread]
    simp only [bind, Except.bind, skipSpace_cons (show isSpace ',' = false from rfl),
      skipSpace_lineStart, skipSpace_write, hrest]
    rfl

theorem readValue_array {fuel : Nat} {c : Char} {cs more rest : List Char} {items : List Json}
    (hskip : skipSpace cs = c :: more) (hc : c ≠ ']')
    (hitems : readItems fuel (c :: more) = .ok (items, rest)) :
    readValue (fuel + 1) ('[' :: cs) = .ok (array items, rest) := by
  rw [readValue, hskip]
  split
  next heq => exact absurd (List.cons.inj heq).1 hc
  next => rw [hitems]; rfl

theorem readsBack_array {items : List Json} (h : ∀ v ∈ items, ReadsBack v) :
    ReadsBack (array items) := by
  intro level fuel rest _ hfuel
  obtain ⟨fuel, rfl⟩ := Nat.exists_eq_succ_of_ne_zero (Nat.ne_of_gt (Nat.zero_lt_of_lt hfuel))
  cases items with
  | nil => rfl
  | cons item items =>
    simp only [write, List.length_append, List.length_cons, List.length_nil] at hfuel
    have hread := readItems_write (level + 1) level rest items item fuel h (by omega)
    have hskip := (skipSpace_lineStart (level + 1) _).trans (skipSpace_write (level + 1) item
      (writeItems fileStyle (level + 1) items ++ (lineStart fileStyle level ++ ']' :: rest)))
    obtain ⟨c, cs, hcs, -, hclose, -⟩ := write_start (level + 1) item
    rw [hcs] at hread hskip
    have hvalue := readValue_array hskip hclose hread
    rw [← hcs] at hvalue
    simpa [write, merged] using hvalue

/-! ### Objects -/

/-- Written fields are read up to the end of their object. -/
theorem readFields_write (level outer : Nat) (rest : List Char) :
    ∀ (fields : List (String × Json)) (name : String) (value : Json) (fuel : Nat),
      (∀ field ∈ (name, value) :: fields, ReadsBack field.2) →
      2 * ((writeText fileStyle name).length + (write fileStyle level value).length +
        (writeFields fileStyle level fields).length) + 1 < fuel →
      readFields fuel (writeText fileStyle name ++ (':' :: ' ' :: (write fileStyle level value ++
        (writeFields fileStyle level fields ++ (lineStart fileStyle outer ++ '\x7d' :: rest))))) =
        .ok (mergedFields ((name, value) :: fields), rest) := by
  intro fields
  induction fields with
  | nil =>
    intro name value fuel hback hfuel
    obtain ⟨fuel, rfl⟩ := Nat.exists_eq_succ_of_ne_zero (Nat.ne_of_gt (Nat.zero_lt_of_lt hfuel))
    obtain ⟨hvalue, -⟩ := List.forall_mem_cons.mp hback
    have hread := hvalue level fuel (lineStart fileStyle outer ++ '\x7d' :: rest)
      (endsNumber_lineStart outer _) (by dsimp only; omega)
    have hskip : ∀ cs, skipSpace (' ' :: cs) = skipSpace cs := fun cs => rfl
    rw [writeText_append, readFields, readText_text name _ (by simp [writeText])]
    simp only [bind, Except.bind, skipSpace_cons (show isSpace ':' = false from rfl), writeFields,
      List.nil_append, hskip, skipSpace_write, hread, skipSpace_lineStart,
      skipSpace_cons (show isSpace '\x7d' = false from rfl), String.ofList_toList]
    rfl
  | cons next more ih =>
    intro name value fuel hback hfuel
    obtain ⟨fuel, rfl⟩ := Nat.exists_eq_succ_of_ne_zero (Nat.ne_of_gt (Nat.zero_lt_of_lt hfuel))
    obtain ⟨hvalue, hmore⟩ := List.forall_mem_cons.mp hback
    obtain ⟨nextName, nextValue⟩ := next
    simp only [writeFields, List.length_append, List.length_cons, List.length_nil] at hfuel
    have hread := hvalue level fuel (',' :: (lineStart fileStyle level ++
      (writeText fileStyle nextName ++ (':' :: ' ' :: (write fileStyle level nextValue ++
        (writeFields fileStyle level more ++ (lineStart fileStyle outer ++ '\x7d' :: rest)))))))
      (endsNumber_cons _ (by decide)) (by dsimp only; omega)
    have hrest := ih nextName nextValue fuel hmore (by omega)
    have hskip : ∀ cs, skipSpace (' ' :: cs) = skipSpace cs := fun cs => rfl
    -- What follows the value: a comma, and the next field on a line of its own.
    have htext : writeFields fileStyle level ((nextName, nextValue) :: more) ++
        (lineStart fileStyle outer ++ '\x7d' :: rest) = ',' :: (lineStart fileStyle level ++
          (writeText fileStyle nextName ++ (':' :: ' ' :: (write fileStyle level nextValue ++
            (writeFields fileStyle level more ++
              (lineStart fileStyle outer ++ '\x7d' :: rest)))))) := by
      simp [writeFields, comma, fileStyle]
    rw [htext, writeText_append, readFields, readText_text name _ (by simp [writeText])]
    simp only [bind, Except.bind, skipSpace_cons (show isSpace ':' = false from rfl), hskip,
      skipSpace_write, hread, skipSpace_cons (show isSpace ',' = false from rfl),
      skipSpace_lineStart, skipSpace_writeText, hrest, String.ofList_toList]
    rfl

theorem readValue_object {fuel : Nat} {c : Char} {cs more rest : List Char}
    {fields : List (String × Json)} (hskip : skipSpace cs = c :: more) (hc : c ≠ '\x7d')
    (hfields : readFields fuel (c :: more) = .ok (fields, rest)) :
    readValue (fuel + 1) ('\x7b' :: cs) = .ok (object (Table.ofPairs fields), rest) := by
  rw [readValue, hskip]
  split
  next heq => exact absurd (List.cons.inj heq).1 hc
  next => rw [hfields]; rfl

theorem readsBack_object {fields : List (String × Json)} (h : ∀ field ∈ fields, ReadsBack field.2) :
    ReadsBack (object fields) := by
  intro level fuel rest _ hfuel
  obtain ⟨fuel, rfl⟩ := Nat.exists_eq_succ_of_ne_zero (Nat.ne_of_gt (Nat.zero_lt_of_lt hfuel))
  cases fields with
  | nil => rfl
  | cons field fields =>
    obtain ⟨name, value⟩ := field
    simp only [write, List.length_append, List.length_cons, List.length_nil] at hfuel
    have hread := readFields_write (level + 1) level rest fields name value fuel h (by omega)
    have hskip := (skipSpace_lineStart (level + 1) _).trans (skipSpace_writeText name
      (':' :: ' ' :: (write fileStyle (level + 1) value ++
        (writeFields fileStyle (level + 1) fields ++ (lineStart fileStyle level ++
          '\x7d' :: rest)))))
    rw [writeText_append] at hread hskip
    have hvalue := readValue_object hskip (by decide) hread
    rw [← writeText_append] at hvalue
    simpa [write, merged] using hvalue

/-! ### All values -/

mutual

/-- **Every written value is read back.** -/
theorem readsBack : ∀ value : Json, ReadsBack value
  | null => readsBack_plain rfl fun _ _ _ => rfl
  | bool true => readsBack_plain rfl fun _ _ _ => rfl
  | bool false => readsBack_plain rfl fun _ _ _ => rfl
  | int n => readsBack_plain rfl fun _ _ hrest => readPlain?_intText n hrest
  | float x => readsBack_plain rfl fun _ _ hrest => readPlain?_writeFloat x hrest
  | string s => readsBack_string s
  | array items => readsBack_array (readsBackItems items)
  | object fields => readsBack_object (readsBackFields fields)

theorem readsBackItems : ∀ items : List Json, ∀ v ∈ items, ReadsBack v
  | [] => by simp
  | item :: rest => List.forall_mem_cons.mpr ⟨readsBack item, readsBackItems rest⟩

theorem readsBackFields : ∀ fields : List (String × Json), ∀ field ∈ fields, ReadsBack field.2
  | [] => by simp
  | (name, value) :: rest => List.forall_mem_cons.mpr ⟨readsBack value, readsBackFields rest⟩

end

/-- **A value that is written as a file is read back from it.** -/
theorem parse_render (value : Json) :
    parse (value.render fileStyle ++ "\n") = .ok (merged value) := by
  obtain ⟨c, cs, hcs, -, -, hmark⟩ := write_start 0 value
  have htext : (value.render fileStyle ++ "\n").toList = write fileStyle 0 value ++ ['\n'] := by
    rw [String.toList_append, render, String.toList_ofList]
    rfl
  have hread := readsBack value 0 (2 * (write fileStyle 0 value ++ ['\n']).length + 2) ['\n']
    (endsNumber_cons _ (by decide)) (by rw [List.length_append]; omega)
  have hhead : ((write fileStyle 0 value ++ ['\n']).head? == some '\ufeff') = false := by
    rw [hcs, beq_eq_false_iff_ne]
    exact fun h => hmark (Option.some.inj h)
  unfold parse readAll
  rw [htext, hhead]
  simp only [Bool.false_eq_true, if_false, bind, Except.bind, skipSpace_write, hread]
  rfl

end Mooring.Json
