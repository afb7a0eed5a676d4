import Mathlib.Data.List.Infix
import Mooring.CommandLine.Disk

/-!
# What writing a file does to a disk

A file is written where it was looked for, and no other file changes (`write_eq_ok`).  That is less
plain than it sounds: the directories that lead to the file are made in between, and then the path is
followed once more.  What was a way through nothing may be a way now, and where it turns back by
`..` it may lead to a file that was there all along.  So the path has to be `Straight`.

Directories that are made lead to the new file and to nothing else (`Grown`), so whatever was a
directory or a file before is one afterwards.
-/

namespace Mooring.CommandLine

open Mooring.Store

theorem Path.start_parent (path base : Path) : path.parent.start base = path.start base :=
  rfl

namespace Disk

variable {disk disk' : Disk} {base path : Path} {place : List String} {bytes : ByteArray}

/-! ## Directories -/

theorem isDirectory_iff {names : List String} : disk.isDirectory names = true ↔
    names = [] ∨ (∃ directory ∈ disk.directories, names <+: directory) ∨
      ∃ file ∈ disk.files, names <+: file.1 ∧ names ≠ file.1 := by
  simp only [isDirectory, Bool.or_eq_true, List.isEmpty_iff, List.any_eq_true,
    List.isPrefixOf_iff_prefix, Bool.and_eq_true, bne_iff_ne, or_assoc]

/-- What leads to a directory is a directory. -/
theorem isDirectory_of_leads {names more : List String} (hunder : names <+: more)
    (h : disk.isDirectory more = true) : disk.isDirectory names = true := by
  rcases isDirectory_iff.mp h with rfl | ⟨directory, hmem, hleads⟩ | ⟨file, hmem, hleads, hne⟩
  · exact isDirectory_iff.mpr (.inl (List.prefix_nil.mp hunder))
  · exact isDirectory_iff.mpr (.inr (.inl ⟨directory, hmem, hunder.trans hleads⟩))
  · refine isDirectory_iff.mpr (.inr (.inr ⟨file, hmem, hunder.trans hleads, ?_⟩))
    rintro rfl
    exact hne (hleads.eq_of_length_le hunder.length_le)

/-- What leads to a file is a directory. -/
theorem isDirectory_of_file {names : List String} {name : String}
    (h : disk.file? (names ++ [name]) = some bytes) : disk.isDirectory names = true := by
  obtain ⟨_, hmem, heq⟩ : ∃ file ∈ disk.files, names ++ [name] = file.1 := by
    obtain ⟨before, after, hfiles, -⟩ := List.lookup_eq_some_iff.mp h
    exact ⟨(names ++ [name], bytes), by simp [hfiles], rfl⟩
  exact isDirectory_iff.mpr (.inr (.inr ⟨_, hmem, heq ▸ List.prefix_append _ _, by simp [← heq]⟩))

theorem entryAt_eq_directory_iff :
    disk.entryAt place = .directory ↔ disk.isDirectory place = true := by
  unfold entryAt
  split
  next h => simp [h]
  next h => split <;> simp [h]

/-! ## Ways -/

/-- One step from a directory. -/
def step (here : List String) (name : String) : List String :=
  if name == ".." then here.dropLast else here ++ [name]

theorem reach_cons (here : List String) (name : String) (rest : List String) :
    disk.reach here (name :: rest) =
      if disk.isDirectory here then disk.reach (step here name) rest
      else if (disk.file? here).isSome then .blocked else .missing :=
  rfl

theorem reach_append (here names more : List String) :
    disk.reach here (names ++ more) =
      match disk.reach here names with
      | .place place => disk.reach place more
      | astray => astray := by
  induction names generalizing here with
  | nil => rfl
  | cons name rest ih =>
    rw [List.cons_append, reach_cons, reach_cons]
    split
    · exact ih _
    · split <;> rfl

/-- The last step of a way starts in a directory. -/
theorem reach_concat {here names : List String} {name : String}
    (h : disk.reach here (names ++ [name]) = .place place) :
    ∃ parent, disk.reach here names = .place parent ∧ disk.isDirectory parent = true ∧
      place = step parent name := by
  rw [reach_append] at h
  cases hreach : disk.reach here names with
  | place parent =>
    rw [hreach] at h
    dsimp only at h
    rw [reach_cons] at h
    split at h
    next hdirectory => exact ⟨parent, rfl, hdirectory, (Reach.place.inj h).symm⟩
    next => split at h <;> exact absurd h (by simp)
  | missing => rw [hreach] at h; exact absurd h (by simp)
  | blocked => rw [hreach] at h; exact absurd h (by simp)

/-- Where there are more directories, a way leads to the same place. -/
theorem reach_mono (h : ∀ names, disk.isDirectory names = true → disk'.isDirectory names = true)
    {here names : List String} (hreach : disk.reach here names = .place place) :
    disk'.reach here names = .place place := by
  induction names generalizing here with
  | nil => exact hreach
  | cons name rest ih =>
    rw [reach_cons] at hreach ⊢
    split at hreach
    next hdirectory => rw [if_pos (h _ hdirectory)]; exact ih hreach
    next => split at hreach <;> exact absurd hreach (by simp)

/-- A way that never turns back leads straight on. -/
theorem reach_straight {here names : List String} (h : ".." ∉ names)
    (hreach : disk.reach here names = .place place) : place = here ++ names := by
  induction names generalizing here with
  | nil => rw [List.append_nil]; exact (Reach.place.inj hreach).symm
  | cons name rest ih =>
    obtain ⟨hname, hrest⟩ := not_or.mp (mt List.mem_cons.mpr h)
    rw [reach_cons] at hreach
    split at hreach
    next =>
      rw [ih hrest hreach, step, if_neg (by simpa using Ne.symm hname), List.append_assoc]
      rfl
    next => split at hreach <;> exact absurd hreach (by simp)

/-- Where everything on the way is a directory, one gets through. -/
theorem reach_of_isDirectory {here names : List String} (h : ".." ∉ names)
    (hdirectory : disk.isDirectory (here ++ names.dropLast) = true) :
    disk.reach here names = .place (here ++ names) := by
  induction names generalizing here with
  | nil => rw [List.append_nil]; rfl
  | cons name rest ih =>
    obtain ⟨hname, hrest⟩ := not_or.mp (mt List.mem_cons.mpr h)
    have hhere : disk.isDirectory here = true :=
      isDirectory_of_leads (List.prefix_append _ _) hdirectory
    have hnext : step here name = here ++ [name] := if_neg (by simpa using Ne.symm hname)
    have hsame : here ++ name :: rest = here ++ [name] ++ rest := by simp
    rw [reach_cons, if_pos hhere, hnext, hsame]
    cases rest with
    | nil => rw [List.append_nil]; rfl
    | cons second more =>
      refine ih hrest ?_
      rw [List.append_assoc]
      exact hdirectory

/-! ## Directories that are made -/

/-- Nothing was done to a disk but to make directories, all of them on the way to `place`. -/
structure Grown (disk disk' : Disk) (place : List String) : Prop where
  files : disk'.files = disk.files
  directories : ∃ made, disk'.directories = disk.directories ++ made ∧
    ∀ names ∈ made, names <+: place

theorem Grown.refl (disk : Disk) (place : List String) : Grown disk disk place :=
  ⟨rfl, [], (List.append_nil _).symm, fun _ h => absurd h List.not_mem_nil⟩

theorem Grown.trans {next : Disk} {there : List String} (h : Grown disk disk' place)
    (hnext : Grown disk' next there) (hunder : place <+: there) : Grown disk next there := by
  obtain ⟨made, hmade, hleads⟩ := h.directories
  obtain ⟨more, hmore, hleads'⟩ := hnext.directories
  refine ⟨hnext.files.trans h.files, made ++ more, by rw [hmore, hmade, List.append_assoc], ?_⟩
  exact List.forall_mem_append.mpr ⟨fun names hnames => (hleads names hnames).trans hunder, hleads'⟩

/-- What was a directory still is. -/
theorem Grown.isDirectory (h : Grown disk disk' place) {names : List String}
    (hdirectory : disk.isDirectory names = true) : disk'.isDirectory names = true := by
  obtain ⟨made, hmade, -⟩ := h.directories
  rcases isDirectory_iff.mp hdirectory with hnil | ⟨directory, hmem, hleads⟩ | hfile
  · exact isDirectory_iff.mpr (.inl hnil)
  · exact isDirectory_iff.mpr (.inr (.inl ⟨directory, hmade ▸ List.mem_append_left _ hmem, hleads⟩))
  · exact isDirectory_iff.mpr (.inr (.inr (h.files ▸ hfile)))

/-- What is a directory now was one before, or leads to the place. -/
theorem Grown.isDirectory_cases (h : Grown disk disk' place) {names : List String}
    (hdirectory : disk'.isDirectory names = true) :
    disk.isDirectory names = true ∨ names <+: place := by
  obtain ⟨made, hmade, hplace⟩ := h.directories
  rcases isDirectory_iff.mp hdirectory with hnil | ⟨directory, hmem, hleads⟩ | hfile
  · exact .inl (isDirectory_iff.mpr (.inl hnil))
  · rcases List.mem_append.mp (hmade ▸ hmem) with hold | hnew
    · exact .inl (isDirectory_iff.mpr (.inr (.inl ⟨directory, hold, hleads⟩)))
    · exact .inr (hleads.trans (hplace directory hnew))
  · exact .inl (isDirectory_iff.mpr (.inr (.inr (h.files ▸ hfile))))

/-- A directory that is made is there, and stands where its path leads. -/
theorem makeOne_eq_some (h : disk.makeOne base path = .ok (some disk')) :
    ∃ place, disk.reach (path.start base) path.names = .place place ∧
      Grown disk disk' place ∧ disk'.isDirectory place = true := by
  unfold makeOne at h
  split at h
  next => exact absurd h (by simp)
  next => exact absurd h (by simp)
  next place hreach =>
    refine ⟨place, hreach, ?_⟩
    split at h
    next hentry =>
      obtain rfl := Option.some.inj (Except.ok.inj h)
      exact ⟨.refl _ _, entryAt_eq_directory_iff.mp hentry⟩
    next => exact absurd h (by simp)
    next =>
      obtain rfl := Option.some.inj (Except.ok.inj h)
      refine ⟨⟨rfl, [place], rfl, by simp⟩, ?_⟩
      exact isDirectory_iff.mpr (.inr (.inl ⟨place, by simp, List.prefix_refl _⟩))

theorem makeOne_eq_none (h : disk.makeOne base path = .ok none) :
    disk.reach (path.start base) path.names = .missing := by
  unfold makeOne at h
  split at h
  next hreach => exact hreach
  next => exact absurd h (by simp)
  next => split at h <;> exact absurd h (by simp)

/-- The directory of a path that is there already is not made again. -/
theorem makeAll_of_isDirectory {count : Nat}
    (hreach : disk.reach (path.start base) (path.names.take count) = .place place)
    (hdirectory : disk.isDirectory place = true) : disk.makeAll base path count = .ok disk := by
  cases count with
  | zero => rfl
  | succ count =>
    have hone : disk.makeOne base { path with names := path.names.take (count + 1) } =
        .ok (some disk) := by
      unfold makeOne
      rw [show Path.start { path with names := path.names.take (count + 1) } base =
        path.start base from rfl, hreach]
      dsimp only
      rw [entryAt_eq_directory_iff.mpr hdirectory]
    unfold makeAll
    dsimp only
    rw [hone]

/-- Where a file is in the way of a path, its directory cannot be made. -/
theorem makeAll_of_blocked {name : String} (hstart : disk.isDirectory (path.start base) = true)
    (h : disk.reach (path.start base) (path.names ++ [name]) = .blocked) :
    ∃ obstacle, disk.makeAll base path path.names.length = .error obstacle := by
  have hmake : ∀ {count : Nat}, path.names.length = count + 1 → ∀ {obstacle : Obstacle},
      disk.makeOne base path = .error obstacle →
        disk.makeAll base path path.names.length = .error obstacle := by
    intro count hcount obstacle hone
    have hwhole : { path with names := path.names.take (count + 1) } = path := by
      rw [← hcount, List.take_length]
    rw [hcount]
    unfold makeAll
    dsimp only
    rw [hwhole, hone]
  rw [reach_append] at h
  cases hlength : path.names.length with
  | zero =>
    -- Without names on the way the path starts in a directory.
    rw [List.length_eq_zero_iff.mp hlength] at h
    change disk.reach (path.start base) [name] = .blocked at h
    rw [reach_cons, if_pos hstart] at h
    exact absurd h (by simp [reach])
  | succ count =>
    rw [← hlength]
    cases hreach : disk.reach (path.start base) path.names with
    | missing => rw [hreach] at h; exact absurd h (by simp)
    | blocked => exact ⟨_, hmake hlength (by unfold makeOne; rw [hreach])⟩
    | place place =>
      rw [hreach] at h
      dsimp only at h
      rw [reach_cons] at h
      split at h
      next => exact absurd h (by simp [reach])
      next hdirectory =>
        split at h
        next hfile =>
          obtain ⟨bytes, hbytes⟩ := Option.isSome_iff_exists.mp hfile
          have hentry : disk.entryAt place = .file bytes := by
            unfold entryAt
            rw [if_neg hdirectory, hbytes]
          exact ⟨_, hmake hlength (by unfold makeOne; rw [hreach]; dsimp only; rw [hentry])⟩
        next => exact absurd h (by simp)

/-- **The directories of a path that never turns back** are made on the way, and then they are
there.  The induction follows the path from its end to the first directory that is there. -/
theorem grown_makeAll (hstraight : ".." ∉ path.names)
    (hstart : disk.isDirectory (path.start base) = true) :
    ∀ {count : Nat} {disk' : Disk}, disk.makeAll base path count = .ok disk' →
      Grown disk disk' (path.start base ++ path.names.take count) ∧
        disk'.isDirectory (path.start base ++ path.names.take count) = true := by
  intro count
  induction count with
  | zero =>
    intro disk' h
    obtain rfl := Except.ok.inj h
    rw [List.take_zero, List.append_nil]
    exact ⟨.refl _ _, hstart⟩
  | succ count ih =>
    intro disk' h
    have hnames : ".." ∉ path.names.take (count + 1) := fun hmem =>
      hstraight (List.mem_of_mem_take hmem)
    -- A directory that is made stands straight on.
    have hone : ∀ {before after : Disk}, before.makeOne base
        { path with names := path.names.take (count + 1) } = .ok (some after) →
          Grown before after (path.start base ++ path.names.take (count + 1)) ∧
            after.isDirectory (path.start base ++ path.names.take (count + 1)) = true := by
      intro before after hmade
      obtain ⟨place, hreach, hgrown, hthere⟩ := makeOne_eq_some hmade
      obtain rfl := reach_straight hnames hreach
      exact ⟨hgrown, hthere⟩
    unfold makeAll at h
    dsimp only at h
    split at h
    next => exact absurd h (by simp)
    next disk'' hmade =>
      obtain rfl := Except.ok.inj h
      exact hone hmade
    next =>
      split at h
      next => exact absurd h (by simp)
      next between hbetween =>
        obtain ⟨hgrown, hthere⟩ := ih hbetween
        -- Now the parent is there, so the directory itself can be made.
        have hwithout := List.dropLast_prefix (path.names.take (count + 1))
        have hwhole := List.take_prefix (count + 1) path.names
        have hfewer := List.take_prefix count path.names
        have hparent : (path.names.take (count + 1)).dropLast <+: path.names.take count := by
          refine List.prefix_of_prefix_length_le (hwithout.trans hwhole) hfewer ?_
          rw [List.length_dropLast, List.length_take, List.length_take]
          omega
        have hreach := reach_of_isDirectory hnames
          (isDirectory_of_leads ((List.prefix_append_right_inj (path.start base)).mpr hparent)
            hthere)
        cases hmade : between.makeOne base { path with names := path.names.take (count + 1) } with
        | error obstacle => rw [hmade] at h; exact absurd h (by simp [Except.map])
        | ok made =>
          rw [hmade] at h
          cases made with
          | none =>
            exact absurd (hreach.symm.trans (makeOne_eq_none hmade)) (by simp)
          | some after =>
            obtain rfl : after = disk' := Except.ok.inj h
            obtain ⟨hnext, hhere⟩ := hone hmade
            exact ⟨hgrown.trans hnext ((List.prefix_append_right_inj _).mpr
              (List.take_prefix_take_left (Nat.le_succ count))), hhere⟩

/-! ## A file that is put -/

theorem lookup_cons_if {α β : Type} [BEq α] [LawfulBEq α] [DecidableEq α] (key name : α) (value : β)
    (rest : List (α × β)) :
    ((name, value) :: rest).lookup key = if key = name then some value else rest.lookup key := by
  rw [List.lookup_cons]
  by_cases h : key = name
  · rw [beq_iff_eq.mpr h, if_pos h]
  · rw [beq_eq_false_iff_ne.mpr h, if_neg h]

theorem lookup_putFile (place names : List String) (bytes : ByteArray)
    (files : List (List String × ByteArray)) :
    (putFile place bytes files).lookup names =
      if names = place then some bytes else files.lookup names := by
  induction files with
  | nil => rw [putFile, lookup_cons_if]
  | cons first rest ih =>
    obtain ⟨file, old⟩ := first
    rw [putFile]
    by_cases hfile : file = place
    · rw [if_pos hfile, lookup_cons_if, lookup_cons_if, hfile]
      split <;> rfl
    · rw [if_neg hfile, lookup_cons_if, lookup_cons_if, ih]
      by_cases h : names = file
      · rw [if_pos h, if_pos h, if_neg fun heq => hfile (h.symm.trans heq)]
      · rw [if_neg h, if_neg h]

theorem names_of_mem_putFile {files : List (List String × ByteArray)}
    {file : List String × ByteArray} (h : file ∈ putFile place bytes files) :
    file.1 = place ∨ file ∈ files := by
  induction files with
  | nil => exact .inl (congrArg Prod.fst (List.mem_singleton.mp h))
  | cons first rest ih =>
    obtain ⟨other, old⟩ := first
    rw [putFile] at h
    split at h
    · rcases List.mem_cons.mp h with rfl | hrest
      · exact .inl rfl
      · exact .inr (List.mem_cons_of_mem _ hrest)
    · rcases List.mem_cons.mp h with rfl | hrest
      · exact .inr List.mem_cons_self
      · exact (ih hrest).imp_right (List.mem_cons_of_mem _)

theorem exists_mem_putFile {files : List (List String × ByteArray)}
    {file : List String × ByteArray} (h : file ∈ files) :
    ∃ other ∈ putFile place bytes files, other.1 = file.1 := by
  induction files with
  | nil => exact absurd h List.not_mem_nil
  | cons first rest ih =>
    obtain ⟨names, old⟩ := first
    rw [putFile]
    split
    next hnames =>
      rcases List.mem_cons.mp h with rfl | hrest
      · exact ⟨_, List.mem_cons_self, hnames.symm⟩
      · exact ⟨file, List.mem_cons_of_mem _ hrest, rfl⟩
    next =>
      rcases List.mem_cons.mp h with rfl | hrest
      · exact ⟨_, List.mem_cons_self, rfl⟩
      · obtain ⟨other, hother, hsame⟩ := ih hrest
        exact ⟨other, List.mem_cons_of_mem _ hother, hsame⟩

/-- A file that is put leaves all directories, and is none. -/
theorem isDirectory_put :
    (∀ names, disk.isDirectory names = true →
      isDirectory { disk with files := putFile place bytes disk.files } names = true) ∧
    (isDirectory { disk with files := putFile place bytes disk.files } place = true →
      disk.isDirectory place = true) := by
  constructor
  · intro names h
    rcases isDirectory_iff.mp h with hnil | hmade | ⟨file, hmem, hleads, hne⟩
    · exact isDirectory_iff.mpr (.inl hnil)
    · exact isDirectory_iff.mpr (.inr (.inl hmade))
    · obtain ⟨other, hother, hsame⟩ := @exists_mem_putFile place bytes _ _ hmem
      exact isDirectory_iff.mpr (.inr (.inr ⟨other, hother, hsame ▸ hleads, hsame ▸ hne⟩))
  · intro h
    rcases isDirectory_iff.mp h with hnil | hmade | ⟨file, hmem, hleads, hne⟩
    · exact isDirectory_iff.mpr (.inl hnil)
    · exact isDirectory_iff.mpr (.inr (.inl hmade))
    · rcases names_of_mem_putFile hmem with hfile | hold
      · exact absurd hfile.symm hne
      · exact isDirectory_iff.mpr (.inr (.inr ⟨file, hold, hleads, hne⟩))

/-! ## Writing -/

/-- The path never turns back, or everything on its way is there. -/
def Straight (disk : Disk) (base path : Path) : Prop :=
  ".." ∉ path.names ∨ ∃ place, disk.reach (path.start base) path.names = .place place

/-- A file was written where its path had led before, and no other file was changed. -/
structure Written (disk disk' : Disk) (base path : Path) (bytes : ByteArray)
    (place : List String) : Prop where
  old : disk.entry base path = disk.entryAt place
  new : disk'.entry base path = .file bytes
  files : ∀ names, disk'.file? names = if names = place then some bytes else disk.file? names

theorem entry_of_reach (h : disk.reach (path.start base) path.names = .place place) :
    disk.entry base path = disk.entryAt place := by
  unfold entry
  rw [h]

/-- What is written to a place that has become reachable. -/
theorem written_put {grown : Disk} (hfiles : grown.files = disk.files)
    (hreach : grown.reach (path.start base) path.names = .place place)
    (hplace : grown.isDirectory place = false) (hold : disk.entry base path = disk.entryAt place) :
    Written disk { grown with files := putFile place bytes grown.files } base path bytes place := by
  have hput := @isDirectory_put grown place bytes
  have hfiles' : ∀ names, file? { grown with files := putFile place bytes grown.files } names =
      if names = place then some bytes else disk.file? names := by
    intro names
    unfold file?
    rw [lookup_putFile, hfiles]
  refine ⟨hold, ?_, hfiles'⟩
  have hnew : ¬isDirectory { grown with files := putFile place bytes grown.files } place = true :=
    fun h => absurd (hput.2 h) (by simp [hplace])
  rw [entry_of_reach (reach_mono hput.1 hreach)]
  unfold entryAt
  rw [if_neg hnew, hfiles', if_pos rfl]

/-- Where a path leads that has a last name. -/
theorem exists_concat_of_entry (hbase : disk.isDirectory base.names = true)
    (hentry : disk.entry base path ≠ .directory) :
    ∃ parents name, path.names = parents ++ [name] := by
  rcases List.eq_nil_or_concat path.names with hnil | ⟨parents, name, hnames⟩
  · refine absurd ?_ hentry
    have hreach : disk.reach (path.start base) path.names = .place (path.start base) := by
      rw [hnil]
      rfl
    rw [entry_of_reach hreach, entryAt_eq_directory_iff]
    unfold Path.start
    split
    · rfl
    · exact hbase
  · exact ⟨parents, name, by rw [hnames, List.concat_eq_append]⟩

/-- **A file is written where it was looked for**, and no other file changes, if the path is
straight. -/
theorem write_eq_ok (hbase : disk.isDirectory base.names = true)
    (hstraight : disk.Straight base path) (hentry : disk.entry base path ≠ .directory)
    (h : disk.write base path bytes = .ok disk') :
    ∃ place, Written disk disk' base path bytes place := by
  obtain ⟨parents, name, hnames⟩ := exists_concat_of_entry hbase hentry
  have hparent : path.parent.names = parents := by
    show path.names.dropLast = parents
    rw [hnames, List.dropLast_concat]
  have hstart : disk.isDirectory (path.start base) = true := by
    unfold Path.start
    split
    · rfl
    · exact hbase
  unfold write at h
  cases hreach : disk.reach (path.start base) path.names with
  | place place =>
    -- The directory is there already, so nothing is made.
    obtain ⟨parent, hthere, hdirectory, -⟩ := reach_concat (hnames ▸ hreach)
    have hmake : disk.makeAll base path.parent path.parent.names.length = .ok disk :=
      makeAll_of_isDirectory (by rw [List.take_length, hparent]; exact hthere) hdirectory
    rw [hmake] at h
    dsimp only at h
    rw [hreach] at h
    have hold := entry_of_reach hreach
    have hplace : disk.isDirectory place = false := by
      rw [← Bool.not_eq_true, ← entryAt_eq_directory_iff, ← hold]
      exact hentry
    rw [← Except.ok.inj h]
    exact ⟨place, written_put rfl hreach hplace hold⟩
  | blocked =>
    rw [hnames, ← hparent] at hreach
    obtain ⟨obstacle, hmake⟩ := @makeAll_of_blocked disk base path.parent name hstart hreach
    rw [hmake] at h
    exact absurd h (by simp)
  | missing =>
    have hnever : ".." ∉ path.names := by
      rcases hstraight with hnever | ⟨place, hplace⟩
      · exact hnever
      · exact absurd (hreach.symm.trans hplace) (by simp)
    -- There is nothing at the end of the path, for its directory is not there.
    have hmissing : ¬disk.isDirectory (path.start base ++ parents) = true := by
      intro hdirectory
      have hplace : disk.reach (path.start base) path.names =
          .place (path.start base ++ path.names) :=
        reach_of_isDirectory hnever (by rw [hnames, List.dropLast_concat]; exact hdirectory)
      exact absurd (hreach.symm.trans hplace) (by simp)
    have hlast : path.start base ++ path.names = path.start base ++ parents ++ [name] := by
      rw [hnames, List.append_assoc]
    have hnothing : disk.entryAt (path.start base ++ path.names) = .nothing := by
      unfold entryAt
      rw [hlast, if_neg fun hplace =>
        hmissing (isDirectory_of_leads (List.prefix_append _ _) hplace)]
      cases hfile : disk.file? (path.start base ++ parents ++ [name]) with
      | none => rfl
      | some bytes => exact absurd (isDirectory_of_file hfile) hmissing
    have hold : disk.entry base path = disk.entryAt (path.start base ++ path.names) := by
      rw [hnothing]
      unfold entry
      rw [hreach]
    split at h
    next => exact absurd h (by simp)
    next grown hmake =>
      have hup : ".." ∉ path.parent.names := fun hmem => hnever (List.dropLast_subset _ hmem)
      obtain ⟨hgrown, hthere⟩ := grown_makeAll hup hstart hmake
      rw [List.take_length, hparent, Path.start_parent] at hgrown hthere
      have hreach' : grown.reach (path.start base) path.names =
          .place (path.start base ++ path.names) :=
        reach_of_isDirectory hnever (by rw [hnames, List.dropLast_concat]; exact hthere)
      have hplace : grown.isDirectory (path.start base ++ path.names) = false := by
        rw [← Bool.not_eq_true, hlast]
        intro hdirectory
        rcases hgrown.isDirectory_cases hdirectory with hbefore | hunder
        · exact hmissing (isDirectory_of_leads (List.prefix_append _ _) hbefore)
        · exact absurd hunder.length_le (by simp)
      rw [hreach'] at h
      rw [← Except.ok.inj h]
      exact ⟨_, written_put hgrown.files hreach' hplace hold⟩

end Disk

end Mooring.CommandLine
