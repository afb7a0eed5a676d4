import Mooring.CommandLine.Call

/-!
# What a grammar keeps

Reading a call changes its record only by the options and the operand of the grammar, in whatever
order and spelling they are given.  So what each of them keeps holds of every call that is read
(`Keeps.read`).  The argument follows the reader: whatever option is meant by an argument, also one
inside a cluster of short options, is an option of the grammar; and taking an argument changes the
record by one of their effects, or not at all.

The digest of a call is kept to be a supported one in this way (`supported_of_ofArguments`).
-/

namespace Mooring.CommandLine

variable {ρ : Type} {grammar : Grammar ρ} {P : ρ → Prop}

/-! ## Options of the grammar -/

theorem mem_of_mem_spellings {pair : String × Opt ρ} (h : pair ∈ grammar.spellings) :
    pair.2 ∈ grammar.options := by
  obtain ⟨opt, hopt, hpair⟩ := List.mem_flatMap.mp h
  obtain ⟨_, -, rfl⟩ := List.mem_map.mp hpair
  exact hopt

theorem mem_of_spelled? {spelling : String} {opt : Opt ρ}
    (h : grammar.spelled? spelling = some opt) :
    opt ∈ grammar.options := by
  obtain ⟨before, after, hspellings, -⟩ := List.lookup_eq_some_iff.mp h
  have hmem : (spelling, opt) ∈ grammar.spellings := by
    rw [hspellings]
    simp
  exact mem_of_mem_spellings hmem

/-- If an argument is an option, it is one of the grammar. -/
def Token.Known (grammar : Grammar ρ) : Token ρ → Prop
  | .option opt _ _ => opt ∈ grammar.options
  | _ => True

theorem known_of_readings {text : String} {reading : String × Token ρ}
    (h : reading ∈ grammar.readings text) : reading.2.Known grammar := by
  unfold Grammar.readings at h
  dsimp only at h
  split at h
  · obtain ⟨pair, hpair, rfl⟩ := List.mem_map.mp h
    exact mem_of_mem_spellings (List.mem_filter.mp hpair).1
  · obtain ⟨pair, hpair, hreading⟩ := List.mem_filterMap.mp h
    split at hreading
    · obtain rfl := Option.some.inj hreading
      exact mem_of_mem_spellings hpair
    · split at hreading
      · obtain rfl := Option.some.inj hreading
        exact mem_of_mem_spellings hpair
      · exact absurd hreading (by simp)

theorem known_of_token {text : String} {token : Token ρ} (h : grammar.token text = .ok token) :
    token.Known grammar := by
  unfold Grammar.token at h
  split at h
  next => rw [← Except.ok.inj h]; exact trivial
  next =>
    split at h
    next opt hspelled => rw [← Except.ok.inj h]; exact mem_of_spelled? hspelled
    next =>
      dsimp only at h
      split at h
      next opt value hspelled _ => rw [← Except.ok.inj h]; exact mem_of_spelled? hspelled
      next =>
        split at h
        next spelling found hreadings =>
          rw [← Except.ok.inj h]
          have hmem : (spelling, found) ∈ grammar.readings text := by
            rw [hreadings]
            exact List.mem_singleton_self _
          exact known_of_readings hmem
        next =>
          rw [← Except.ok.inj h]
          split <;> exact trivial
        next => exact absurd h (by simp)

theorem known_of_tokens : ∀ {arguments : List String} {tokens : List (String × Token ρ)},
    grammar.tokens arguments = .ok tokens → ∀ token ∈ tokens, token.2.Known grammar
  | [], tokens, h => by
    rw [← Except.ok.inj h]
    exact fun _ hmem => absurd hmem List.not_mem_nil
  | text :: rest, tokens, h => by
    unfold Grammar.tokens at h
    split at h
    next =>
      rw [← Except.ok.inj h]
      refine List.forall_mem_cons.mpr ⟨trivial, ?_⟩
      exact List.forall_mem_map.mpr fun _ _ => trivial
    next =>
      split at h
      next => exact absurd h (by simp)
      next token htoken =>
        cases hrest : grammar.tokens rest with
        | error fault => rw [hrest] at h; exact absurd h (by simp [Except.map])
        | ok found =>
          rw [hrest] at h
          rw [← Except.ok.inj h]
          exact List.forall_mem_cons.mpr ⟨known_of_token htoken, known_of_tokens hrest⟩

theorem mem_of_cluster : ∀ {tail : List Char} {opt : Opt ρ} {uses : List (Use ρ)},
    opt ∈ grammar.options → grammar.cluster opt tail = .ok uses →
      ∀ use ∈ uses, use.1 ∈ grammar.options
  | [], opt, uses, hopt, h => by
    rw [← Except.ok.inj h]
    exact List.forall_mem_singleton.mpr hopt
  | c :: tail, opt, uses, hopt, h => by
    unfold Grammar.cluster at h
    split at h
    next =>
      rw [← Except.ok.inj h]
      exact List.forall_mem_singleton.mpr hopt
    next =>
      split at h
      next next hnext =>
        cases hrest : grammar.cluster next tail with
        | error halt => rw [hrest] at h; exact absurd h (by simp [Except.map])
        | ok found =>
          rw [hrest] at h
          rw [← Except.ok.inj h]
          exact List.forall_mem_cons.mpr ⟨hopt, mem_of_cluster (mem_of_spelled? hnext) hrest⟩
      next => exact absurd h (by simp)

theorem mem_of_uses {opt : Opt ρ} {spelling : String} {joined : Option String}
    {uses : List (Use ρ)} (hopt : opt ∈ grammar.options)
    (h : grammar.uses opt spelling joined = .ok uses) : ∀ use ∈ uses, use.1 ∈ grammar.options := by
  unfold Grammar.uses at h
  split at h
  next => rw [← Except.ok.inj h]; exact List.forall_mem_singleton.mpr hopt
  next value =>
    split at h
    next => rw [← Except.ok.inj h]; exact List.forall_mem_singleton.mpr hopt
    next =>
      split at h
      next => exact mem_of_cluster hopt h
      next => exact absurd h (by simp)

/-! ## What is kept -/

/-- Whatever the option does to a record keeps a property. -/
def Effect.Keeps (P : ρ → Prop) : Effect ρ → Prop
  | .flag change => ∀ record, P record → P (change record)
  | .value change => ∀ text done, change text = .ok done → ∀ record, P record → P (done record)
  | .help => True

/-- Whatever the operand does to a record keeps a property. -/
def Operand.Keeps (P : ρ → Prop) : Operand ρ → Prop
  | .nothing => True
  | .one _ change => ∀ text record, P record → P (change text record)
  | .rest change => ∀ texts record, P record → P (change texts record)

/-- All options and the operand of a grammar keep a property of its record. -/
structure Grammar.Keeps (grammar : Grammar ρ) (P : ρ → Prop) : Prop where
  options : ∀ opt ∈ grammar.options, opt.effect.Keeps P
  operand : grammar.operand.Keeps P

theorem Grammar.Keeps.use (h : grammar.Keeps P) {use : Use ρ} (hopt : use.1 ∈ grammar.options)
    {progress after : Progress ρ} (hbefore : P progress.record)
    (huse : progress.use use = .ok after) : P after.record := by
  obtain ⟨opt, value⟩ := use
  have hkeeps := h.options opt hopt
  unfold Progress.use at huse
  dsimp only at huse
  split at huse
  next => exact absurd huse (by simp)
  next change heffect =>
    rw [heffect] at hkeeps
    rw [← Except.ok.inj huse]
    exact hkeeps _ hbefore
  next change heffect =>
    rw [heffect] at hkeeps
    split at huse
    next => exact absurd huse (by simp)
    next text =>
      split at huse
      next done hdone =>
        rw [← Except.ok.inj huse]
        exact hkeeps text done hdone _ hbefore
      next => exact absurd huse (by simp)

theorem Grammar.Keeps.useAll (h : grammar.Keeps P) {uses : List (Use ρ)}
    (huses : ∀ use ∈ uses, use.1 ∈ grammar.options) {progress after : Progress ρ}
    (hbefore : P progress.record) (hall : progress.useAll uses = .ok after) : P after.record := by
  induction uses generalizing progress with
  | nil => rw [← Except.ok.inj hall]; exact hbefore
  | cons use rest ih =>
    obtain ⟨hfirst, hrest⟩ := List.forall_mem_cons.mp huses
    change ((progress.use use).bind fun progress => progress.useAll rest) = .ok after at hall
    cases huse : progress.use use with
    | error halt => rw [huse] at hall; exact absurd hall (by simp [Except.bind])
    | ok next =>
      rw [huse] at hall
      exact ih hrest (h.use hfirst hbefore huse) hall

/-- The operand of a grammar keeps the property, in whichever form the grammar has it. -/
theorem Grammar.Keeps.one (h : grammar.Keeps P) {name : String} {change : String → ρ → ρ}
    (hoperand : grammar.operand = .one name change) : (Operand.one name change).Keeps P :=
  hoperand ▸ h.operand

theorem Grammar.Keeps.rest (h : grammar.Keeps P) {change : List String → ρ → ρ}
    (hoperand : grammar.operand = .rest change) : (Operand.rest change).Keeps P :=
  hoperand ▸ h.operand

/-- The option that awaits its value is the last one that was used. -/
theorem mem_of_awaiting? {uses : List (Use ρ)} {last : Opt ρ} (h : awaiting? uses = some last) :
    ∃ use ∈ uses, use.1 = last := by
  unfold awaiting? at h
  split at h
  next opt hlast =>
    split at h
    next => exact ⟨_, List.mem_of_getLast? hlast, Option.some.inj h⟩
    next => exact absurd h (by simp)
  next => exact absurd h (by simp)

/-- **Taking arguments keeps the property.**  The cases are those of the reader. -/
theorem Grammar.Keeps.take (h : grammar.Keeps P) {tokens : List (String × Token ρ)}
    (hknown : ∀ token ∈ tokens, token.2.Known grammar) {progress after : Progress ρ}
    (hbefore : P progress.record) (htake : grammar.take tokens progress = .ok after) :
    P after.record := by
  fun_induction Grammar.take grammar tokens progress with
  | case1 progress => exact Except.ok.inj htake ▸ hbefore
  | case2 text rest progress ih => exact ih (List.forall_mem_cons.mp hknown).2 hbefore htake
  | case3 text progress name change _ hone _ rest ih =>
    exact ih (List.forall_mem_cons.mp (List.forall_mem_cons.mp hknown).2).2
      (h.one hone text _ hbefore) htake
  | case4 text progress name change _ hone rest _ ih =>
    exact ih (List.forall_mem_cons.mp hknown).2 (h.one hone text _ hbefore) htake
  | case5 text rest progress change _ hrest =>
    exact Except.ok.inj htake ▸ h.rest hrest _ _ hbefore
  | case6 text rest progress _ _ ih => exact ih (List.forall_mem_cons.mp hknown).2 hbefore htake
  | case7 text progress name change operand _ rest _ hone ih =>
    exact ih (List.forall_mem_cons.mp (List.forall_mem_cons.mp hknown).2).2
      (h.one hone operand _ hbefore) htake
  | case8 text progress change _ _ _ hrest =>
    exact Except.ok.inj htake ▸ h.rest hrest _ _ hbefore
  | case9 text progress rest _ _ ih => exact ih (List.forall_mem_cons.mp hknown).2 hbefore htake
  | case10 => exact absurd htake (by simp)
  | case11 => exact absurd htake (by simp)
  | case12 _ opt spelling joined rest before uses huses _ next huse ih =>
    obtain ⟨hopt, hrest⟩ := List.forall_mem_cons.mp hknown
    exact ih hrest (h.useAll (mem_of_uses hopt huses) hbefore huse) htake
  | case13 => exact absurd htake (by simp)
  | case14 _ opt spelling joined before uses huses last hlast value rest next huse ih =>
    -- The last option takes the next argument as its value.
    obtain ⟨hopt, hmore⟩ := List.forall_mem_cons.mp hknown
    have hall := mem_of_uses hopt huses
    have hvalued : ∀ use ∈ uses.dropLast ++ [(last, some value)], use.1 ∈ grammar.options := by
      refine List.forall_mem_append.mpr ⟨fun use huse => hall use (List.dropLast_subset _ huse), ?_⟩
      obtain ⟨use, hmem, rfl⟩ := mem_of_awaiting? hlast
      exact List.forall_mem_singleton.mpr (hall use hmem)
    exact ih (List.forall_mem_cons.mp hmore).2 (h.useAll hvalued hbefore huse) htake
  | case15 => exact absurd htake (by simp)

/-- **Reading a call keeps what all options and the operand keep**, whatever the arguments. -/
theorem Grammar.Keeps.read (h : grammar.Keeps P) {start record : ρ} (hstart : P start)
    {arguments leftOver : List String}
    (hread : grammar.read start arguments = .ok (record, leftOver)) :
    P record := by
  unfold Grammar.read at hread
  split at hread
  next => exact absurd hread (by simp)
  next tokens htokens =>
    split at hread
    next => exact absurd hread (by simp)
    next progress htake =>
      split at hread
      next =>
        rw [← (Prod.mk.inj (Except.ok.inj hread)).1]
        exact h.take (known_of_tokens htokens) hstart htake
      next => exact absurd hread (by simp)

/-! ## Values -/

theorem keeps_textValue {change : String → ρ → ρ}
    (h : ∀ text record, P record → P (change text record)) : (textValue change).Keeps P := by
  intro text done hdone
  rw [← Except.ok.inj hdone]
  exact h text

theorem keeps_wholeValue {change : Int → ρ → ρ}
    (h : ∀ n record, P record → P (change n record)) : (wholeValue change).Keeps P := by
  intro text done hdone
  dsimp only at hdone
  split at hdone
  next => exact absurd hdone (by simp)
  next =>
    split at hdone
    next n _ => rw [← Except.ok.inj hdone]; exact h n
    next => exact absurd hdone (by simp)

theorem keeps_choiceValue {choices : List String} {change : String → ρ → ρ}
    (h : ∀ text ∈ choices, ∀ record, P record → P (change text record)) :
    (choiceValue choices change).Keeps P := by
  intro text done hdone
  dsimp only at hdone
  split at hdone
  next hchoice => rw [← Except.ok.inj hdone]; exact h text (List.contains_iff_mem.mp hchoice)
  next => exact absurd hdone (by simp)

/-! ## The digest of a call -/

/-- The digest is a supported one. -/
def Hashing.Supported (hashing : Hashing) : Prop :=
  hashing.algorithm ∈ Digest.Algorithm.all.map (·.name)

theorem supported_default : Hashing.Supported {} :=
  List.mem_cons_self

theorem keeps_addGrammar : addGrammar.Keeps fun call => call.hashing.Supported := by
  refine ⟨?_, trivial⟩
  simp only [addGrammar, hashingOptions, List.cons_append, List.nil_append, List.forall_mem_cons]
  refine ⟨trivial, keeps_choiceValue fun _ hchoice _ _ => hchoice,
    keeps_wholeValue fun _ _ h => h, keeps_textValue fun _ _ h => h,
    keeps_wholeValue fun _ _ h => h,
    keeps_textValue fun _ _ h => h, keeps_textValue fun _ _ h => h, keeps_textValue fun _ _ h => h,
    fun _ h => h, fun _ hmem => absurd hmem List.not_mem_nil⟩

theorem keeps_hashGrammar : hashGrammar.Keeps fun call => call.hashing.Supported := by
  refine ⟨?_, fun _ _ h => h⟩
  simp only [hashGrammar, hashingOptions, List.cons_append, List.nil_append, List.forall_mem_cons]
  exact ⟨trivial, keeps_choiceValue fun _ hchoice _ _ => hchoice,
    keeps_wholeValue fun _ _ h => h, keeps_wholeValue fun _ _ h => h,
    keeps_wholeValue fun _ _ h => h, fun _ hmem => absurd hmem List.not_mem_nil⟩

/-- A command is read by its grammar, or not at all. -/
theorem readCommand_eq_ok {command : String} {start : ρ} {call : ρ → Call}
    {arguments earlier : List String} {found : Call}
    (h : readCommand command grammar start call arguments earlier = .ok found) :
    found = .overview ∨ ∃ record leftOver, grammar.read start arguments = .ok (record, leftOver) ∧
      found = call record := by
  unfold readCommand at h
  split at h
  next => exact .inl (Except.ok.inj h).symm
  next => exact absurd h (by simp)
  next record leftOver hread =>
    split at h
    next => exact .inr ⟨record, leftOver, hread, (Except.ok.inj h).symm⟩
    next => exact absurd h (by simp)

/-- What a call says about its hash, if it makes one. -/
def Call.hashing? : Call → Option Hashing
  | .add call => some call.hashing
  | .hash call => some call.hashing
  | _ => none

/-- **Whatever the arguments, a call asks for a supported digest.** -/
theorem supported_of_ofArguments {arguments : List String} {call : Call}
    (h : Call.ofArguments arguments = .ok call) : ∀ hashing ∈ call.hashing?, hashing.Supported := by
  have hnone : ∀ {other : Call}, other.hashing? = none → other = call →
      ∀ hashing ∈ call.hashing?, hashing.Supported := by
    rintro other hother rfl hashing hmem
    rw [hother] at hmem
    exact absurd hmem (by simp)
  unfold Call.ofArguments at h
  split at h
  next => exact hnone rfl (Except.ok.inj h)
  next => exact absurd h (by simp)
  next => exact hnone rfl (Except.ok.inj h)
  next => exact absurd h (by simp)
  next command rest leftOver _ =>
    split at h
    next =>
      rcases readCommand_eq_ok h with rfl | ⟨record, _, hread, rfl⟩
      · exact hnone rfl rfl
      · rintro _ ⟨⟩
        exact keeps_addGrammar.read supported_default hread
    next =>
      rcases readCommand_eq_ok h with rfl | ⟨record, _, hread, rfl⟩
      · exact hnone rfl rfl
      · rintro _ ⟨⟩
        exact keeps_hashGrammar.read supported_default hread
    next =>
      rcases readCommand_eq_ok h with rfl | ⟨record, _, hread, rfl⟩
      · exact hnone rfl rfl
      · exact hnone rfl rfl
    next =>
      rcases readCommand_eq_ok h with rfl | ⟨record, _, hread, rfl⟩
      · exact hnone rfl rfl
      · exact hnone rfl rfl
    next => exact absurd h (by simp)

end Mooring.CommandLine
