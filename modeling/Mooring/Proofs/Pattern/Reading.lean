import Mooring.Proofs.Pattern.Onward

/-!
# What reading a pattern can come to

Reading ends with pieces, with a complaint that is a value, or beyond a limit of the notation, and
the pattern shows why (`shown_of_read`).  There is one lemma for each reader; those for alternatives,
sequences and groups go together, by induction on the fuel (`reads_pieces`).

Two readers have more to say than that they go on.  The braces of a repetition throw for a number
that is too large, and their text is what shows it (`reads_braceNumbers`).  Inline flags are turned on
for the whole pattern only when the parenthesis closes right behind them (`reads_inlineFlags`).
-/

namespace Mooring.Pattern

open Mooring.Text

section

variable {pattern lead : List Char} {α β : Type} {s s' : Source}

/-! ## Names and escapes -/

theorem reads_takeName (terminator : Char) (what : List Char) (fuel : Nat) :
    ∀ (lead name : List Char), Reads pattern lead (takeName terminator what fuel name) := by
  induction fuel with
  | zero => exact fun _ _ => .fail _ _
  | succ fuel ih =>
    intro lead name
    exact .take_bind (.ite (.fail _ _) (.fail _ _)) fun token =>
      .ite (.ite (.fail _ _) (.pure _)) (ih _ _)

theorem reads_nameUntil (terminator : Char) (what : String) :
    Reads pattern lead (nameUntil terminator what) :=
  .get_bind fun _ => reads_takeName _ _ _ _ _

theorem reads_hexEscape (escape : List Char) (width : Nat) :
    Reads pattern lead (hexEscape escape width) :=
  .bind (.takeChars _ _) fun _ => .ite (.fail _ _) (.ite (.fail _ _) (.pure _))

theorem reads_namedEscape : Reads pattern lead namedEscape :=
  .accept_bind (.bind (reads_nameUntil _ _) fun _ => .fail _ _) (.fail _ _)

theorem reads_octalEscape (escape : List Char) : Reads pattern lead (octalEscape escape) :=
  .ite (.fail _ _) (.pure _)

theorem reads_plainEscape (c : Char) : Reads pattern lead (plainEscape c) :=
  .ite (.fail _ _) (.pure _)

theorem reads_setEscape (c : Char) : Reads pattern lead (setEscape c) := by
  refine .get_bind fun s => .ite (.pure _) ?_
  split
  · exact .pure _
  · exact .pure _
  · exact .ite (reads_hexEscape _ _).returning (.ite (reads_hexEscape _ _).returning
      (.ite (reads_hexEscape _ _).returning (.ite reads_namedEscape.returning
        (.ite (.bind (.takeChars _ _) fun _ => (reads_octalEscape _).returning)
          (.ite (.fail _ _) (reads_plainEscape c).returning)))))

theorem reads_checkReference (number back : Nat) :
    Reads pattern lead (checkReference number back) := by
  refine .get_bind fun s => ?_
  split
  · exact .fail _ _
  · exact .ite (.fail _ _) (.pure _)

theorem reads_checkCondition (number : Nat) : Reads pattern lead (checkCondition number) := by
  refine .get_bind fun s => ?_
  split
  · exact .pure _
  · exact .ite (.fail _ _) (.ite (.fail _ _) (.pure _))

theorem reads_numberedEscape (c : Char) : Reads pattern lead (numberedEscape c) := by
  refine .get_bind fun s => .bind (.takeChars _ _) fun second => ?_
  refine .ite (.bind (.takeChars _ _) fun third => ?_) (.bind (.pure _) fun third => ?_)
  -- The third digit is there or not; what follows is the same.
  all_goals
    refine .ite (reads_octalEscape _).returning (.get_bind fun s => ?_)
    exact .ite (reads_checkReference _ _).returning (.fail _ _)

theorem reads_escape (c : Char) : Reads pattern lead (escape c) := by
  refine .get_bind fun s => ?_
  dsimp only
  split
  · exact .pure _
  · exact .pure _
  · exact .pure _
  · exact .pure _
  · exact (reads_hexEscape _ _).returning
  · exact (reads_hexEscape _ _).returning
  · exact (reads_hexEscape _ _).returning
  · exact reads_namedEscape.returning
  · exact (Reads.takeChars _ _).returning
  · split
    · exact .pure _
    · exact .pure _
    · exact .ite (reads_numberedEscape c) (reads_plainEscape c).returning

/-! ## Sets and repetitions -/

theorem reads_memberOf (token : List Char) : Reads pattern lead (memberOf token) := by
  unfold memberOf
  split
  · exact reads_setEscape _
  · exact .pure _
  · exact .pure _

theorem reads_setMembers (start fuel : Nat) : ∀ (lead : List Char) (members : List Member),
    Reads pattern lead (setMembers start fuel members) := by
  induction fuel with
  | zero => exact fun _ _ => .failAt _ _
  | succ fuel ih =>
    intro lead members
    refine .take_bind (.failAt _ _) fun token => .ite (.pure _) ?_
    refine .bind (reads_memberOf _) fun first => .accept_bind ?_ (ih _ _)
    refine .take_bind (.failAt _ _) fun last => .ite (.pure _) ?_
    refine .bind (reads_memberOf _) fun second => ?_
    split
    · exact .ite (.fail _ _) (ih _ _)
    · exact .fail _ _

theorem reads_readSet : Reads pattern lead readSet :=
  .get_bind fun _ => .bind (.accept _) fun _ =>
    (reads_setMembers _ _ _ _).returning

theorem reads_readGreed : Reads pattern lead readGreed :=
  .accept_bind (.pure _) (.accept_bind (.pure _) (.pure _))

theorem reads_repeatLast (pieces : List Piece) (least : Nat) (most : Option Nat) (here : Nat) :
    Reads pattern lead (repeatLast pieces least most here) := by
  refine .get_bind fun s => ?_
  dsimp only
  split
  · exact .fail _ _
  · exact .fail _ _
  · exact .fail _ _
  · exact reads_readGreed.returning

/-- A repetition in braces is read, or it shows an oversized number. -/
theorem reads_braceNumbers : Reads pattern ['\x7b'] braceNumbers? := by
  intro s hs
  unfold braceNumbers?
  refine Goes.get_bind ?_
  extract_lets here
  refine (goes_takeChars isAsciiDigit _ hs).bind fun low s₁ hafter => ?_
  obtain ⟨hlow, hbehind, hflags⟩ := hafter
  extract_lets least numbers
  -- What follows the numbers, with the text of the repetition so far.
  have hnumbers : ∀ (high text : List Char) (s₂ : Source), Behind pattern text s₂ →
      s₂.flags = s.flags → (repetitionLimit ≤ digitsValue 10 low ∨
        repetitionLimit ≤ digitsValue 10 high → Oversized (text ++ ['\x7d'])) →
      Goes pattern (numbers high) s₂ fun _ s' => Onward pattern s s' := by
    intro high text s₂ hbehind hflags hover
    refine (goes_accept '\x7d' hbehind).bind fun closed s₃ hafter => ?_
    cases closed with
    | false => exact Onward.of_flags hs rfl
    | true =>
      have hon := Onward.of_flags hafter.1 (hafter.2.trans hflags)
      have hshown (h : repetitionLimit ≤ digitsValue 10 low ∨
          repetitionLimit ≤ digitsValue 10 high) : Shown pattern .repetition :=
        ⟨_, hover h, hafter.1.occurs⟩
      refine Goes.ite (fun h => absurd h (by decide)) fun _ => ?_
      extract_lets most order checkHigh
      have horder : Goes pattern (order ()) s₃ fun _ s' => Onward pattern s s' :=
        Goes.ite (fun _ => trivial) fun _ => hon
      have hhigh : Goes pattern (checkHigh ()) s₃ fun _ s' => Onward pattern s s' :=
        Goes.ite (fun h => hshown (Or.inr (of_decide_eq_true (Bool.and_eq_true_iff.mp h).2)))
          fun _ => horder
      exact Goes.ite (fun h => hshown (Or.inl (of_decide_eq_true (Bool.and_eq_true_iff.mp h).2)))
        fun _ => hhigh
  refine (goes_accept ',' hbehind).bind fun comma s₂ hafter => ?_
  cases comma with
  | false =>
    exact hnumbers low _ s₂ hafter.1 (hafter.2.trans hflags) fun h => .exactly hlow (h.elim id id)
  | true =>
    have hflags₂ := hafter.2.trans hflags
    refine (goes_takeChars isAsciiDigit _ hafter.1).bind fun high s₃ hafter => ?_
    obtain ⟨hhigh, hbehind₃, hflags₃⟩ := hafter
    refine hnumbers high _ s₃ hbehind₃ (hflags₃.trans hflags₂) fun h => ?_
    have htext : (['\x7b'] ++ low ++ [','] ++ high) ++ ['\x7d'] =
        '\x7b' :: (low ++ ',' :: (high ++ ['\x7d'])) := by simp
    rw [if_pos rfl, htext]
    exact .between hlow hhigh h

/-! ## Flags -/

theorem ascii_turn {flags : Flags} {c : Char} (h : (flags.turn c true).ascii = true) :
    flags.ascii = true ∨ c = 'a' := by
  unfold Flags.turn at h
  split at h
  all_goals first | exact Or.inr rfl | exact Or.inl h

theorem unicode_turn {flags : Flags} {c : Char} (h : (flags.turn c true).unicode = true) :
    flags.unicode = true ∨ c = 'u' := by
  unfold Flags.turn at h
  split at h
  all_goals first | exact Or.inr rfl | exact Or.inl h

theorem ascii_foldl_turn {on : List Char} : ∀ {flags : Flags},
    (on.foldl (·.turn · true) flags).ascii = true → flags.ascii = true ∨ 'a' ∈ on := by
  induction on with
  | nil => exact Or.inl
  | cons c on ih =>
    intro flags h
    rcases ih h with hflags | hmem
    · rcases ascii_turn hflags with hflags | rfl
      · exact Or.inl hflags
      · exact Or.inr List.mem_cons_self
    · exact Or.inr (List.mem_cons_of_mem c hmem)

theorem unicode_foldl_turn {on : List Char} : ∀ {flags : Flags},
    (on.foldl (·.turn · true) flags).unicode = true → flags.unicode = true ∨ 'u' ∈ on := by
  induction on with
  | nil => exact Or.inl
  | cons c on ih =>
    intro flags h
    rcases ih h with hflags | hmem
    · rcases unicode_turn hflags with hflags | rfl
      · exact Or.inl hflags
      · exact Or.inr List.mem_cons_self
    · exact Or.inr (List.mem_cons_of_mem c hmem)

/-- A complaint about flags ends with whatever is said. -/
theorem goes_failFlag (expected : String) (token : List Char) (post : α → Source → Prop) :
    Goes pattern (failFlag expected token) s post := by
  unfold failFlag
  split
  · split <;> trivial
  · trivial

theorem reads_failFlag (expected : String) (token : List Char) :
    Reads pattern lead (failFlag expected token : Read α) :=
  fun _ _ => goes_failFlag _ _ _

/-- The letters of flags stand behind the question mark, the character after them last. -/
theorem goes_flagsOn (fuel : Nat) : ∀ {c : Char} {on : List Char} {s : Source},
    isFlag c = true → (∀ d ∈ on, isFlag d = true) → Behind pattern ('(' :: '?' :: (on ++ [c])) s →
    Goes pattern (flagsOn fuel c on) s fun found s' => (∀ d ∈ found.1, isFlag d = true) ∧
      Behind pattern ('(' :: '?' :: (found.1 ++ [found.2])) s' ∧ s'.flags = s.flags := by
  induction fuel with
  | zero => exact fun _ hon hs => ⟨hon, hs, rfl⟩
  | succ fuel ih =>
    intro c on s hc hon hs
    have hall : ∀ d ∈ on ++ [c], isFlag d = true :=
      List.forall_mem_append.mpr ⟨hon, List.forall_mem_singleton.mpr hc⟩
    unfold flagsOn
    dsimp only
    split
    · trivial
    split
    · trivial
    refine (goes_take hs).bind fun token s' hafter => ?_
    obtain ⟨htoken, hbehind, hflags⟩ := hafter
    rw [← htoken] at hbehind
    split
    · trivial
    next d =>
      have hbehind : Behind pattern ('(' :: '?' :: ((on ++ [c]) ++ [d])) s' := by
        simpa using hbehind
      split
      · exact ⟨hall, hbehind, hflags⟩
      split
      next hd =>
        refine (ih hd hall hbehind).mono fun found s'' hfound => ?_
        exact ⟨hfound.1, hfound.2.1, hfound.2.2.trans hflags⟩
      next => exact goes_failFlag _ _ _
    next => exact goes_failFlag _ _ _

theorem reads_flagsOff (fuel : Nat) : ∀ (lead : List Char) (c : Char) (off : List Char),
    Reads pattern lead (flagsOff fuel c off) := by
  induction fuel with
  | zero => exact fun _ _ _ => .pure _
  | succ fuel ih =>
    intro lead c off
    refine .ite (.bind (.fail _ _) fun _ => ?_) ?_
    all_goals
      refine .bind .taken fun token => ?_
      split
      · exact .fail _ _
      · exact .ite (.pure _) (.ite (ih _ _ _) (reads_failFlag _ _))
      · exact reads_failFlag _ _

/-- Inline flags turn on what stands in them. -/
theorem reads_inlineFlags {c : Char} (hc : isFlag c = true ∨ c = '-') :
    Reads pattern ['(', '?', c] (inlineFlags c) := by
  intro s hs
  unfold inlineFlags
  refine Goes.get_bind ?_
  extract_lets fuel after
  -- What follows the flags that are turned on.
  have hafter : ∀ (on : List Char) (d : Char) (s' : Source), Behind pattern [] s' →
      s'.flags = s.flags → (d = ')' → ∀ flag ∈ on, TurnsOn pattern flag) →
      Goes pattern (after (on, d)) s' fun _ s'' => Onward pattern s s'' := by
    intro on d s' hbehind hflags hturns
    refine Goes.ite (fun hd => ?_) fun _ => ?_
    · have hd := hturns (beq_iff_eq.mp hd)
      refine ⟨hbehind.of_same rfl rfl, fun h => ?_, fun h => ?_⟩
      · exact hflags ▸ (ascii_foldl_turn h).imp_right (hd 'a')
      · exact hflags ▸ (unicode_foldl_turn h).imp_right (hd 'u')
    · extract_lets closing turnedOff
      have hclosing : ∀ off, Reads pattern [] (closing off) := fun off =>
        .barring (.barring (.pure (some (on, off))))
      have hturnedOff : Reads pattern [] (turnedOff ()) := by
        refine .ite (.bind .taken fun token => ?_) (.bind (.pure _) hclosing)
        split
        · exact .bind (.fail _ _) hclosing
        · exact .ite (.bind (reads_flagsOff _ _ _ _) hclosing)
            (.bind (reads_failFlag _ _) hclosing)
        · exact .bind (reads_failFlag _ _) hclosing
      exact Goes.mono (Reads.barring hturnedOff s' hbehind) fun _ _ =>
        (Onward.of_flags hbehind hflags).trans
  refine Goes.ite (fun _ => ?_) fun hne => ?_
  · exact hafter [] c s hs.forget rfl fun _ flag hmem => absurd hmem List.not_mem_nil
  · have hflag : isFlag c = true := hc.resolve_right fun heq => hne (beq_iff_eq.mpr heq)
    refine (goes_flagsOn fuel hflag (by simp) hs).bind fun found s' hfound => ?_
    obtain ⟨hall, hbehind, hflags⟩ := hfound
    refine hafter found.1 found.2 s' hbehind.forget hflags fun hd flag hmem => ?_
    exact ⟨found.1, hall, hmem, hd ▸ hbehind.occurs⟩

/-! ## Groups -/

theorem reads_checkName (name : List Char) : Reads pattern lead (checkName name) :=
  .ite (.pure _) (.fail _ _)

theorem reads_numberOf (name : List Char) : Reads pattern lead (numberOf name) := by
  refine .get_bind fun s => ?_
  split
  · exact .pure _
  · exact .fail _ _

theorem reads_openNumbered (name : Option (List Char)) :
    Reads pattern lead (openNumbered name) := by
  intro s hs
  refine Goes.get_bind ?_
  cases name with
  | none => exact Onward.of_flags (hs.of_same rfl rfl) rfl
  | some name =>
    dsimp only
    split
    · trivial
    · exact Onward.of_flags (hs.of_same rfl rfl) rfl

theorem reads_closeNumbered (number : Nat) (body : List Piece) :
    Reads pattern lead (closeNumbered number body) :=
  .modify fun _ => ⟨rfl, rfl, rfl⟩

theorem reads_conditionGroup : Reads pattern lead conditionGroup := by
  refine .bind (reads_nameUntil _ _) fun name => ?_
  extract_lets checked
  have hchecked : ∀ number, Reads pattern [] (checked number) := fun number =>
    .bind (reads_checkCondition number) fun _ => .pure _
  refine .ite (.bind (reads_numberOf name) hchecked) ?_
  split
  next number _ =>
    refine .ite (.bind (.fail _ _) hchecked) (.ite (.bind (.fail _ _) hchecked) ?_)
    refine .bind (.modify fun s => ?_) fun _ => .bind (.pure _) hchecked
    split <;> exact ⟨rfl, rfl, rfl⟩
  next => exact .bind (.fail _ _) hchecked

theorem reads_skipComment (start fuel : Nat) : ∀ lead, Reads pattern lead (skipComment start fuel) := by
  induction fuel with
  | zero => exact fun _ => .failAt _ _
  | succ fuel ih =>
    exact fun _ => .get_bind fun _ => .ite (.failAt _ _)
      (.bind .taken fun _ => .ite (.pure _) (ih _))

theorem reads_skipLine (fuel : Nat) : ∀ lead, Reads pattern lead (skipLine fuel) := by
  induction fuel with
  | zero => exact fun _ => .pure _
  | succ fuel ih =>
    intro lead
    refine .bind .taken fun token => ?_
    split
    · exact .pure _
    · exact .ite (.pure _) (ih _)

theorem reads_pExtension : Reads pattern lead pExtension := by
  refine .bind (.accept _) fun _ => .ite ?_ (.bind (.accept _) fun _ => .ite ?_ ?_)
  · exact .bind (reads_nameUntil _ _) fun name => .bind (reads_checkName name) fun _ => .pure _
  · refine .get_bind fun s => .bind (reads_nameUntil _ _) fun name => ?_
    refine .bind (reads_checkName name) fun _ => .bind (reads_numberOf name) fun number => ?_
    exact (reads_checkReference _ _).returning
  · refine .bind .taken fun token => ?_
    split
    · exact .fail _ _
    · exact .fail _ _

theorem reads_opening (first : Bool) (start : Nat) :
    Reads pattern ['('] (opening first start) := by
  refine .accept_bind ?_ (.pure _)
  refine .take_bind (.fail _ _) fun token => ?_
  dsimp only
  split
  · exact reads_pExtension
  · exact .pure _
  · exact .get_bind fun s => .bind (reads_skipComment _ _ _) fun _ => .pure _
  · exact .pure _
  · exact .pure _
  · refine .bind .taken fun token => ?_
    split
    · exact .fail _ _
    · exact .pure _
    · exact .pure _
    · exact .fail _ _
  · exact .pure _
  · exact .pure _
  · split
    next hc =>
      have hflag := (Bool.or_eq_true_iff.mp hc).imp_right beq_iff_eq.mp
      refine .bind (reads_inlineFlags hflag) fun found => ?_
      split
      · exact .ite (.pure _) (.failAt _ _)
      · exact .pure _
    next => exact .fail _ _
  · exact .fail _ _

theorem reads_closeGroup (start : Nat) : Reads pattern lead (closeGroup start) :=
  .bind (.accept _) fun _ => .ite (.pure _) (.failAt _ _)

/-! ## Whole patterns -/

/-- **The readers of alternatives, of sequences and of groups go on in the pattern.** -/
theorem reads_pieces (fuel : Nat) :
    (∀ top earlier, Reads pattern [] (readAlternatives top fuel earlier)) ∧
      (∀ first pieces, Reads pattern [] (readSequence first fuel pieces)) ∧
      ∀ first, Reads pattern ['('] (readGroup first fuel) := by
  induction fuel with
  | zero =>
    refine ⟨fun top earlier => ?_, fun first pieces => ?_, fun first => ?_⟩
    · unfold readAlternatives
      exact .pure _
    · unfold readSequence
      exact .pure _
    · unfold readGroup
      exact .pure _
  | succ fuel ih =>
    obtain ⟨halternatives, hsequence, hgroup⟩ := ih
    refine ⟨fun top earlier => ?_, fun first pieces => ?_, fun first => ?_⟩
    · unfold readAlternatives
      refine .bind (hsequence _ _) fun body => .bind (.accept _) fun more => ?_
      exact .ite (halternatives _ _) (.ite (.pure _) (.pure _))
    · intro s hs
      unfold readSequence
      refine Goes.get_bind ?_
      split
      · exact Onward.of_flags hs rfl
      next token htoken =>
      refine Goes.ite (fun _ => Onward.of_flags hs rfl) fun _ => ?_
      refine (goes_advance hs).bind fun _ s' hafter => ?_
      rw [htoken] at hafter
      have hon := Onward.of_flags hafter.1 hafter.2
      refine Goes.mono ((?_ : Reads pattern ([] ++ token) _) s' hafter.1) fun _ _ => hon.trans
      clear hafter hon htoken
      split
      next c =>
        refine .ite (.of_lead (hsequence _ _))
          (.ite (.bind (reads_skipLine _ _) fun _ => hsequence _ _)
            (.ite (.bind reads_readSet fun _ => hsequence _ _) (.ite ?_ ?_)))
        · exact .get_bind fun s' => .bind (reads_repeatLast _ _ _ _) fun _ => hsequence _ _
        split
        next hc =>
          obtain rfl := beq_iff_eq.mp hc
          refine .get_bind fun s' => ?_
          extract_lets here numbered
          have hnumbered : ∀ numbers, Reads pattern [] (numbered numbers) := by
            intro numbers
            cases numbers with
            | none => exact hsequence _ _
            | some found => exact .bind (reads_repeatLast _ _ _ _) fun _ => hsequence _ _
          refine .get_bind fun _ => ?_
          exact .ite (.bind (.pure _) hnumbered) (.bind reads_braceNumbers hnumbered)
        refine .ite (.of_lead (hsequence _ _)) (.ite (.of_lead (hsequence _ _))
          (.ite (.of_lead (hsequence _ _)) ?_))
        split
        next hc =>
          obtain rfl := beq_iff_eq.mp hc
          exact .bind (hgroup _) fun _ => hsequence _ _
        · exact .of_lead (hsequence _ _)
      · exact .bind (reads_escape _) fun piece => hsequence _ _
      · exact .of_lead (hsequence _ _)
    · unfold readGroup
      refine .get_bind fun s => .bind (reads_opening _ _) fun found => ?_
      cases found with
      | nothing => exact .pure _
      | complete piece => exact .pure _
      | numbered name =>
        refine .bind (reads_openNumbered name) fun number => .bind (halternatives _ _) fun body => ?_
        exact .bind (reads_closeGroup _) fun _ => .bind (reads_closeNumbered _ _) fun _ => .pure _
      | plain on off =>
        exact .withFlags (·.inside on off) (halternatives _ _) fun body =>
          .bind (reads_closeGroup _) fun _ => .pure _
      | atomic =>
        exact .bind (halternatives _ _) fun body => .bind (reads_closeGroup _) fun _ => .pure _
      | look behind negated =>
        refine .get_bind fun s => ?_
        extract_lets outside body
        have hbody : Reads pattern [] (body ()) :=
          .bind (halternatives _ _) fun _ => .bind (.modify fun _ => ⟨rfl, rfl, rfl⟩) fun _ =>
            .bind (reads_closeGroup _) fun _ => .pure _
        exact .ite (.bind (.modify fun _ => ⟨rfl, rfl, rfl⟩) fun _ => hbody) hbody
      | condition =>
        refine .bind reads_conditionGroup fun number => .bind (hsequence _ _) fun yes => ?_
        refine .bind (.accept _) fun more => ?_
        extract_lets closed
        have hclosed : ∀ no, Reads pattern [] (closed no) := fun no =>
          .bind (reads_closeGroup _) fun _ => .pure _
        refine .ite (.bind (hsequence _ _) fun no => .get_bind fun s => ?_)
          (.bind (.pure _) hclosed)
        exact .ite (.bind (.fail _ _) hclosed) (.bind (.pure _) hclosed)

/-- **Reading a whole pattern ends, or the pattern shows why not**, if it starts without the flags
that exclude each other. -/
theorem goes_readAll (length : Nat) (hs : Behind pattern [] s)
    (hflags : s.flags.ascii = false ∧ s.flags.unicode = false) :
    Goes pattern (readAll length) s fun _ _ => True := by
  refine (goes_advance hs).bind fun _ s₁ hafter => ?_
  refine ((reads_pieces _).1 true [] s₁ hafter.1.forget).bind fun pieces s₂ hon => ?_
  refine Goes.get_bind ?_
  extract_lets closed flagged
  have hclosed : Goes pattern (closed ()) s₂ fun _ _ => True := by
    dsimp only [closed]
    split <;> trivial
  refine Goes.ite (fun h => ?_) fun _ => Goes.ite (fun _ => trivial) fun _ => hclosed
  obtain ⟨hascii, hunicode⟩ := Bool.and_eq_true_iff.mp h
  refine ⟨(hon.ascii hascii).resolve_left ?_, (hon.unicode hunicode).resolve_left ?_⟩
  · rw [hafter.2, hflags.1]
    exact Bool.false_ne_true
  · rw [hafter.2, hflags.2]
    exact Bool.false_ne_true

/-- **A pattern that goes beyond a limit shows it.** -/
theorem shown_of_read {flags : Flags} (hflags : flags.ascii = false ∧ flags.unicode = false)
    {overload : Overload} (h : read flags pattern = .error (.overload overload)) :
    Shown pattern overload := by
  have hstart : Behind pattern [] ⟨none, 0, pattern, flags, [], [], none, []⟩ := ⟨[], rfl⟩
  have hgoes := goes_readAll pattern.length hstart hflags
  unfold Goes at hgoes
  unfold read at h
  dsimp only at h
  cases hrun : (readAll pattern.length).run ⟨none, 0, pattern, flags, [], [], none, []⟩ with
  | ok found =>
    obtain ⟨pieces, s'⟩ := found
    rw [hrun] at h
    have hends : (if looksFixedIn pieces then pure pieces
        else throw (.malformed ⟨.variableLookBehind, none⟩)) =
        (Except.error (.overload overload) : Except ReadError (List Piece)) := h
    split at hends
    · exact absurd hends (by simp [pure, Except.pure])
    · exact absurd (Except.error.inj hends) (by simp)
  | error error =>
    rw [hrun] at h hgoes
    obtain rfl : error = .overload overload := Except.error.inj h
    exact hgoes

end

end Mooring.Pattern
