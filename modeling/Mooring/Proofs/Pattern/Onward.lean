import Mathlib.Data.List.Basic
import Mooring.Pattern.Reader

/-!
# Readers of patterns

A reader stands somewhere in the pattern, behind a text that has just been passed (`Behind`).  It
goes on from there, and the flags that it leaves turned on are ones that the pattern turns on
(`Onward`), or it complains, or it goes beyond a limit of the notation for a reason that stands in
the pattern (`Shown`): a repetition with an oversized number, or flags for the whole pattern that go
against each other.

`Reads` says all this of a reader.  It is closed under everything that readers are made of: sequence,
choice, complaints, tokens that are taken, and flags that are changed for a while.
-/

namespace Mooring.Pattern

open Mooring.Text

/-! ## Reasons in the pattern -/

/-- A repetition in braces with a number that is too large. -/
inductive Oversized : List Char → Prop
  | exactly {low : List Char} (hlow : ∀ c ∈ low, isAsciiDigit c = true)
    (h : repetitionLimit ≤ digitsValue 10 low) : Oversized ('\x7b' :: (low ++ ['\x7d']))
  | between {low high : List Char} (hlow : ∀ c ∈ low, isAsciiDigit c = true)
    (hhigh : ∀ c ∈ high, isAsciiDigit c = true)
    (h : repetitionLimit ≤ digitsValue 10 low ∨ repetitionLimit ≤ digitsValue 10 high) :
    Oversized ('\x7b' :: (low ++ ',' :: (high ++ ['\x7d'])))

/-- The pattern turns a flag on for the whole of it. -/
def TurnsOn (pattern : List Char) (flag : Char) : Prop :=
  ∃ on, (∀ c ∈ on, isFlag c = true) ∧ flag ∈ on ∧ '(' :: '?' :: (on ++ [')']) <:+: pattern

/-- The pattern shows why it goes beyond a limit. -/
def Shown (pattern : List Char) : Overload → Prop
  | .repetition => ∃ repetition, Oversized repetition ∧ repetition <:+: pattern
  | .flags => TurnsOn pattern 'a' ∧ TurnsOn pattern 'u'

/-! ## Where a reader stands -/

/-- The state is right behind this text in the pattern. -/
def Behind (pattern lead : List Char) (s : Source) : Prop :=
  ∃ front, pattern = front ++ (lead ++ (s.token.getD [] ++ s.rest))

/-- The state is further on in the pattern than another one, and the flags that it turned on since
are turned on by the pattern. -/
structure Onward (pattern : List Char) (s s' : Source) : Prop where
  stands : Behind pattern [] s'
  ascii : s'.flags.ascii = true → s.flags.ascii = true ∨ TurnsOn pattern 'a'
  unicode : s'.flags.unicode = true → s.flags.unicode = true ∨ TurnsOn pattern 'u'

/-- From this state, the reader ends with what is said, or it complains, or the pattern shows why it
goes beyond a limit. -/
def Goes {α : Type} (pattern : List Char) (m : Read α) (s : Source) (post : α → Source → Prop) :
    Prop :=
  match m.run s with
  | .ok (a, s') => post a s'
  | .error (.malformed _) => True
  | .error (.overload overload) => Shown pattern overload

/-- Right behind the lead, the reader goes on in the pattern. -/
def Reads {α : Type} (pattern lead : List Char) (m : Read α) : Prop :=
  ∀ s, Behind pattern lead s → Goes pattern m s fun _ s' => Onward pattern s s'

section

variable {pattern lead : List Char} {α β : Type} {s s' s'' : Source}

theorem Behind.forget (h : Behind pattern lead s) : Behind pattern [] s := by
  obtain ⟨front, hfront⟩ := h
  exact ⟨front ++ lead, by rw [hfront, List.append_assoc]; rfl⟩

theorem Behind.occurs (h : Behind pattern lead s) : lead <:+: pattern := by
  obtain ⟨front, hfront⟩ := h
  exact ⟨front, s.token.getD [] ++ s.rest, by rw [hfront, List.append_assoc]⟩

/-- Only the token and what follows it tell where a state stands. -/
theorem Behind.of_same (h : Behind pattern lead s) (htoken : s'.token = s.token)
    (hrest : s'.rest = s.rest) : Behind pattern lead s' := by
  rw [Behind, htoken, hrest]
  exact h

theorem Onward.of_flags (h : Behind pattern lead s') (hflags : s'.flags = s.flags) :
    Onward pattern s s' :=
  ⟨h.forget, fun hon => Or.inl (hflags ▸ hon), fun hon => Or.inl (hflags ▸ hon)⟩

theorem Onward.trans (h : Onward pattern s s') (h' : Onward pattern s' s'') :
    Onward pattern s s'' :=
  ⟨h'.stands, fun hon => (h'.ascii hon).elim h.ascii Or.inr,
    fun hon => (h'.unicode hon).elim h.unicode Or.inr⟩

namespace Goes

variable {m : Read α} {f : α → Read β} {post : α → Source → Prop} {after : β → Source → Prop}

theorem pure {a : α} (h : post a s) : Goes pattern (Pure.pure a) s post :=
  h

theorem bind (h : Goes pattern m s post)
    (hf : ∀ a s', post a s' → Goes pattern (f a) s' after) : Goes pattern (m >>= f) s after := by
  unfold Goes at h ⊢
  rw [StateT.run_bind]
  cases hrun : m.run s with
  | ok found =>
    rw [hrun] at h
    exact hf found.1 found.2 h
  | error error =>
    rw [hrun] at h
    cases error with
    | malformed flaw => trivial
    | overload overload => exact h

theorem mono (h : Goes pattern m s post) {weaker : α → Source → Prop}
    (hweaker : ∀ a s', post a s' → weaker a s') : Goes pattern m s weaker := by
  unfold Goes at h ⊢
  cases hrun : m.run s with
  | ok found =>
    rw [hrun] at h
    exact hweaker found.1 found.2 h
  | error error =>
    rw [hrun] at h
    cases error with
    | malformed flaw => trivial
    | overload overload => exact h

theorem ite {c : Prop} [Decidable c] {m' : Read α} (h : c → Goes pattern m s post)
    (h' : ¬c → Goes pattern m' s post) : Goes pattern (if c then m else m') s post := by
  split
  next hc => exact h hc
  next hc => exact h' hc

theorem get_bind {f : Source → Read β} (h : Goes pattern (f s) s after) :
    Goes pattern (get >>= f) s after :=
  h

theorem modify_bind {g : Source → Source} {f : Unit → Read β}
    (h : Goes pattern (f ()) (g s) after) : Goes pattern (modify g >>= f) s after :=
  h

end Goes

namespace Reads

variable {m : Read α} {f : α → Read β}

theorem of_lead (h : Reads pattern [] m) : Reads pattern lead m :=
  fun s hs => h s hs.forget

theorem pure (a : α) : Reads pattern lead (Pure.pure a) :=
  fun _ hs => Onward.of_flags hs rfl

theorem bind (h : Reads pattern lead m) (hf : ∀ a, Reads pattern [] (f a)) :
    Reads pattern lead (m >>= f) := fun s hs =>
  (h s hs).bind fun a s' hon => (hf a s' hon.stands).mono fun _ _ => hon.trans

/-- The state may be looked at. -/
theorem get_bind {f : Source → Read β} (h : ∀ s, Reads pattern lead (f s)) :
    Reads pattern lead (get >>= f) :=
  fun s hs => h s s hs

theorem complain (error : SyntaxError) :
    Reads pattern lead (throw (.malformed error) : Read α) :=
  fun _ _ => trivial

theorem fail (flaw : Flaw) (back : Nat) : Reads pattern lead (Pattern.fail flaw back : Read α) :=
  get_bind fun _ => complain _

theorem failAt (flaw : Flaw) (position : Nat) :
    Reads pattern lead (Pattern.failAt flaw position : Read α) :=
  complain _

theorem ite {c : Prop} [Decidable c] {m' : Read α} (h : Reads pattern lead m)
    (h' : Reads pattern lead m') : Reads pattern lead (if c then m else m') := by
  split
  · exact h
  · exact h'

/-- A complaint about flags may come before. -/
theorem barring {c : Prop} [Decidable c] {what : String} {back : Nat} (h : Reads pattern [] m) :
    Reads pattern [] (if c then (badFlags what back : Read PUnit) >>= fun _ => m else m) :=
  .ite (.bind (.fail _ _) fun _ => h) h

/-- What is read may be made into something else. -/
theorem returning (h : Reads pattern lead m) {g : α → β} :
    Reads pattern lead (m >>= fun a => Pure.pure (g a)) :=
  h.bind fun _ => pure _

/-- Flags may be changed for a while. -/
theorem withFlags (change : Flags → Flags) (h : Reads pattern [] m)
    (hf : ∀ a, Reads pattern [] (f a)) :
    Reads pattern lead (do
      let outside := (← get).flags
      modify fun s => { s with flags := change s.flags }
      let a ← m
      modify fun s => { s with flags := outside }
      f a) := by
  intro s hs
  refine Goes.get_bind (Goes.modify_bind ?_)
  have hinside := h { s with flags := change s.flags } (hs.forget.of_same rfl rfl)
  refine hinside.bind fun a s' hon => Goes.modify_bind ?_
  -- The flags are those from before, whatever has been turned on meanwhile.
  have hback : Behind pattern [] { s' with flags := s.flags } := hon.stands.of_same rfl rfl
  have hon : Onward pattern s { s' with flags := s.flags } := Onward.of_flags hback rfl
  exact (hf a _ hback).mono fun _ _ => hon.trans

/-- What a reader keeps about the pattern beside its place may change. -/
theorem modify {g : Source → Source} (h : ∀ s, (g s).token = s.token ∧ (g s).rest = s.rest ∧
    (g s).flags = s.flags) : Reads pattern lead (modify g) := fun s hs =>
  Onward.of_flags (hs.of_same (h s).1 (h s).2.1) (h s).2.2

end Reads

/-! ## Tokens -/

theorem goes_advance (h : Behind pattern lead s) : Goes pattern advance s fun _ s' =>
    Behind pattern (lead ++ s.token.getD []) s' ∧ s'.flags = s.flags := by
  obtain ⟨front, hfront⟩ := h
  refine Goes.get_bind ?_
  split
  next hrest => exact ⟨⟨front, by rw [hfront, hrest]; simp⟩, rfl⟩
  next => trivial
  next c rest _ hrest => exact ⟨⟨front, by rw [hfront, hrest]; simp⟩, rfl⟩
  next c rest _ _ hrest => exact ⟨⟨front, by rw [hfront, hrest]; simp⟩, rfl⟩

theorem goes_take (h : Behind pattern lead s) : Goes pattern take s fun token s' =>
    token = s.token ∧ Behind pattern (lead ++ s.token.getD []) s' ∧ s'.flags = s.flags :=
  Goes.get_bind ((goes_advance h).bind fun _ _ hafter => ⟨rfl, hafter⟩)

theorem goes_accept (c : Char) (h : Behind pattern lead s) : Goes pattern (accept c) s fun taken s' =>
    Behind pattern (if taken then lead ++ [c] else lead) s' ∧ s'.flags = s.flags := by
  refine Goes.get_bind ?_
  split
  next htoken =>
    refine (goes_advance h).bind fun _ s' hafter => ?_
    rw [beq_iff_eq.mp htoken] at hafter
    exact hafter
  next => exact ⟨h, rfl⟩

theorem goes_takeChars (p : Char → Bool) (count : Nat) (h : Behind pattern lead s) :
    Goes pattern (takeChars p count) s fun chars s' =>
      (∀ c ∈ chars, p c = true) ∧ Behind pattern (lead ++ chars) s' ∧ s'.flags = s.flags := by
  have hnothing : (∀ c ∈ ([] : List Char), p c = true) ∧ Behind pattern (lead ++ []) s ∧
      s.flags = s.flags := ⟨by simp, by rwa [List.append_nil], rfl⟩
  induction count generalizing lead s with
  | zero => exact hnothing
  | succ count ih =>
    refine Goes.get_bind ?_
    split
    next c htoken =>
      split
      next hc =>
        refine (goes_advance h).bind fun _ s' hafter => ?_
        rw [htoken] at hafter
        refine (ih hafter.1 ⟨by simp, by simpa using hafter.1, rfl⟩).bind fun chars s'' hchars => ?_
        obtain ⟨hall, hbehind, hflags⟩ := hchars
        refine ⟨List.forall_mem_cons.mpr ⟨hc, hall⟩, ?_, hflags.trans hafter.2⟩
        simpa using hbehind
      next => exact hnothing
    next => exact hnothing

namespace Reads

variable {m : Read α}

theorem taken : Reads pattern lead take :=
  fun _ hs => (goes_take hs).mono fun _ _ hafter => Onward.of_flags hafter.2.1 hafter.2.2

theorem take_bind {f : Option (List Char) → Read β} (hnone : Reads pattern lead (f none))
    (hsome : ∀ token, Reads pattern (lead ++ token) (f (some token))) :
    Reads pattern lead (take >>= f) := by
  intro s hs
  refine (goes_take hs).bind fun token s' hafter => ?_
  obtain ⟨rfl, hbehind, hflags⟩ := hafter
  have hon := Onward.of_flags hbehind hflags
  cases htoken : s.token with
  | none =>
    rw [htoken] at hbehind
    exact (hnone s' (by simpa using hbehind)).mono fun _ _ => hon.trans
  | some token =>
    rw [htoken] at hbehind
    exact (hsome token s' hbehind).mono fun _ _ => hon.trans

theorem accept_bind {c : Char} {f : Bool → Read β} (htrue : Reads pattern (lead ++ [c]) (f true))
    (hfalse : Reads pattern lead (f false)) : Reads pattern lead (accept c >>= f) := by
  intro s hs
  refine (goes_accept c hs).bind fun taken s' hafter => ?_
  have hon := Onward.of_flags hafter.1 hafter.2
  cases taken with
  | true => exact (htrue s' hafter.1).mono fun _ _ => hon.trans
  | false => exact (hfalse s' hafter.1).mono fun _ _ => hon.trans

theorem accept (c : Char) : Reads pattern lead (Pattern.accept c) :=
  fun _ hs => (goes_accept c hs).mono fun _ _ hafter => Onward.of_flags hafter.1 hafter.2

theorem takeChars_bind {p : Char → Bool} {count : Nat} {f : List Char → Read β}
    (h : ∀ chars, (∀ c ∈ chars, p c = true) → Reads pattern (lead ++ chars) (f chars)) :
    Reads pattern lead (takeChars p count >>= f) := by
  intro s hs
  refine (goes_takeChars p count hs).bind fun chars s' hafter => ?_
  obtain ⟨hall, hbehind, hflags⟩ := hafter
  exact (h chars hall s' hbehind).mono fun _ _ => (Onward.of_flags hbehind hflags).trans

theorem takeChars (p : Char → Bool) (count : Nat) : Reads pattern lead (Pattern.takeChars p count) :=
  fun _ hs => (goes_takeChars p count hs).mono fun _ _ hafter =>
    Onward.of_flags hafter.2.1 hafter.2.2

end Reads

end

end Mooring.Pattern
