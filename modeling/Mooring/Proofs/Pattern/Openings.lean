import Mathlib
import Mooring.Pattern.Reader
import Mooring.Pattern.Safe
import Mooring.Proofs.Pattern.Rounds

/-!
# Groups opened in a row

`opensTooMany` counts opening parentheses and starts again at a closing one.  What it finds is a
stretch of text with so many opening parentheses and no closing one (`opensTooMany_iff`).

The same is written as a pattern, a group that opens and goes on without any parenthesis, five times
or more (`nestingPattern`).  That a search for it finds the same texts (`search_nesting_iff`) takes
two directions: a match opens in every round and closes in none (`opens_of_rounds`), and where a
text opens so often the greedy rounds find the next opening parenthesis each time
(`rounds_isSome`), since a run without parentheses ends just there.
-/

namespace Mooring.Pattern

variable {count fuel : Nat}
variable {next : Continuation} {s stop : Cursor} {c : Char} {cs run rest : List Char}

/-! ## Opening without closing -/

/-- In the text there is a stretch with `count` opening parentheses and no closing one. -/
def OpensInRow (count : Nat) (cs : List Char) : Prop :=
  ∃ run, run <:+: cs ∧ ')' ∉ run ∧ run.count '(' = count

/-- Neither an opening nor a closing parenthesis. -/
def isNoParenthesis (c : Char) : Bool :=
  c != '(' && c != ')'

theorem isNoParenthesis_iff : isNoParenthesis c = true ↔ c ≠ '(' ∧ c ≠ ')' := by
  rw [isNoParenthesis, Bool.and_eq_true, bne_iff_ne, bne_iff_ne]

/-- The text starts with `count` opening parentheses, no closing one before the last of them. -/
inductive Opens : Nat → List Char → Prop
  | nothing (cs : List Char) : Opens 0 cs
  | another {count : Nat} {run rest : List Char} (hrun : ∀ c ∈ run, isNoParenthesis c = true)
      (hrest : Opens count rest) : Opens (count + 1) (run ++ '(' :: rest)

theorem not_opens_nil : ¬Opens (count + 1) [] := by
  intro h
  generalize htext : ([] : List Char) = text at h
  cases h with
  | another hrun hrest => exact absurd htext.symm (by simp)

theorem opens_open : Opens (count + 1) ('(' :: cs) ↔ Opens count cs := by
  constructor
  · intro h
    generalize htext : '(' :: cs = text at h
    cases h with
    | @another _ run rest hrun hrest =>
      cases run with
      | nil =>
        obtain ⟨-, rfl⟩ := List.cons.inj htext
        exact hrest
      | cons d run =>
        obtain ⟨rfl, -⟩ := List.cons.inj htext
        exact absurd rfl (isNoParenthesis_iff.mp (hrun _ List.mem_cons_self)).1
  · intro h
    exact @Opens.another count [] cs (fun _ hc => absurd hc List.not_mem_nil) h

theorem not_opens_close : ¬Opens (count + 1) (')' :: cs) := by
  intro h
  generalize htext : ')' :: cs = text at h
  cases h with
  | @another _ run rest hrun hrest =>
    cases run with
    | nil => exact absurd (List.cons.inj htext).1 (by decide)
    | cons d run =>
      obtain ⟨rfl, -⟩ := List.cons.inj htext
      exact absurd rfl (isNoParenthesis_iff.mp (hrun _ List.mem_cons_self)).2

/-- What is no parenthesis may stand in front. -/
theorem Opens.append (hrun : ∀ c ∈ run, isNoParenthesis c = true) (h : Opens count rest) :
    Opens count (run ++ rest) := by
  cases h with
  | nothing => exact .nothing _
  | another hmore hrest =>
    rw [← List.append_assoc]
    exact .another (List.forall_mem_append.mpr ⟨hrun, hmore⟩) hrest

theorem Opens.cons (hc : isNoParenthesis c = true) (h : Opens count rest) :
    Opens count (c :: rest) := by
  show Opens count ([c] ++ rest)
  exact Opens.append (List.forall_mem_singleton.mpr hc) h

theorem opens_other (hc : isNoParenthesis c = true) :
    Opens (count + 1) (c :: cs) ↔ Opens (count + 1) cs := by
  constructor
  · intro h
    generalize htext : c :: cs = text at h
    cases h with
    | @another _ run rest hrun hrest =>
      cases run with
      | nil => exact absurd (List.cons.inj htext).1 (isNoParenthesis_iff.mp hc).1
      | cons d run =>
        obtain ⟨-, rfl⟩ := List.cons.inj htext
        exact .another (List.forall_mem_cons.mp hrun).2 hrest
  · intro h
    exact Opens.cons hc h

/-- What opens so often opens less often. -/
theorem Opens.mono {count' : Nat} (h : Opens count cs) (hle : count' ≤ count) :
    Opens count' cs := by
  induction h generalizing count' with
  | nothing cs =>
    obtain rfl := Nat.le_zero.mp hle
    exact .nothing cs
  | another hrun hrest ih =>
    cases count' with
    | zero => exact .nothing _
    | succ count' => exact .another hrun (ih (Nat.le_of_succ_le_succ hle))

/-- Up to the first opening parenthesis there is none at all. -/
theorem Opens.exists_run (h : Opens count cs) : ∃ run rest, cs = run ++ rest ∧
    (∀ c ∈ run, isNoParenthesis c = true) ∧ (count = 0 ∨ ∃ more, rest = '(' :: more) ∧
      Opens count rest := by
  cases h with
  | nothing => exact ⟨[], cs, rfl, fun _ hc => absurd hc List.not_mem_nil, Or.inl rfl, .nothing cs⟩
  | @another _ run rest hrun hrest =>
    exact ⟨run, '(' :: rest, rfl, hrun, Or.inr ⟨rest, rfl⟩, opens_open.mpr hrest⟩

/-- A stretch that does not close opens as often as it has opening parentheses. -/
theorem opens_count (hclose : ')' ∉ run) (rest : List Char) :
    Opens (run.count '(') (run ++ rest) := by
  induction run with
  | nil => exact .nothing _
  | cons c run ih =>
    have hne : c ≠ ')' := fun heq => hclose (heq ▸ List.mem_cons_self)
    have hrun : ')' ∉ run := fun hmem => hclose (List.mem_cons_of_mem c hmem)
    by_cases hopen : c = '('
    · subst hopen
      rw [List.count_cons_self, List.cons_append]
      exact opens_open.mpr (ih hrun)
    · rw [List.count_cons_of_ne hopen, List.cons_append]
      have hc : isNoParenthesis c = true := isNoParenthesis_iff.mpr ⟨hopen, hne⟩
      exact Opens.cons hc (ih hrun)

theorem Opens.exists_prefix (h : Opens count cs) :
    ∃ run, run <+: cs ∧ ')' ∉ run ∧ run.count '(' = count := by
  induction h with
  | nothing cs => exact ⟨[], List.nil_prefix, List.not_mem_nil, rfl⟩
  | @another count run rest hrun hrest ih =>
    obtain ⟨more, ⟨tail, htail⟩, hclose, hcount⟩ := ih
    have hplain : ∀ d ∈ run, d ≠ '(' ∧ d ≠ ')' := fun d hd => isNoParenthesis_iff.mp (hrun d hd)
    refine ⟨run ++ '(' :: more, ⟨tail, ?_⟩, ?_, ?_⟩
    · rw [List.append_assoc, List.cons_append, htail]
    · rw [List.mem_append, List.mem_cons]
      rintro (hmem | heq | hmem)
      · exact (hplain _ hmem).2 rfl
      · exact absurd heq (by decide)
      · exact hclose hmem
    · rw [List.count_append, List.count_cons_self, hcount,
        List.count_eq_zero.mpr fun hmem => (hplain _ hmem).1 rfl, Nat.zero_add]

/-- **A text opens in a row just if it does so from some place on.** -/
theorem opensInRow_iff : OpensInRow count cs ↔ ∃ front back, cs = front ++ back ∧
    Opens count back := by
  constructor
  · rintro ⟨run, ⟨front, tail, rfl⟩, hclose, rfl⟩
    exact ⟨front, run ++ tail, List.append_assoc _ _ _, opens_count hclose tail⟩
  · rintro ⟨front, back, rfl, h⟩
    obtain ⟨run, hprefix, hclose, hcount⟩ := h.exists_prefix
    exact ⟨run, hprefix.isInfix.trans (List.suffix_append front back).isInfix, hclose, hcount⟩

theorem opensInRow_cons :
    OpensInRow count (c :: cs) ↔ Opens count (c :: cs) ∨ OpensInRow count cs := by
  rw [opensInRow_iff, opensInRow_iff]
  constructor
  · rintro ⟨front, back, hsplit, h⟩
    cases front with
    | nil =>
      rw [← show c :: cs = back from hsplit] at h
      exact Or.inl h
    | cons d front =>
      obtain ⟨-, rfl⟩ := List.cons.inj hsplit
      exact Or.inr ⟨front, back, rfl, h⟩
  · rintro (h | ⟨front, back, rfl, h⟩)
    · exact ⟨[], c :: cs, rfl, h⟩
    · exact ⟨c :: front, back, rfl, h⟩

/-! ## Counting -/

/-- The count so far is what the text need not open any more. -/
theorem opensTooMany_iff_from : ∀ {cs : List Char} {count left : Nat},
    count + (left + 1) = maxOpenings →
      (opensTooMany count cs = true ↔ Opens (left + 1) cs ∨ OpensInRow maxOpenings cs) := by
  intro cs
  induction cs with
  | nil =>
    intro count left _
    rw [opensTooMany]
    constructor
    · intro h
      exact absurd h Bool.false_ne_true
    · rintro (h | h)
      · exact absurd h not_opens_nil
      · obtain ⟨front, back, hsplit, hback⟩ := opensInRow_iff.mp h
        obtain ⟨rfl, rfl⟩ := List.append_eq_nil_iff.mp hsplit.symm
        exact absurd hback not_opens_nil
  | cons c rest ih =>
    intro count left hcount
    have hmax : maxOpenings = 4 + 1 := rfl
    rw [opensTooMany, opensInRow_cons]
    by_cases hopen : c = '('
    · subst hopen
      rw [if_pos (beq_self_eq_true _), opens_open, Bool.or_eq_true, decide_eq_true_iff, hmax,
        opens_open]
      -- To open five times from here is to open as often as is left, and more.
      have hless (h : Opens 4 rest) : Opens left rest := h.mono (by omega)
      cases left with
      | zero =>
        exact ⟨fun _ => Or.inl (.nothing rest), fun _ => Or.inl (by omega)⟩
      | succ left =>
        rw [ih (show count + 1 + (left + 1) = maxOpenings by omega), hmax]
        constructor
        · rintro (hlast | h | h)
          · omega
          · exact Or.inl h
          · exact Or.inr (Or.inr h)
        · rintro (h | h | h)
          · exact Or.inr (Or.inl h)
          · exact Or.inr (Or.inl (hless h))
          · exact Or.inr (Or.inr h)
    · rw [if_neg (by simpa using hopen)]
      by_cases hclose : c = ')'
      · subst hclose
        rw [if_pos (beq_self_eq_true _), ih (show 0 + (4 + 1) = maxOpenings from rfl), hmax]
        constructor
        · rintro (h | h)
          · exact Or.inr (Or.inr (opensInRow_iff.mpr ⟨[], rest, rfl, h⟩))
          · exact Or.inr (Or.inr h)
        · rintro (h | h | h)
          · exact absurd h not_opens_close
          · exact absurd h not_opens_close
          · exact Or.inr h
      · have hother : isNoParenthesis c = true := isNoParenthesis_iff.mpr ⟨hopen, hclose⟩
        rw [if_neg (by simpa using hclose), ih hcount, hmax, opens_other hother,
          opens_other hother]
        constructor
        · rintro (h | h)
          · exact Or.inl h
          · exact Or.inr (Or.inr h)
        · rintro (h | h | h)
          · exact Or.inl h
          · exact Or.inl (h.mono (by omega))
          · exact Or.inr h

/-- **Counting finds a stretch that opens five times and does not close.** -/
theorem opensTooMany_iff (cs : List Char) :
    opensTooMany 0 cs = true ↔ OpensInRow maxOpenings cs := by
  rw [opensTooMany_iff_from (show 0 + (4 + 1) = maxOpenings from rfl)]
  constructor
  · rintro (h | h)
    · exact opensInRow_iff.mpr ⟨[], cs, rfl, h⟩
    · exact h
  · exact Or.inr

/-! ## The same as a pattern -/

/-- Five groups that open in a row, as a pattern. -/
def nestingPattern : String :=
  "(\\([^()]*)\x7b5,\x7d"

/-- A character that is no parenthesis. -/
def plainPiece : Piece :=
  .set .exact true [.char '(', .char ')']

/-- An opening parenthesis, and what comes before the next parenthesis. -/
def openingPiece : Piece :=
  .group (some 1) [.char .exact '(', .repetition .greedy 0 none [plainPiece]]

/-- The pieces of that pattern. -/
def nesting : List Piece :=
  [.repetition .greedy maxOpenings none [openingPiece]]

theorem read_nestingPattern : read {} nestingPattern.toList = .ok nesting := by
  cbv

theorem takesOne_plainPiece : TakesOne plainPiece isNoParenthesis := by
  intro fuel s next
  have hkind (c : Char) : (([.char '(', .char ')'] : List Member).any (Member.holds .exact c) !=
      true) = isNoParenthesis c := by
    show ((('(' == c) || ((')' == c) || false)) != true) = (c != '(' && c != ')')
    rw [Bool.or_false, Bool.bne_true, Bool.not_or, BEq.comm (a := '('), BEq.comm (a := ')')]
    rfl
  rw [plainPiece, matchPiece]
  cases s.after with
  | nil => rfl
  | cons c rest =>
    dsimp only
    rw [hkind]

/-! ### One round -/

theorem matchAll_openingPiece (fuel : Nat) (s : Cursor) (next : Continuation) :
    matchAll (fuel + 5) [openingPiece] s next =
      match s.after with
      | d :: rest =>
        if '(' == d then
          matchRounds fuel ⟨.greedy, 0, none, [plainPiece], 0, none⟩ (s.step d rest) fun s' =>
            next { s' with captures := (1, between s s') :: s'.captures }
        else none
      | [] => none := by
  simp only [openingPiece, matchAll, matchPiece, Fold.same]
  cases s.after <;> rfl

theorem matchAll_openingPiece_short (hfuel : fuel < 5) (s : Cursor) (next : Continuation) :
    matchAll fuel [openingPiece] s next = none := by
  have hcases : fuel = 0 ∨ fuel = 1 ∨ fuel = 2 ∨ fuel = 3 ∨ fuel = 4 := by omega
  rcases hcases with rfl | rfl | rfl | rfl | rfl <;>
    simp only [openingPiece, matchAll, matchPiece]
  cases s.after with
  | nil => rfl
  | cons d rest =>
    dsimp only
    split <;> rfl

/-- **A round opens, and goes on up to some place before the next parenthesis.** -/
theorem exists_of_openingPiece (h : matchAll fuel [openingPiece] s next = some stop) :
    ∃ run rest s', s.after = '(' :: (run ++ rest) ∧ (∀ c ∈ run, isNoParenthesis c = true) ∧
      s'.after = rest ∧ next s' = some stop := by
  rcases Nat.lt_or_ge fuel 5 with hshort | hlong
  · rw [matchAll_openingPiece_short hshort] at h
    exact absurd h (by simp)
  · obtain ⟨fuel, rfl⟩ := Nat.exists_eq_add_of_le' hlong
    rw [matchAll_openingPiece] at h
    cases hafter : s.after with
    | nil =>
      rw [hafter] at h
      exact absurd h (by simp)
    | cons d after =>
      rw [hafter] at h
      dsimp only at h
      split at h
      next hopen =>
        obtain ⟨run, rest, hsplit, hrun, hnext⟩ := exists_run_of_star takesOne_plainPiece h
        have hrest : after = run ++ rest := hsplit
        exact ⟨run, rest, _, by rw [← beq_iff_eq.mp hopen, hrest], hrun, rfl, hnext⟩
      next => exact absurd h (by simp)

/-- A round reaches every place before the next parenthesis from which the rest matches. -/
theorem openingPiece_isSome (hafter : s.after = '(' :: (run ++ rest))
    (hrun : ∀ c ∈ run, isNoParenthesis c = true) (hfuel : run.length + 7 < fuel)
    (hnext : ∀ s', s'.after = rest → (next s').isSome = true) :
    (matchAll fuel [openingPiece] s next).isSome = true := by
  obtain ⟨fuel, rfl⟩ := Nat.exists_eq_add_of_le' (show 5 ≤ fuel by omega)
  rw [matchAll_openingPiece, hafter]
  show (if ('(' == '(') = true then _ else none : Option Cursor).isSome = true
  rw [if_pos (beq_self_eq_true _)]
  refine star_isSome takesOne_plainPiece rfl hrun ?_ (by omega) (hnext _ rfl)
  intro length hlast
  exact absurd hlast (by simp)

/-! ### All rounds -/

/-- **Where the rounds have matched, the text opens as often as rounds are due.** -/
theorem opens_of_rounds : ∀ {fuel done : Nat} {last : Option Nat} {s : Cursor},
    matchRounds fuel ⟨.greedy, maxOpenings, none, [openingPiece], done, last⟩ s next = some stop →
      Opens (maxOpenings - done) s.after := by
  intro fuel
  induction fuel with
  | zero =>
    intro done last s h
    exact absurd h (by simp [matchRounds])
  | succ fuel ih =>
    intro done last s h
    by_cases hdone : done < maxOpenings
    · rw [matchRounds_greedy, if_pos hdone] at h
      obtain ⟨run, rest, s', hafter, hrun, hrest, hmore⟩ := exists_of_openingPiece h
      have hopens := ih hmore
      rw [hrest] at hopens
      rw [hafter, show maxOpenings - done = maxOpenings - (done + 1) + 1 by omega]
      exact opens_open.mpr (hopens.append hrun)
    · rw [show maxOpenings - done = 0 by omega]
      exact .nothing _

/-- **Where the text opens as often as rounds are due, the rounds match.** -/
theorem rounds_isSome (hnext : ∀ s, (next s).isSome = true) : ∀ {left fuel done : Nat}
    {last : Option Nat} {s : Cursor}, done + left = maxOpenings → Opens left s.after →
      (left = 0 ∨ ∃ more, s.after = '(' :: more) → s.after.length + left + 8 < fuel →
      (matchRounds fuel ⟨.greedy, maxOpenings, none, [openingPiece], done, last⟩ s next).isSome =
        true := by
  intro left
  induction left with
  | zero =>
    intro fuel done last s hdone _ _ hfuel
    obtain ⟨fuel, rfl⟩ := Nat.exists_eq_add_of_le' (show 1 ≤ fuel by omega)
    rw [matchRounds_greedy, if_neg (by omega)]
    split
    · rw [Option.isSome_or, hnext, Bool.or_true]
    · exact hnext s
  | succ left ih =>
    intro fuel done last s hdone hopens hstart hfuel
    obtain ⟨fuel, rfl⟩ := Nat.exists_eq_add_of_le' (show 1 ≤ fuel by omega)
    obtain ⟨more, hmore⟩ := hstart.resolve_left (Nat.succ_ne_zero left)
    rw [hmore, opens_open] at hopens
    -- The next round has to start at the next parenthesis, if there is another round.
    obtain ⟨run, rest, rfl, hrun, hnextStart, hrest⟩ := hopens.exists_run
    rw [hmore, List.length_cons, List.length_append] at hfuel
    rw [matchRounds_greedy, if_pos (by omega)]
    refine openingPiece_isSome hmore hrun (by omega) fun s' hs' => ?_
    subst hs'
    exact ih (by omega) hrest hnextStart (by omega)

/-- A match at a place is five rounds from there on, with fuel for every character of the text. -/
theorem matchAt_nesting_isSome (before after : List Char) :
    ∃ fuel, after.length + maxOpenings + 8 < fuel ∧ (matchAt nesting before after).isSome =
      (matchRounds fuel ⟨.greedy, maxOpenings, none, [openingPiece], 0, none⟩ ⟨before, after, []⟩
        some).isSome := by
  have hbudget (n : Nat) : budgetOf n nesting =
      (maxOpenings + n + 2) * (budgetOf n [openingPiece] + 2) + 2 + 1 := by
    rw [nesting, budgetOf, Piece.budget, budgetOf]
  rw [matchAt, Option.isSome_map, hbudget]
  generalize budgetOf (before.length + after.length) [openingPiece] = inner
  refine ⟨_, ?_, rfl⟩
  have hrounds : (maxOpenings + (before.length + after.length) + 2) * 2 ≤
      (maxOpenings + (before.length + after.length) + 2) * (inner + 2) :=
    Nat.mul_le_mul_left _ (Nat.le_add_left 2 inner)
  have hmax : maxOpenings = 5 := rfl
  omega

/-- The pattern matches at a place just if the text opens five times from there, starting with an
opening parenthesis. -/
theorem matchAt_nesting_iff (before after : List Char) :
    (matchAt nesting before after).isSome = true ↔
      Opens maxOpenings after ∧ ∃ more, after = '(' :: more := by
  obtain ⟨fuel, hfuel, hrounds⟩ := matchAt_nesting_isSome before after
  rw [hrounds]
  constructor
  · intro h
    obtain ⟨stop, hstop⟩ := Option.isSome_iff_exists.mp h
    refine ⟨opens_of_rounds hstop, ?_⟩
    obtain ⟨fuel, rfl⟩ := Nat.exists_eq_add_of_le' (show 1 ≤ fuel by omega)
    rw [matchRounds_greedy, if_pos (show 0 < maxOpenings by decide)] at hstop
    obtain ⟨run, rest, -, hafter, -⟩ := exists_of_openingPiece hstop
    exact ⟨run ++ rest, hafter⟩
  · rintro ⟨hopens, hstart⟩
    exact rounds_isSome (fun _ => rfl) (Nat.zero_add _) hopens (Or.inr hstart) hfuel

/-- **The pattern is found just where a stretch opens five times and does not close.** -/
theorem search_nesting_iff (cs : List Char) :
    (search nesting cs).isSome = true ↔ OpensInRow maxOpenings cs := by
  rw [search_isSome_iff, opensInRow_iff]
  constructor
  · rintro ⟨front, back, hsplit, h⟩
    exact ⟨front, back, hsplit, ((matchAt_nesting_iff _ _).mp h).1⟩
  · rintro ⟨front, back, rfl, h⟩
    obtain ⟨run, rest, rfl, -, hstart, hrest⟩ := h.exists_run
    refine ⟨front ++ run, rest, (List.append_assoc _ _ _).symm, ?_⟩
    exact (matchAt_nesting_iff _ _).mpr ⟨hrest, hstart.resolve_left (by decide)⟩

end Mooring.Pattern
