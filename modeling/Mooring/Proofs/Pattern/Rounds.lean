import Mooring.Pattern.Match

/-!
# Searching, and repeating one character

A pattern is found in a text just if it matches at some place of it (`search_isSome_iff`).

A greedy repetition takes another round as long as there is one, and gives rounds back if what
follows does not match (`matchRounds_greedy`).  Of a piece that takes one character of a kind it
takes some run of such characters (`exists_run_of_star`).  It takes too many or too few of them only
if what follows matches there as well: wherever what follows matches behind a run, the whole does
(`star_isSome`).  For that the fuel has to be larger than the run is long, and no more.
-/

namespace Mooring.Pattern

variable {fuel least done : Nat} {most last : Option Nat} {body : List Piece} {piece : Piece}
variable {p : Char → Bool} {next : Continuation} {s stop : Cursor}

/-! ## Searching -/

theorem searchFrom_isSome_iff (pieces : List Piece) : ∀ (text before : List Char),
    (searchFrom pieces before text).isSome = true ↔
      ∃ front back, text = front ++ back ∧
        (matchAt pieces (front.reverse ++ before) back).isSome = true := by
  intro text
  induction text with
  | nil =>
    intro before
    rw [searchFrom]
    constructor
    · intro h
      exact ⟨[], [], rfl, h⟩
    · rintro ⟨front, back, hsplit, h⟩
      obtain ⟨rfl, rfl⟩ := List.append_eq_nil_iff.mp hsplit.symm
      exact h
  | cons c rest ih =>
    intro before
    rw [searchFrom]
    cases hhere : matchAt pieces before (c :: rest) with
    | some found =>
      have hplace : (matchAt pieces ([].reverse ++ before) (c :: rest)).isSome = true := by
        show (matchAt pieces before (c :: rest)).isSome = true
        rw [hhere]
        rfl
      exact ⟨fun _ => ⟨[], c :: rest, rfl, hplace⟩, fun _ => rfl⟩
    | none =>
      show (searchFrom pieces (c :: before) rest).isSome = true ↔ _
      rw [ih]
      constructor
      · rintro ⟨front, back, rfl, h⟩
        refine ⟨c :: front, back, rfl, ?_⟩
        rwa [List.reverse_cons, List.append_assoc]
      · rintro ⟨front, back, hsplit, h⟩
        cases front with
        | nil =>
          rw [← show c :: rest = back from hsplit] at h
          rw [List.reverse_nil, List.nil_append, hhere] at h
          exact absurd h (by simp)
        | cons d front =>
          obtain ⟨rfl, hrest⟩ := List.cons.inj hsplit
          rw [List.reverse_cons, List.append_assoc] at h
          exact ⟨front, back, hrest, h⟩

/-- **A pattern is found in a text just if it matches at a place of it.** -/
theorem search_isSome_iff (pieces : List Piece) (text : List Char) :
    (search pieces text).isSome = true ↔
      ∃ front back, text = front ++ back ∧ (matchAt pieces front.reverse back).isSome = true := by
  rw [search, searchFrom_isSome_iff]
  simp only [List.append_nil]

/-! ## Greedy rounds -/

/-- A greedy repetition goes on as long as it must, then as long as it can. -/
theorem matchRounds_greedy :
    matchRounds (fuel + 1) ⟨.greedy, least, most, body, done, last⟩ s next =
      if done < least then
        matchAll fuel body s fun s' =>
          matchRounds fuel ⟨.greedy, least, most, body, done + 1, last⟩ s' next
      else if (most.all (done < ·) && last != some s.after.length) = true then
        (matchAll fuel body s fun s' =>
          matchRounds fuel ⟨.greedy, least, most, body, done + 1, some s.after.length⟩ s' next).or
          (next s)
      else next s := by
  rw [matchRounds]
  dsimp only
  split
  · rfl
  · split
    · cases matchAll fuel body s fun s' =>
        matchRounds fuel ⟨.greedy, least, most, body, done + 1, some s.after.length⟩ s' next <;> rfl
    · rfl

/-! ## One character of a kind, any number of times -/

/-- The piece takes one character of a kind. -/
def TakesOne (piece : Piece) (p : Char → Bool) : Prop :=
  ∀ (fuel : Nat) (s : Cursor) (next : Continuation),
    matchPiece (fuel + 1) piece s next =
      match s.after with
      | c :: rest => if p c then next (s.step c rest) else none
      | [] => none

/-- The state behind a run of characters. -/
def Cursor.over (s : Cursor) (run rest : List Char) : Cursor :=
  { s with before := run.reverse ++ s.before, after := rest }

theorem Cursor.over_nil (s : Cursor) : s.over [] s.after = s := rfl

theorem Cursor.over_cons (s : Cursor) (c : Char) (run rest : List Char) :
    s.over (c :: run) rest = (s.step c (run ++ rest)).over run rest := by
  unfold Cursor.over Cursor.step
  dsimp only
  rw [List.reverse_cons, List.append_assoc]
  rfl

theorem TakesOne.exists_char (hone : TakesOne piece p)
    (h : matchAll fuel [piece] s next = some stop) :
    ∃ c rest, s.after = c :: rest ∧ p c = true ∧ next (s.step c rest) = some stop := by
  match fuel with
  | 0 => exact absurd h (by simp [matchAll])
  | 1 => exact absurd h (by simp [matchAll, matchPiece])
  | fuel + 2 =>
    rw [matchAll, hone] at h
    split at h
    next c rest hafter =>
      split at h
      next hp => exact ⟨c, rest, hafter, hp, h⟩
      next => exact absurd h (by simp)
    next => exact absurd h (by simp)

theorem TakesOne.matchAll_char (hone : TakesOne piece p) {c : Char} {rest : List Char}
    (hafter : s.after = c :: rest) (hp : p c = true) (fuel : Nat) (next : Continuation) :
    matchAll (fuel + 2) [piece] s next = next (s.step c rest) := by
  rw [matchAll, hone, hafter]
  show (if p c = true then _ else none) = _
  rw [if_pos hp, matchAll]

/-- **What is repeated greedily has taken a run**, and what follows has matched behind it. -/
theorem exists_run_of_star (hone : TakesOne piece p) : ∀ {fuel done : Nat} {last : Option Nat}
    {s : Cursor}, matchRounds fuel ⟨.greedy, 0, none, [piece], done, last⟩ s next = some stop →
      ∃ run rest, s.after = run ++ rest ∧ (∀ c ∈ run, p c = true) ∧
        next (s.over run rest) = some stop := by
  intro fuel
  induction fuel with
  | zero =>
    intro done last s h
    exact absurd h (by simp [matchRounds])
  | succ fuel ih =>
    intro done last s h
    have hstay (h : next s = some stop) : ∃ run rest, s.after = run ++ rest ∧
        (∀ c ∈ run, p c = true) ∧ next (s.over run rest) = some stop :=
      ⟨[], s.after, rfl, fun _ hc => absurd hc List.not_mem_nil, h⟩
    rw [matchRounds_greedy, if_neg (Nat.not_lt_zero done)] at h
    split at h
    · rcases Option.or_eq_some_iff.mp h with hround | ⟨-, hnext⟩
      · obtain ⟨c, after, hafter, hc, hmore⟩ := hone.exists_char hround
        obtain ⟨run, rest, hsplit, hrun, hnext⟩ := ih hmore
        have hrest : after = run ++ rest := hsplit
        refine ⟨c :: run, rest, ?_, List.forall_mem_cons.mpr ⟨hc, hrun⟩, ?_⟩
        · rw [hafter, hrest, List.cons_append]
        · rw [Cursor.over_cons, ← hrest]
          exact hnext
      · exact hstay hnext
    · exact hstay h

/-- **Where what follows matches behind a run, so does the repetition in front of it.** -/
theorem star_isSome (hone : TakesOne piece p) : ∀ {run rest : List Char} {fuel done : Nat}
    {last : Option Nat} {s : Cursor}, s.after = run ++ rest → (∀ c ∈ run, p c = true) →
      (∀ length, last = some length → s.after.length < length) → run.length + 2 < fuel →
      (next (s.over run rest)).isSome = true →
      (matchRounds fuel ⟨.greedy, 0, none, [piece], done, last⟩ s next).isSome = true := by
  intro run
  induction run with
  | nil =>
    intro rest fuel done last s hafter _ _ hfuel hnext
    obtain ⟨fuel, rfl⟩ : ∃ k, fuel = k + 1 := ⟨fuel - 1, by omega⟩
    rw [← show s.after = rest from hafter, Cursor.over_nil] at hnext
    rw [matchRounds_greedy, if_neg (Nat.not_lt_zero done)]
    split
    · rw [Option.isSome_or, hnext, Bool.or_true]
    · exact hnext
  | cons c run ih =>
    intro rest fuel done last s hafter hrun hlast hfuel hnext
    obtain ⟨hc, hrun⟩ := List.forall_mem_cons.mp hrun
    rw [List.length_cons] at hfuel
    rw [List.cons_append] at hafter
    obtain ⟨fuel, rfl⟩ : ∃ k, fuel = k + 3 := ⟨fuel - 3, by omega⟩
    -- The last round, if any, started with more text ahead, so there is another one.
    have hagain : ((none : Option Nat).all (done < ·) && last != some s.after.length) = true := by
      rw [Option.all_none, Bool.true_and, bne_iff_ne]
      intro heq
      exact absurd (hlast _ heq) (Nat.lt_irrefl _)
    have hround := @ih rest (fuel + 2) (done + 1) (some s.after.length) (s.step c (run ++ rest))
      rfl hrun
      (fun length hlength => by
        rw [← Option.some.inj hlength, hafter]
        exact Nat.lt_succ_self _)
      (by omega) (by rwa [← Cursor.over_cons])
    rw [matchRounds_greedy, if_neg (Nat.not_lt_zero done), if_pos hagain,
      hone.matchAll_char hafter hc, Option.isSome_or, hround, Bool.true_or]

end Mooring.Pattern
