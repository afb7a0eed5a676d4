import Mathlib.Data.List.Dedup
import Mathlib.Data.List.Induction
import Mathlib.Data.List.Permutation
import Mooring.Proofs.Sorting
import Mooring.Selector.Generate

/-!
# Preferring strategies

Preferring strategies sorts the selectors of an element by the place that each one's strategy has in
the list of preferences.  The sort is stable, so for every list, repeated and unknown names
included, the same selectors come out, and those of one strategy as well as those of all strategies
that are not listed keep their order (`filter_mergeSort`).

The place is that of a name's *last* mention, and a strategy that is not listed stands where the
*distinct* names end (`rank_eq`).  Without repetitions these are the place of the first mention and
the end of the list, and the strategies come in the order that was asked for; that there are none is
a real assumption, and it cannot be dropped.
-/

namespace Mooring

/-! ## The last value that is put -/

namespace Table

variable {α : Type}

theorem get?_ofPairs_concat (name : String) (pairs : List (String × α)) (last : String × α) :
    (ofPairs (pairs ++ [last])).get? name =
      if last.1 = name then some last.2 else (ofPairs pairs).get? name := by
  rw [ofPairs_append]
  show (put last.1 last.2 (ofPairs pairs)).get? name = _
  by_cases h : last.1 = name
  · rw [if_pos h, h, get?_put_self]
  · rw [if_neg h, get?_put_of_ne (Ne.symm h)]

theorem mem_names_put {name other : String} (value : α) (table : Table α) :
    other ∈ names (put name value table) ↔ other ∈ names table ∨ other = name := by
  rw [names_put]
  split
  next hold => exact (or_iff_left_of_imp fun heq => heq ▸ hold).symm
  next => rw [List.mem_append, List.mem_singleton]

theorem mem_names_ofPairs {name : String} (pairs : List (String × α)) :
    name ∈ names (ofPairs pairs) ↔ name ∈ names pairs := by
  induction pairs using List.reverseRecOn with
  | nil => exact Iff.rfl
  | append_singleton pairs last ih =>
    rw [ofPairs_append]
    show name ∈ names (put last.1 last.2 (ofPairs pairs)) ↔ _
    rw [mem_names_put, ih]
    simp [names]

/-- A table has one entry for each of the names that are put. -/
theorem length_ofPairs (pairs : List (String × α)) :
    (ofPairs pairs).length = (names pairs).dedup.length := by
  have hperm : (names (ofPairs pairs)).Perm (names pairs).dedup := by
    apply (List.perm_ext_iff_of_nodup (nodup_names_ofPairs pairs) (List.nodup_dedup _)).mpr
    intro name
    rw [mem_names_ofPairs, List.mem_dedup]
  rw [← hperm.length_eq, names, List.length_map]

end Table

namespace Selector

/-! ## The place of a strategy -/

/-- The place of a name's last mention; a name that is not mentioned stands where the distinct names
end. -/
def lastPlace (prefer : List String) (name : String) : Nat :=
  if name ∈ prefer then prefer.length - 1 - prefer.reverse.idxOf name else prefer.dedup.length

theorem lastPlace_concat (prefer : List String) (last name : String) :
    name ∈ prefer ++ [last] → lastPlace (prefer ++ [last]) name =
      if last = name then prefer.length else lastPlace prefer name := by
  intro hmem
  rw [lastPlace, if_pos hmem, List.reverse_append, List.reverse_singleton, List.singleton_append,
    List.length_append, List.length_singleton]
  by_cases h : last = name
  · rw [if_pos h, h, List.idxOf_cons_self]
    omega
  · have hfront : name ∈ prefer :=
      (List.mem_append.mp hmem).resolve_right fun hlast => h (List.mem_singleton.mp hlast).symm
    rw [if_neg h, List.idxOf_cons_ne _ h, lastPlace, if_pos hfront]
    omega

theorem names_zipIdx (prefer : List String) : Table.names prefer.zipIdx = prefer :=
  List.zipIdx_map_fst 0 prefer

theorem get?_ofPairs_zipIdx {name : String} (prefer : List String) :
    (Table.ofPairs prefer.zipIdx).get? name =
      if name ∈ prefer then some (lastPlace prefer name) else none := by
  induction prefer using List.reverseRecOn with
  | nil => rfl
  | append_singleton prefer last ih =>
    rw [List.zipIdx_append, List.zipIdx_singleton, Table.get?_ofPairs_concat, ih]
    by_cases hmem : name ∈ prefer ++ [last]
    · rw [if_pos hmem, lastPlace_concat prefer last name hmem]
      by_cases h : last = name
      · rw [if_pos h, if_pos h, Nat.zero_add]
      · have hfront : name ∈ prefer :=
          (List.mem_append.mp hmem).resolve_right fun hlast => h (List.mem_singleton.mp hlast).symm
        rw [if_neg h, if_neg h, if_pos hfront]
    · have hfront : name ∉ prefer := fun h => hmem (List.mem_append_left _ h)
      have hlast : last ≠ name := fun h => hmem (by simp [h])
      rw [if_neg hmem, if_neg hlast, if_neg hfront]

/-- **The rank of a strategy is the place of its last mention.** -/
theorem rank_eq (prefer : List String) (strategy : Strategy) :
    rank prefer strategy = lastPlace prefer strategy.name := by
  show ((Table.ofPairs prefer.zipIdx).get? strategy.name).getD
    (Table.ofPairs prefer.zipIdx).length = _
  rw [get?_ofPairs_zipIdx, Table.length_ofPairs, names_zipIdx]
  by_cases h : strategy.name ∈ prefer
  · rw [if_pos h, Option.getD_some]
  · rw [if_neg h, Option.getD_none, lastPlace, if_neg h]

/-- Without repetitions the last mention is the first, and the distinct names end with the list. -/
theorem lastPlace_of_nodup {prefer : List String} (h : prefer.Nodup) (name : String) :
    lastPlace prefer name = prefer.idxOf name := by
  induction prefer using List.reverseRecOn with
  | nil => rfl
  | append_singleton prefer last ih =>
    obtain ⟨hfront, -, hnew⟩ := List.nodup_append.mp h
    by_cases hmem : name ∈ prefer ++ [last]
    · rw [lastPlace_concat prefer last name hmem]
      by_cases hlast : last = name
      · have hnot : name ∉ prefer := fun hin => hnew name hin last (by simp) hlast.symm
        rw [if_pos hlast, List.idxOf_append_of_notMem hnot, hlast, List.idxOf_cons_self]
        rfl
      · have hin : name ∈ prefer :=
          (List.mem_append.mp hmem).resolve_right fun h => hlast (List.mem_singleton.mp h).symm
        rw [if_neg hlast, ih hfront, List.idxOf_append_of_mem hin]
    · rw [lastPlace, if_neg hmem, h.dedup, List.idxOf_eq_length hmem]

/-! ## The selectors in order -/

/-- The list of preferences asks for one selector no later than for another: the name of its
strategy is first mentioned no later.  What is not mentioned stands at the end. -/
def AsksFirst (prefer : List String) (a b : Offer) : Prop :=
  prefer.idxOf a.strategy.name ≤ prefer.idxOf b.strategy.name

instance (prefer : List String) (a b : Offer) : Decidable (AsksFirst prefer a b) :=
  inferInstanceAs (Decidable (_ ≤ _))

variable (attrs : Table String) (tag : String) (text : Option String) (prefer : List String)

/-- The selectors that an element offers, as the list of preferences sorts them. -/
def arranged : List Offer :=
  (offers attrs tag text).mergeSort fun a b => rank prefer a.strategy ≤ rank prefer b.strategy

theorem perm_arranged : (arranged attrs tag text prefer).Perm (offers attrs tag text) :=
  List.mergeSort_perm _ _

/-- An empty list of preferences sorts as well: it leaves all as they are. -/
theorem generate_eq_arranged :
    generate attrs tag text prefer = (arranged attrs tag text prefer).map (·.selector) := by
  cases prefer with
  | nil =>
    have hsame : arranged attrs tag text [] = offers attrs tag text :=
      List.mergeSort_of_pairwise (List.pairwise_of_forall fun _ _ => rfl)
    rw [hsame]
    rfl
  | cons first rest => rfl

theorem pairwise_arranged :
    (arranged attrs tag text prefer).Pairwise fun a b =>
      lastPlace prefer a.strategy.name ≤ lastPlace prefer b.strategy.name := by
  have hranked := pairwise_mergeSort_key (fun a : Offer => rank prefer a.strategy)
    (fun _ _ => decide_eq_true_iff) (offers attrs tag text)
  refine hranked.imp fun {a b} hle => ?_
  rwa [rank_eq, rank_eq] at hle

theorem filter_strategy_arranged (strategy : Strategy) :
    (arranged attrs tag text prefer).filter (·.strategy = strategy) =
      (offers attrs tag text).filter (·.strategy = strategy) := by
  apply filter_mergeSort (fun a : Offer => rank prefer a.strategy) fun _ _ => decide_eq_true_iff
  intro a _ b _ ha hb
  rw [of_decide_eq_true ha, of_decide_eq_true hb]

theorem filter_unlisted_arranged :
    (arranged attrs tag text prefer).filter (·.strategy.name ∉ prefer) =
      (offers attrs tag text).filter (·.strategy.name ∉ prefer) := by
  apply filter_mergeSort (fun a : Offer => rank prefer a.strategy) fun _ _ => decide_eq_true_iff
  intro a _ b _ ha hb
  rw [rank_eq, rank_eq, lastPlace, lastPlace, if_neg (of_decide_eq_true ha),
    if_neg (of_decide_eq_true hb)]

/-- **Preferring strategies moves selectors and neither adds nor drops any.**  For every element and
every list of names, the selectors come out as a permutation of those without preferences, sorted by
the last mention of their strategies' names.  The selectors of one strategy keep their order, and so
do those of all strategies that are not listed.  If no name is repeated, the selectors of listed
strategies precede the others, in the order in which their strategies are first mentioned. -/
theorem generate_arranges :
    ∃ moved : List Offer,
      generate attrs tag text = (offers attrs tag text).map (·.selector) ∧
      generate attrs tag text prefer = moved.map (·.selector) ∧
      moved.Perm (offers attrs tag text) ∧
      (∀ strategy, moved.filter (·.strategy = strategy) =
        (offers attrs tag text).filter (·.strategy = strategy)) ∧
      moved.filter (·.strategy.name ∉ prefer) =
        (offers attrs tag text).filter (·.strategy.name ∉ prefer) ∧
      moved.Pairwise (fun a b =>
        lastPlace prefer a.strategy.name ≤ lastPlace prefer b.strategy.name) ∧
      (prefer.Nodup → moved.Pairwise (AsksFirst prefer)) := by
  refine ⟨arranged attrs tag text prefer, rfl, generate_eq_arranged attrs tag text prefer,
    perm_arranged attrs tag text prefer, filter_strategy_arranged attrs tag text prefer,
    filter_unlisted_arranged attrs tag text prefer, pairwise_arranged attrs tag text prefer, ?_⟩
  intro hnodup
  refine (pairwise_arranged attrs tag text prefer).imp fun {a b} hle => ?_
  rwa [lastPlace_of_nodup hnodup, lastPlace_of_nodup hnodup] at hle

/-- An element with a selector of every strategy, and a list with a name that is no strategy: the
selectors by text and by role come first, whatever more the list names between them. -/
theorem generate_arranges_textFirst :
    ["text", "label", "role"].Nodup ∧
      ∃ moved : List Offer,
        generate [("data-qa", "t"), ("role", "tab"), ("class", "c")] "li" (some "Pay")
          ["text", "label", "role"] = moved.map (·.selector) ∧
        moved.Pairwise (AsksFirst ["text", "label", "role"]) := by
  have hnodup : ["text", "label", "role"].Nodup := by decide
  obtain ⟨moved, -, hmoved, -, -, -, -, hasked⟩ :=
    generate_arranges [("data-qa", "t"), ("role", "tab"), ("class", "c")] "li" (some "Pay")
      ["text", "label", "role"]
  exact ⟨hnodup, moved, hmoved, hasked hnodup⟩

theorem offers_tab :
    offers [("role", "tab"), ("id", "a")] "li" none = [⟨.css, "#a"⟩, ⟨.role, "role:tab"⟩] := by
  decide +kernel

/-- A repeated name moves its strategy back: the list asks for roles first, and with its second
mention a role has the last place. -/
theorem generate_moves_back :
    ¬∃ moved : List Offer,
      generate [("role", "tab"), ("id", "a")] "li" none ["role", "css", "role"] =
        moved.map (·.selector) ∧
      moved.Perm (offers [("role", "tab"), ("id", "a")] "li" none) ∧
      moved.Pairwise (AsksFirst ["role", "css", "role"]) := by
  rintro ⟨moved, hmoved, hperm, hasked⟩
  have hsame : arranged [("role", "tab"), ("id", "a")] "li" none ["role", "css", "role"] =
      offers [("role", "tab"), ("id", "a")] "li" none := by
    apply List.mergeSort_of_pairwise
    rw [offers_tab]
    decide +kernel
  rw [generate_eq_arranged, hsame, offers_tab] at hmoved
  rw [offers_tab] at hperm
  rcases List.perm_pair.mp hperm with rfl | rfl
  · exact absurd (List.rel_of_pairwise_cons hasked List.mem_cons_self) (by decide)
  · exact absurd (List.cons_eq_cons.mp hmoved).1 (by decide)

end Selector

end Mooring
