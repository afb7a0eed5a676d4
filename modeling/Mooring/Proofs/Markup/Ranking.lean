import Mooring.Markup.Ranking
import Mooring.Proofs.Fragment.Similarity
import Mooring.Proofs.Fragment.Stored

/-!
# Rankings are in order, whole or cut off

A ranking sorts by a comparison of doubles, and that is no order if one of them is no number.  Scores
are shares, though, and shares compare as their bits do.  So on scored nodes the comparison is that
of a key of three natural numbers (`before_iff`), and the ranking is sorted (`pairwise_rank`): if no
two nodes have the same place in the document, each one outranks all that follow it.

A list in which each item outranks the following ones is determined by its items.  Hence cutting the
scan off after some nodes leaves out the others and changes nothing else (`rank_take_sublist`).
-/

namespace Mooring.Markup

open Mooring.Decimal Mooring.Fragment

/-! ## Scores -/

theorem isShare_sought (sought : Sought) (node : Node) : IsShare (sought.score node) := by
  unfold Sought.score
  split
  · exact isShare_one
  · split
    · exact isShare_similarity _ _
    · exact isShare_zero

theorem round_sought (sought : Sought) (node : Node) :
    Scalar.round 6 (sought.score node : Float) = sought.score node := by
  unfold Sought.score
  split
  · exact round_one
  · split
    · exact round_similarity _ _
    · exact round_zero

namespace Sought

variable (sought : Sought)

/-- The node with its score. -/
def scored (node : Node) : Ranked Float :=
  ⟨node, sought.score node⟩

/-- One node comes before another: it scores more; or it scores the same and is closer to the line
that is looked near; or it is as close and comes earlier in the document. -/
def Outranks (a b : Ranked Float) : Prop :=
  b.score < a.score ∨ a.score = b.score ∧
    (sought.distance a.node < sought.distance b.node ∨
      sought.distance a.node = sought.distance b.node ∧ a.node.order < b.node.order)

/-- What the ranking sorts by, smallest first. -/
def key (r : Ranked Float) : Natᵒᵈ ×ₗ Nat ×ₗ Nat :=
  toLex (OrderDual.toDual r.score.toBits.toNat, toLex (sought.distance r.node, r.node.order))

variable {sought} {a b : Ranked Float}

theorem toBits_eq_iff {x y : Float} : x.toBits.toNat = y.toBits.toNat ↔ x = y :=
  ⟨eq_of_toBits, fun h => h ▸ rfl⟩

theorem key_lt_iff (ha : IsShare a.score) (hb : IsShare b.score) :
    sought.key a < sought.key b ↔ sought.Outranks a b := by
  rw [Outranks, hb.lt_iff ha, ← toBits_eq_iff]
  simp only [key, Prod.Lex.lt_iff, ofLex_toLex, OrderDual.toDual_lt_toDual, OrderDual.toDual_inj]

theorem before_iff (ha : IsShare a.score) (hb : IsShare b.score) :
    sought.before a b = true ↔ sought.key a ≤ sought.key b := by
  have hmore : Scalar.less b.score a.score = true ↔ b.score.toBits.toNat < a.score.toBits.toNat :=
    decide_eq_true_iff.trans (hb.lt_iff ha)
  have hless : Scalar.less a.score b.score = true ↔ a.score.toBits.toNat < b.score.toBits.toNat :=
    decide_eq_true_iff.trans (ha.lt_iff hb)
  simp only [key, Prod.Lex.le_iff, ofLex_toLex, OrderDual.toDual_lt_toDual, OrderDual.toDual_inj]
  unfold before
  split_ifs with h₁ h₂ h₃ <;> simp only [hmore, hless, bne_iff_ne, decide_eq_true_eq] at * <;> grind

theorem outranks_asymm (h : sought.Outranks a b) : ¬sought.Outranks b a := by
  rintro (hback | ⟨hsame, hback⟩)
  · rcases h with hmore | ⟨hsame, -⟩
    · exact not_lt_of_le (le_of_lt hmore) hback
    · rw [hsame] at hback
      exact not_lt_of_le (le_of_lt hback) hback
  · rcases h with hmore | ⟨-, h⟩
    · rw [hsame] at hmore
      exact not_lt_of_le (le_of_lt hmore) hmore
    · omega

/-! ## The ranking is sorted -/

variable (sought) (nodes : List Node)

theorem perm_rank : (sought.rank nodes).Perm (nodes.map sought.scored) :=
  List.mergeSort_perm _ _

/-- **Each node is ranked once.** -/
theorem perm_nodes_rank : ((sought.rank nodes : List (Ranked Float)).map (·.node)).Perm nodes := by
  have hperm := (sought.perm_rank nodes).map (·.node)
  rw [List.map_map] at hperm
  exact hperm.trans (List.Perm.of_eq (List.map_id nodes))

theorem eq_scored {r : Ranked Float} (hr : r ∈ sought.rank nodes) :
    r = sought.scored r.node ∧ r.node ∈ nodes := by
  obtain ⟨node, hnode, rfl⟩ := List.mem_map.mp ((sought.perm_rank nodes).mem_iff.mp hr)
  exact ⟨rfl, hnode⟩

theorem isShare_of_mem_rank {r : Ranked Float} (hr : r ∈ sought.rank nodes) : IsShare r.score := by
  rw [(sought.eq_scored nodes hr).1]
  exact isShare_sought sought _

theorem pairwise_key_rank :
    (sought.rank nodes).Pairwise fun a b => sought.key a ≤ sought.key b := by
  have hcompare : ∀ a ∈ nodes.map sought.scored, ∀ b ∈ nodes.map sought.scored,
      sought.before a b = decide (sought.key (id a) ≤ sought.key (id b)) := by
    intro a ha b hb
    obtain ⟨node, -, rfl⟩ := List.mem_map.mp ha
    obtain ⟨node', -, rfl⟩ := List.mem_map.mp hb
    rw [Bool.eq_iff_iff, decide_eq_true_iff]
    exact before_iff (isShare_sought sought node) (isShare_sought sought node')
  have hsort := List.map_mergeSort (f := id)
    (s := fun a b => decide (sought.key a ≤ sought.key b)) hcompare
  rw [List.map_id, List.map_id] at hsort
  have hsorted := @List.pairwise_mergeSort _ (fun a b => decide (sought.key a ≤ sought.key b))
    (fun a b c hab hbc => decide_eq_true (le_trans (of_decide_eq_true hab) (of_decide_eq_true hbc)))
    (fun a b => by simpa using le_total (sought.key a) (sought.key b))
    (nodes.map sought.scored)
  rw [← hsort] at hsorted
  exact hsorted.imp of_decide_eq_true

/-- **Scores descend along a ranking.** -/
theorem pairwise_score_rank :
    (sought.rank nodes : List (Ranked Float)).Pairwise fun a b => b.score ≤ a.score := by
  refine (sought.pairwise_key_rank nodes).imp_of_mem fun ha hb hkey => ?_
  rw [(sought.isShare_of_mem_rank nodes hb).le_iff (sought.isShare_of_mem_rank nodes ha)]
  rcases Prod.Lex.le_iff.mp hkey with hmore | ⟨hsame, -⟩
  · exact Nat.le_of_lt hmore
  · exact Nat.le_of_eq (OrderDual.toDual_inj.mp hsame).symm

/-- **Each node outranks those that follow it**, if no two have the same place in the document. -/
theorem pairwise_rank (horders : (nodes.map (·.order)).Nodup) :
    (sought.rank nodes).Pairwise sought.Outranks := by
  have hdistinct : (sought.rank nodes : List (Ranked Float)).Pairwise
      fun a b => a.node.order ≠ b.node.order := by
    have hnodup := ((sought.perm_nodes_rank nodes).map (·.order)).nodup_iff.mpr horders
    rw [List.map_map] at hnodup
    exact List.pairwise_map.mp hnodup
  refine ((sought.pairwise_key_rank nodes).and hdistinct).imp_of_mem fun ha hb h => ?_
  rw [← key_lt_iff (sought.isShare_of_mem_rank nodes ha) (sought.isShare_of_mem_rank nodes hb)]
  exact lt_of_le_of_ne h.1 fun hsame => h.2 (congrArg (fun k => (ofLex (ofLex k).2).2) hsame)

/-- **Cutting the scan off only leaves nodes out.** -/
theorem rank_take_sublist (horders : (nodes.map (·.order)).Nodup) (n : Nat) :
    (sought.rank (nodes.take n)).Sublist (sought.rank nodes : List (Ranked Float)) := by
  have : Std.Antisymm sought.Outranks := ⟨fun a b h hback => absurd hback (outranks_asymm h)⟩
  have htake := List.take_sublist n nodes
  refine List.sublist_of_subperm_of_pairwise ?_
    (sought.pairwise_rank _ (horders.sublist (htake.map _))) (sought.pairwise_rank _ horders)
  exact (sought.perm_rank _).subperm.trans
    ((htake.map _).subperm.trans (sought.perm_rank nodes).symm.subperm)

/-! ## A scan against the clock -/

/-- A scan of the nodes that looks at the clock before each of them, and scores no more once it is
late.  So many looks have been taken before. -/
def scan (late : Nat → Bool) : Nat → List Node → List (Ranked Float)
  | _, [] => []
  | looks, node :: rest =>
    if late looks then [] else sought.scored node :: scan late (looks + 1) rest

/-- **A scan that is cut off has scored the first nodes.** -/
theorem exists_scan_eq (late : Nat → Bool) : ∀ (nodes : List Node) (looks : Nat),
    ∃ reached ≤ nodes.length,
      sought.scan late looks nodes = (nodes.take reached).map sought.scored := by
  intro nodes
  induction nodes with
  | nil => intro looks; exact ⟨0, Nat.le_refl _, rfl⟩
  | cons node rest ih =>
    intro looks
    rw [scan]
    split
    · exact ⟨0, Nat.zero_le _, rfl⟩
    · obtain ⟨reached, hle, hrest⟩ := ih (looks + 1)
      exact ⟨reached + 1, Nat.succ_le_succ hle, by rw [hrest, List.take_succ_cons, List.map_cons]⟩

end Sought

theorem score_of_hash {sought : Sought} {node : Node} {hash : String}
    (hsought : sought.hash = some hash) (h : hashMatches node.fragment hash = true) :
    (sought.score node : Float) = 1 := by
  have hone : (Scalar.one : Float) = 1 := by decide
  have hfilled : hash ≠ "" := by
    rintro rfl
    exact absurd h (by simp [hashMatches])
  have hhashes : sought.hashes node.fragment = true := by
    rw [Sought.hashes, hsought, Text.nonEmpty, Option.filter_some_pos (by simpa using hfilled)]
    exact h
  rw [Sought.score, if_pos hhashes, hone]

/-- In a list in which each item comes before those that follow it, an item stands in front of what
does not come before it. -/
theorem pair_sublist_of_pairwise {β : Type} {R : β → β → Prop} {l : List β} {a b : β}
    (h : l.Pairwise R) (ha : a ∈ l) (hb : b ∈ l) (hne : a ≠ b) (hback : ¬R b a) :
    [a, b].Sublist l := by
  obtain ⟨front, back, rfl⟩ := List.append_of_mem ha
  have hfront := (List.pairwise_append.mp h).2.2
  rcases List.mem_append.mp hb with hmem | hmem
  · exact absurd (hfront b hmem a List.mem_cons_self) hback
  · rcases List.mem_cons.mp hmem with rfl | hmem
    · exact absurd rfl hne
    · exact ((List.singleton_sublist.mpr hmem).cons_cons a).trans (List.sublist_append_right _ _)

/-- **A ranking is in order, and cutting it off only leaves nodes out.**  Over an index whose nodes
have different places, each node is ranked once, with its score, and outranks all that follow it.  A
node with the hash that is looked for scores one and stands before whatever scores less.  A scan that
is cut off after any number of nodes ranks those, and what comes of it is the whole ranking without
the others.  Whenever the clock says that it is late, that is such a scan. -/
theorem findSimilar_in_order (index : Index) (sought : Sought)
    (horders : (index.nodes.map (·.order)).Nodup) :
    let ranking : List (Ranked Float) := index.findSimilar sought
    ranking.Perm (index.nodes.map sought.scored) ∧ ranking.Pairwise sought.Outranks ∧
    (∀ r ∈ ranking, ∀ hash, sought.hash = some hash → hashMatches r.node.fragment hash = true →
      r.score = 1 ∧ ∀ s ∈ ranking, s.score < r.score → [r, s].Sublist ranking) ∧
    (∀ reached : Nat,
      let cut : List (Ranked Float) := index.findSimilar sought (some reached)
      cut.Perm ((index.nodes.take reached).map sought.scored) ∧ cut.Sublist ranking) ∧
    ∀ late : Nat → Bool, ∃ reached ≤ index.nodes.length,
      (sought.scan late 0 index.nodes).mergeSort sought.before =
        index.findSimilar sought (some reached) := by
  have hpairwise := sought.pairwise_rank index.nodes horders
  refine ⟨sought.perm_rank _, hpairwise, fun r hr hash hsought hmatches => ?_,
    fun reached => ⟨sought.perm_rank _, sought.rank_take_sublist _ horders reached⟩,
    fun late => ?_⟩
  · have hscore : r.score = 1 := by
      rw [(sought.eq_scored index.nodes hr).1]
      exact score_of_hash hsought hmatches
    refine ⟨hscore, fun s hs hless => ?_⟩
    have hback : ¬sought.Outranks s r := by
      rintro (hmore | ⟨hsame, -⟩)
      · exact not_lt_of_le (le_of_lt hless) hmore
      · exact not_lt_of_le (le_of_lt hless) (hsame ▸ hless)
    have hne : r ≠ s := by
      rintro rfl
      exact not_lt_of_le (le_of_lt hless) hless
    exact pair_sublist_of_pairwise hpairwise hr hs hne hback
  · obtain ⟨reached, hle, hscan⟩ := sought.exists_scan_eq late index.nodes 0
    exact ⟨reached, hle, congrArg (List.mergeSort · sought.before) hscan⟩

/-- An element with a word in it. -/
def markedNode (tag : String) (line : Int) (order : Nat) : Node :=
  { tag, attrs := [], text := "go", fragment := "<" ++ tag ++ ">go</" ++ tag ++ ">"
    line, endLine := line, order, hasChildren := false }

/-- Three elements, the middle one farthest from the line that is looked near. -/
def markedIndex : Index :=
  { nodes := [markedNode "b" 1 0, markedNode "p" 9 1, markedNode "b" 6 2] }

/-- What the middle element of `markedIndex` is found by. -/
def markedSought : Sought :=
  { hash := some (hash {} "<p>go</p>"), fragment := some "<i>go</i>", nearLine := some 5 }

theorem findSimilar_in_order_marked :
    let ranking : List (Ranked Float) := markedIndex.findSimilar markedSought
    let exact := markedSought.scored (markedNode "p" 9 1)
    let similar := markedSought.scored (markedNode "b" 6 2)
    (markedIndex.nodes.map (·.order)).Nodup ∧ ranking.Pairwise markedSought.Outranks ∧
      hashMatches exact.node.fragment (hash {} "<p>go</p>") = true ∧ exact ∈ ranking ∧
      similar ∈ ranking ∧ similar.score < exact.score ∧ [exact, similar].Sublist ranking ∧
      (markedIndex.findSimilar markedSought (some 2) : List (Ranked Float)).Sublist ranking := by
  intro ranking exact similar
  have horders : (markedIndex.nodes.map (·.order)).Nodup := by decide
  have hmatches : hashMatches exact.node.fragment (hash {} "<p>go</p>") = true :=
    hashMatches_hash {} "<p>go</p>"
  have hless : similar.score < exact.score := by decide +kernel
  obtain ⟨hperm, hpairwise, hfirst, hcut, -⟩ := findSimilar_in_order markedIndex markedSought horders
  have hexact : exact ∈ ranking := hperm.mem_iff.mpr (by simp [markedIndex, exact])
  have hsimilar : similar ∈ ranking := hperm.mem_iff.mpr (by simp [markedIndex, similar])
  exact ⟨horders, hpairwise, hmatches, hexact, hsimilar, hless,
    (hfirst exact hexact _ rfl hmatches).2 similar hsimilar hless, (hcut 2).2⟩

end Mooring.Markup
