import Mooring.Markup.Region
import Mooring.Proofs.Fragment.Canonical
import Mooring.Proofs.Markup.Nodes

/-!
# The lines of a node hold the node

A node has its lines by the line feeds before it, and lines are cut out of a source by all line
breaks there are.  Where both ways to count agree, the lines of a node that stands alone on them
(`Alone`) have its hash (`hash_sliceLines`).  They agree as long as the text up to the end of the
node breaks its lines with line feeds, which may have carriage returns before them (`PlainBreaks`).

They do not agree in general.  A form feed before a node, for instance on a line of its own, opens a
line that the node does not count, and what is cut out under its line numbers is something else
(`hash_sliceLines_formFeed`).

What is cut out need not be what the node's fragment says to the letter.  There are the blanks
beside it, and the carriage returns are gone; but neither has a part in the canonical form.
-/

namespace Mooring.Text

/-! ## Texts with plain line breaks -/

/-- Lines are broken by line feeds only, and each may have a carriage return before it. -/
inductive PlainBreaks : List Char → Prop
  | nil : PlainBreaks []
  | feed {rest : List Char} : PlainBreaks rest → PlainBreaks ('\n' :: rest)
  | returnFeed {rest : List Char} : PlainBreaks rest → PlainBreaks ('\r' :: '\n' :: rest)
  | other {c : Char} {rest : List Char} : isLineBreak c = false → PlainBreaks rest →
      PlainBreaks (c :: rest)

/-- The text without the carriage returns before its line feeds. -/
def dropReturns : List Char → List Char
  | [] => []
  | '\r' :: '\n' :: rest => '\n' :: dropReturns rest
  | c :: rest => c :: dropReturns rest

/-- The text is empty or ends with a line feed. -/
def EndsLine (cs : List Char) : Prop :=
  ∀ c, cs.getLast? = some c → c = '\n'

theorem EndsLine.tail {c : Char} {rest : List Char} (h : EndsLine (c :: rest)) :
    EndsLine rest := by
  intro d hd
  refine h d ?_
  rw [List.getLast?_cons, hd, Option.getD_some]

/-- A text that ends a line is a line feed, or ends that line later. -/
theorem EndsLine.lineFeeds_pos {c : Char} {rest : List Char} (h : EndsLine (c :: rest))
    (hc : isLineBreak c = false) : 0 < lineFeeds rest := by
  refine List.count_pos_iff.mpr ?_
  cases hlast : rest.getLast? with
  | none =>
    obtain rfl := List.getLast?_eq_none_iff.mp hlast
    obtain rfl := h c rfl
    exact absurd hc (by decide)
  | some d =>
    obtain rfl := h.tail d hlast
    exact List.mem_of_getLast? hlast

/-- No part of a line is left over at the end of a text that ends its last line. -/
theorem EndsLine.part_eq_nil {cs part : List Char} (h : EndsLine cs) (hpart : part <:+ cs)
    (hfree : '\n' ∉ part) : part = [] := by
  obtain ⟨lead, rfl⟩ := hpart
  refine List.getLast?_eq_none_iff.mp (Option.eq_none_iff_forall_ne_some.mpr fun c hc => hfree ?_)
  have hlast := h c (by rw [List.getLast?_append, hc]; rfl)
  exact hlast ▸ List.mem_of_getLast? hc

/-- Every text is some whole lines and a part of one more. -/
theorem exists_endsLine (cs : List Char) : ∃ ended part, cs = ended ++ part ∧ EndsLine ended ∧
    '\n' ∉ part := by
  induction cs with
  | nil => exact ⟨[], [], rfl, fun _ h => absurd h (by simp), List.not_mem_nil⟩
  | cons c rest ih =>
    obtain ⟨ended, part, rfl, hended, hpart⟩ := ih
    by_cases hc : c ≠ '\n' ∧ ended = []
    · obtain ⟨hc, rfl⟩ := hc
      refine ⟨[], c :: part, rfl, fun _ h => absurd h (by simp), ?_⟩
      exact List.not_mem_cons_of_ne_of_not_mem (Ne.symm hc) hpart
    · refine ⟨c :: ended, part, rfl, fun d hd => ?_, hpart⟩
      rw [List.getLast?_cons] at hd
      cases hlast : ended.getLast? with
      | none =>
        rw [hlast] at hd
        obtain rfl : c = d := Option.some.inj hd
        exact not_not.mp fun hne => hc ⟨hne, List.getLast?_eq_none_iff.mp hlast⟩
      | some e =>
        rw [hlast] at hd
        exact hended d (hlast.trans hd)

namespace PlainBreaks

theorem of_forall {cs : List Char} (h : ∀ c ∈ cs, c = '\n' ∨ isLineBreak c = false) :
    PlainBreaks cs := by
  induction cs with
  | nil => exact .nil
  | cons c rest ih =>
    obtain ⟨hc, hrest⟩ := List.forall_mem_cons.mp h
    rcases hc with rfl | hc
    · exact .feed (ih hrest)
    · exact .other hc (ih hrest)

/-- Between two lines, a text with plain line breaks comes apart into two such texts. -/
theorem split : ∀ {ended rest : List Char}, PlainBreaks (ended ++ rest) → EndsLine ended →
    PlainBreaks ended ∧ PlainBreaks rest
  | [], _, h, _ => ⟨.nil, h⟩
  | [c], rest, h, hended => by
    obtain rfl := hended c rfl
    cases h with
    | feed h => exact ⟨.feed .nil, h⟩
    | other hc => exact absurd hc (by decide)
  | c :: d :: ended, rest, h, hended => by
    cases h with
    | feed h => exact (split h hended.tail).imp_left .feed
    | returnFeed h => exact (split h hended.tail.tail).imp_left .returnFeed
    | other hc h => exact (split h hended.tail).imp_left (.other hc)

end PlainBreaks

/-! ## Lines from a place on -/

theorem lines_feed (rest : List Char) : lines ('\n' :: rest) = [] :: lines rest := by
  rw [lines.eq_3 _ _ (fun _ h _ => absurd h (by decide)), if_pos (by decide)]

theorem lines_returnFeed (rest : List Char) : lines ('\r' :: '\n' :: rest) = [] :: lines rest :=
  rfl

theorem lines_other {c : Char} (h : isLineBreak c = false) (rest : List Char) :
    lines (c :: rest) = consLine c (lines rest) := by
  have hne : c ≠ '\r' := by
    rintro rfl
    exact absurd h (by decide)
  rw [lines.eq_3 _ _ (fun _ hc _ => hne hc), if_neg (by rw [h]; exact Bool.false_ne_true)]

theorem lines_eq_nil {cs : List Char} (h : lines cs = []) : cs = [] := by
  fun_cases lines cs with
  | case1 => rfl
  | case2 rest => exact absurd h (by simp [lines])
  | case3 c rest hne hbreak => exact absurd h (by rw [lines.eq_3 _ _ hne, if_pos hbreak]; simp)
  | case4 c rest hne hbreak =>
    rw [lines.eq_3 _ _ hne, if_neg hbreak] at h
    exact absurd h (by cases lines rest <;> simp [consLine])

theorem drop_consLine (c : Char) (later : List (List Char)) (n : Nat) :
    (consLine c later).drop (n + 1) = later.drop (n + 1) := by
  cases later <;> simp [consLine]

theorem take_consLine (c : Char) (later : List (List Char)) (n : Nat) :
    (consLine c later).take (n + 1) = consLine c (later.take (n + 1)) := by
  cases later <;> simp [consLine]

theorem join_consLine (separator : List Char) (c : Char) (later : List (List Char)) :
    join separator (consLine c later) = c :: join separator later := by
  match later with
  | [] => rfl
  | [_] => rfl
  | _ :: _ :: _ => rfl

/-- **As many lines as line feeds**: after some whole lines with plain line breaks, the next line is
the one that the text after them starts with. -/
theorem drop_lines {ended : List Char} (h : PlainBreaks ended) (hended : EndsLine ended)
    (rest : List Char) : (lines (ended ++ rest)).drop (lineFeeds ended) = lines rest := by
  induction h with
  | nil => rfl
  | feed _ ih =>
    rw [List.cons_append, lines_feed, lineFeeds, List.count_cons_self, List.drop_succ_cons]
    exact ih hended.tail
  | returnFeed _ ih =>
    rw [List.cons_append, List.cons_append, lines_returnFeed, lineFeeds,
      List.count_cons_of_ne (by decide), List.count_cons_self, List.drop_succ_cons]
    exact ih hended.tail.tail
  | @other c ended hc _ ih =>
    have hne : c ≠ '\n' := by
      rintro rfl
      exact absurd hc (by decide)
    obtain ⟨n, hn⟩ : ∃ n, lineFeeds ended = n + 1 :=
      Nat.exists_eq_succ_of_ne_zero (hended.lineFeeds_pos hc).ne'
    have hcount : lineFeeds (c :: ended) = n + 1 := by
      rw [lineFeeds, List.count_cons_of_ne hne]
      exact hn
    rw [List.cons_append, lines_other hc, hcount, drop_consLine, ← hn]
    exact ih hended.tail

/-- The first line goes up to the first line break. -/
theorem join_take_one_lines (cs : List Char) :
    join ['\n'] ((lines cs).take 1) = cs.takeWhile (!isLineBreak ·) := by
  fun_induction lines cs with
  | case1 => rfl
  | case2 rest ih => rfl
  | case3 c rest hne hbreak ih => rw [List.takeWhile_cons_of_neg (by simpa using hbreak)]; rfl
  | case4 c rest hne hbreak ih =>
    rw [take_consLine, join_consLine, List.takeWhile_cons_of_pos (by simpa using hbreak)]
    exact congrArg _ ih

/-- **The lines that a text reaches over are that text**, without carriage returns, and whatever
else stands on its last line.  If the text ends with a line feed, the lines do not. -/
theorem join_take_lines {text after : List Char} (h : PlainBreaks text)
    (hafter : ∀ part, part <+: after → '\n' ∉ part → ∀ c ∈ part, isBlank c = true) :
    ∃ feed tail, (∀ c ∈ feed, isBlank c = true) ∧ (∀ c ∈ tail, isBlank c = true) ∧
      join ['\n'] ((lines (text ++ after)).take (lineFeeds text + 1)) ++ feed =
        dropReturns text ++ tail := by
  have step : ∀ {text : List Char} {later : List (List Char)},
      (∃ feed tail, (∀ c ∈ feed, isBlank c = true) ∧ (∀ c ∈ tail, isBlank c = true) ∧
        join ['\n'] later ++ feed = dropReturns text ++ tail) →
      ∃ feed tail, (∀ c ∈ feed, isBlank c = true) ∧ (∀ c ∈ tail, isBlank c = true) ∧
        join ['\n'] ([] :: later) ++ feed = '\n' :: dropReturns text ++ tail := by
    rintro text later ⟨feed, tail, hfeed, htail, hjoin⟩
    cases later with
    | nil =>
      refine ⟨'\n' :: feed, tail, List.forall_mem_cons.mpr ⟨by decide, hfeed⟩, htail, ?_⟩
      exact congrArg (List.cons '\n') hjoin
    | cons line later => exact ⟨feed, tail, hfeed, htail, congrArg (List.cons '\n') hjoin⟩
  induction h with
  | nil =>
    refine ⟨[], after.takeWhile (!isLineBreak ·), fun _ h => absurd h List.not_mem_nil, ?_, ?_⟩
    · refine hafter _ (List.takeWhile_prefix _) fun hmem => ?_
      exact absurd (List.mem_takeWhile_imp hmem) (by decide)
    · rw [List.append_nil]
      exact join_take_one_lines after
  | @feed text _ ih =>
    rw [List.cons_append, lines_feed, lineFeeds, List.count_cons_self, List.take_succ_cons]
    exact step ih
  | @returnFeed text _ ih =>
    rw [List.cons_append, List.cons_append, lines_returnFeed, lineFeeds,
      List.count_cons_of_ne (by decide), List.count_cons_self, List.take_succ_cons]
    exact step ih
  | @other c text hc _ ih =>
    obtain ⟨feed, tail, hfeed, htail, hjoin⟩ := ih
    refine ⟨feed, tail, hfeed, htail, ?_⟩
    have hne : c ≠ '\n' := by
      rintro rfl
      exact absurd hc (by decide)
    have hreturn : c ≠ '\r' := by
      rintro rfl
      exact absurd hc (by decide)
    rw [List.cons_append, lines_other hc, lineFeeds, List.count_cons_of_ne hne, take_consLine,
      join_consLine, dropReturns.eq_3 _ _ (fun _ h _ => hreturn h)]
    exact congrArg (List.cons c) hjoin

end Mooring.Text

namespace Mooring.Fragment

open Mooring.Text

/-- The carriage returns before line feeds have no part in the canonical form. -/
theorem canonicalText_dropReturns (v text : List Char) : ∀ u : List Char,
    canonicalText (u ++ (dropReturns text ++ v)) = canonicalText (u ++ (text ++ v)) := by
  fun_induction dropReturns text with
  | case1 => exact fun _ => rfl
  | case2 rest ih =>
    intro u
    have hinsert := canonicalText_insert (u := u) (v := '\n' :: (dropReturns rest ++ v))
      (w := ['\r']) (List.all_eq_true.mp (by decide)) (.inr fun c hc => by rw [← Option.some.inj hc]; decide)
    have hrest := ih (u ++ ['\r', '\n'])
    simp only [List.append_assoc, List.cons_append, List.nil_append] at hinsert hrest ⊢
    rw [← hinsert, hrest]
  | case3 c rest _ ih =>
    intro u
    have hrest := ih (u ++ [c])
    simpa only [List.append_assoc, List.cons_append, List.nil_append] using hrest

end Mooring.Fragment

namespace Mooring.Markup

open Mooring.Fragment Mooring.Text

/-! ## The lines of a node -/

/-- A region of lines of a source. -/
theorem sliceLines_eq {source : String} {before count : Nat} {last : Int}
    (hbefore : before < (lines source.toList).length) (hlast : last = before + 1 + count) :
    (sliceLines source (before + 1) last).1 =
      String.ofList (join ['\n'] (((lines source.toList).drop before).take (count + 1))) := by
  unfold sliceLines
  dsimp only
  rw [if_neg (by simp only [List.isEmpty_iff]; rintro hnil; rw [hnil] at hbefore; simp at hbefore)]
  generalize lines source.toList = all at hbefore
  have hfirst : max 1 (min ((before : Int) + 1) all.length) = before + 1 := by omega
  rw [hfirst, hlast]
  have hdrop : ((before : Int) + 1 - 1).toNat = before := by omega
  rw [hdrop]
  refine congrArg (fun region => String.ofList (join ['\n'] region)) ?_
  refine List.take_eq_take_iff.mpr ?_
  rw [List.length_drop]
  omega

/-- A node stands alone on its lines: there are only blanks before it on its first line, and after
it on its last one. -/
structure Alone (source : String) (node : Node) (before after : List Char) : Prop where
  source : source.toList = before ++ (node.fragment.toList ++ after)
  line : node.line = lineFeeds before + 1
  before : ∀ part, part <:+ before → '\n' ∉ part → ∀ c ∈ part, isBlank c = true
  after : ∀ part, part <+: after → '\n' ∉ part → ∀ c ∈ part, isBlank c = true

/-- **The lines of a node have its hash**, if it stands alone on them and the line breaks up to its
end are plain. -/
theorem hash_sliceLines {source : String} {node : Node}
    (hnode : node ∈ (Index.ofSource source).nodes) {before after : List Char}
    (halone : Alone source node before after)
    (hplain : PlainBreaks (before ++ node.fragment.toList)) (format : HashFormat) :
    hash format (sliceLines source node.line node.endLine).1 = hash format node.fragment := by
  obtain ⟨hfragment, -, hend⟩ := node_of_ofSource hnode
  obtain ⟨ended, indent, rfl, hended, hindent⟩ := exists_endsLine before
  rw [List.append_assoc] at hplain
  obtain ⟨hplainEnded, hplainText⟩ := hplain.split hended
  have hcount : lineFeeds (ended ++ indent) = lineFeeds ended := by
    rw [lineFeeds, List.count_append, List.count_eq_zero_of_not_mem hindent, Nat.add_zero,
      ← lineFeeds]
  have hfeeds : lineFeeds (indent ++ node.fragment.toList) = lineFeeds node.fragment.toList := by
    rw [lineFeeds, List.count_append, List.count_eq_zero_of_not_mem hindent, Nat.zero_add,
      ← lineFeeds]
  have hsource : source.toList = ended ++ (indent ++ node.fragment.toList ++ after) := by
    rw [halone.source, List.append_assoc, List.append_assoc]
  have hdrop : (lines source.toList).drop (lineFeeds ended) =
      lines (indent ++ node.fragment.toList ++ after) := by
    rw [hsource]
    exact drop_lines hplainEnded hended _
  have hbefore : lineFeeds ended < (lines source.toList).length := by
    refine not_le.mp fun hle => hfragment ?_
    rw [List.drop_eq_nil_of_le hle] at hdrop
    have hnil := (List.append_eq_nil_iff.mp (lines_eq_nil hdrop.symm)).1
    exact String.toList_eq_nil_iff.mp (List.append_eq_nil_iff.mp hnil).2
  obtain ⟨feed, tail, hfeed, htail, hjoin⟩ := join_take_lines hplainText halone.after
  have hlast : node.endLine = (lineFeeds ended : Int) + 1 + lineFeeds node.fragment.toList := by
    rw [hend, halone.line, hcount]
  have hregion := sliceLines_eq hbefore hlast
  have hblank : ∀ c ∈ indent, isBlank c = true :=
    halone.before indent (List.suffix_append ended indent) hindent
  -- What is cut out differs from the fragment by blanks that mean nothing.
  have hcanonical : canonicalText
      (join ['\n'] ((lines (indent ++ node.fragment.toList ++ after)).take
        (lineFeeds (indent ++ node.fragment.toList) + 1))) =
      canonicalText node.fragment.toList := by
    have hwithout := canonicalText_insert hfeed (u := join ['\n']
      ((lines (indent ++ node.fragment.toList ++ after)).take
        (lineFeeds (indent ++ node.fragment.toList) + 1))) (v := []) (.inr (by simp))
    rw [List.append_nil, List.append_nil, hjoin] at hwithout
    have htrailing := canonicalText_insert htail
      (u := indent ++ node.fragment.toList) (v := []) (.inr (by simp))
    have hleading := canonicalText_insert hblank (u := []) (v := node.fragment.toList)
      (.inl (by simp))
    rw [List.append_nil, List.append_nil] at htrailing
    rw [List.nil_append, List.nil_append] at hleading
    rw [← hwithout, ← hleading, ← htrailing]
    exact canonicalText_dropReturns tail _ []
  rw [halone.line, hcount, hregion, hdrop, ← hfeeds, Fragment.hash, Fragment.hash,
    canonical_eq, canonical_eq, String.toList_ofList, hcanonical]

/-- Under the line numbers of a node that comes after a form feed stands something else. -/
theorem hash_sliceLines_formFeed : ∃ node ∈ (Index.ofSource "\x0c\n<p>x</p>\n").nodes,
    Alone "\x0c\n<p>x</p>\n" node ['\x0c', '\n'] ['\n'] ∧
      Fragment.hash {} (sliceLines "\x0c\n<p>x</p>\n" node.line node.endLine).1 ≠
        Fragment.hash {} node.fragment := by
  have hnodes : (Index.ofSource "\x0c\n<p>x</p>\n").nodes.map
      (fun node => (node.fragment, node.line, node.endLine)) = [("<p>x</p>", 2, 2)] := by
    decide +kernel
  obtain ⟨node, rest, hcons, hnode, -⟩ := List.map_eq_cons_iff.mp hnodes
  obtain ⟨hfragment, hline, hend⟩ : node.fragment = "<p>x</p>" ∧ node.line = 2 ∧
      node.endLine = 2 := by
    simpa using hnode
  refine ⟨node, hcons ▸ List.mem_cons_self, ⟨?_, hline, ?_, ?_⟩, ?_⟩
  · rw [hfragment]
    rfl
  · intro part hpart hfree
    have hended : EndsLine ['\x0c', '\n'] := fun c hc => (Option.some.inj hc).symm
    rw [hended.part_eq_nil hpart hfree]
    exact fun c hc => absurd hc List.not_mem_nil
  · intro part hpart hfree
    rcases List.prefix_cons_iff.mp hpart with rfl | ⟨rest, rfl, -⟩
    · exact fun c hc => absurd hc List.not_mem_nil
    · exact absurd List.mem_cons_self hfree
  · rw [hfragment, hline, hend]
    decide +kernel

end Mooring.Markup
