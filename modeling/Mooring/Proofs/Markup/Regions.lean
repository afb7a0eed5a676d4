import Mooring.Proofs.Markup.Lines

/-!
# A region of lines is a piece of its source

Lines are cut out of a source one by one and put together with line feeds.  As long as the line
breaks up to the last of them are plain (`PlainUpTo`), this gives a piece of the source back, with
its carriage returns gone, and as many lines are said to stand before it as there are line feeds
(`sliceLines_plain`).

Without a carriage return the piece is given back as it stands (`dropReturns_of_not_mem`).  With
one it is not, though its line feeds stay (`lineFeeds_dropReturns`), and each part of what is given
back was made of one part of the piece (`exists_of_dropReturns_append`).
-/

namespace Mooring.Text

/-! ## Texts without their carriage returns -/

theorem dropReturns_of_not_mem {cs : List Char} (h : '\r' ∉ cs) : dropReturns cs = cs := by
  fun_induction dropReturns cs with
  | case1 => rfl
  | case2 rest ih => exact absurd List.mem_cons_self h
  | case3 c rest hne ih => rw [ih fun hmem => h (List.mem_cons_of_mem c hmem)]

theorem lineFeeds_dropReturns (cs : List Char) : lineFeeds (dropReturns cs) = lineFeeds cs := by
  unfold lineFeeds
  fun_induction dropReturns cs with
  | case1 => rfl
  | case2 rest ih =>
    rw [List.count_cons_self, ih, List.count_cons_of_ne (by decide), List.count_cons_self]
  | case3 c rest hne ih => rw [List.count_cons, List.count_cons, ih]

/-- What a text begins with without its carriage returns was made of what it begins with. -/
theorem exists_of_dropReturns_append (cs : List Char) : ∀ {lead rest : List Char},
    dropReturns cs = lead ++ rest →
    ∃ lead' rest', cs = lead' ++ rest' ∧ dropReturns lead' = lead ∧ dropReturns rest' = rest := by
  fun_induction dropReturns cs with
  | case1 =>
    intro lead rest h
    obtain ⟨rfl, rfl⟩ := List.append_eq_nil_iff.mp h.symm
    exact ⟨[], [], rfl, rfl, rfl⟩
  | case2 more ih =>
    intro lead rest h
    cases lead with
    | nil => exact ⟨[], '\r' :: '\n' :: more, rfl, rfl, h⟩
    | cons c lead =>
      obtain ⟨rfl, hmore⟩ := List.cons.inj h
      obtain ⟨lead', rest', rfl, rfl, hrest⟩ := ih hmore
      exact ⟨'\r' :: '\n' :: lead', rest', rfl, rfl, hrest⟩
  | case3 c more hne ih =>
    intro lead rest h
    cases lead with
    | nil => exact ⟨[], c :: more, rfl, rfl, by rw [dropReturns.eq_3 _ _ hne]; exact h⟩
    | cons d lead =>
      obtain ⟨rfl, hmore⟩ := List.cons.inj h
      obtain ⟨lead', rest', rfl, rfl, hrest⟩ := ih hmore
      refine ⟨c :: lead', rest', rfl, ?_, hrest⟩
      -- Nothing is cut between a carriage return and its line feed.
      refine dropReturns.eq_3 _ _ fun rest hc hlead => hne (rest ++ rest') hc ?_
      rw [hlead, List.cons_append]

/-! ## Whole lines -/

theorem endsLine_nil : EndsLine [] := fun _ h => absurd h (by simp)

/-- A character in front changes nothing about how a text ends, unless it is all of it. -/
theorem endsLine_cons {c : Char} {cs : List Char} (h : EndsLine cs) (hnil : cs = [] → c = '\n') :
    EndsLine (c :: cs) := by
  intro d hd
  rw [List.getLast?_cons] at hd
  cases hlast : cs.getLast? with
  | none =>
    rw [hlast] at hd
    exact Option.some.inj hd ▸ hnil (List.getLast?_eq_none_iff.mp hlast)
  | some e =>
    rw [hlast] at hd
    exact h d (hlast.trans hd)

/-- A text comes apart behind any of its line feeds. -/
theorem exists_lineFeeds_eq (cs : List Char) : ∀ {n : Nat}, n ≤ lineFeeds cs →
    ∃ ended rest, cs = ended ++ rest ∧ EndsLine ended ∧ lineFeeds ended = n := by
  induction cs with
  | nil =>
    intro n hn
    exact ⟨[], [], rfl, endsLine_nil, (Nat.le_zero.mp hn).symm⟩
  | cons c cs ih =>
    intro n hn
    cases n with
    | zero => exact ⟨[], c :: cs, rfl, endsLine_nil, rfl⟩
    | succ n =>
      by_cases hc : c = '\n'
      · subst hc
        rw [lineFeeds, List.count_cons_self] at hn
        obtain ⟨ended, rest, rfl, hended, hcount⟩ := ih (Nat.le_of_succ_le_succ hn)
        refine ⟨'\n' :: ended, rest, rfl, endsLine_cons hended fun _ => rfl, ?_⟩
        rw [lineFeeds, List.count_cons_self]
        exact congrArg (· + 1) hcount
      · rw [lineFeeds, List.count_cons_of_ne hc] at hn
        obtain ⟨ended, rest, rfl, hended, hcount⟩ := ih hn
        refine ⟨c :: ended, rest, rfl, endsLine_cons hended fun hnil => ?_, ?_⟩
        · rw [hnil] at hcount
          exact absurd hcount (by simp [lineFeeds])
        · rw [lineFeeds, List.count_cons_of_ne hc]
          exact hcount

/-- A text with plain line breaks has one line more than line feeds, at most. -/
theorem length_lines_le {cs : List Char} (h : PlainBreaks cs) :
    (lines cs).length ≤ lineFeeds cs + 1 := by
  unfold lineFeeds
  induction h with
  | nil => exact Nat.zero_le _
  | feed _ ih =>
    rw [lines_feed, List.length_cons, List.count_cons_self]
    exact Nat.succ_le_succ ih
  | returnFeed _ ih =>
    rw [lines_returnFeed, List.length_cons, List.count_cons_of_ne (by decide),
      List.count_cons_self]
    exact Nat.succ_le_succ ih
  | @other c rest hc _ ih =>
    have hcount := List.count_le_count_cons (a := '\n') (b := c) (l := rest)
    rw [lines_other hc]
    cases hlines : lines rest with
    | nil => exact Nat.le_add_left 1 _
    | cons line later =>
      rw [hlines, List.length_cons] at ih
      show later.length + 1 ≤ _
      omega

/-- The lines are what the text begins with, without carriage returns. -/
def Leads (taken : List (List Char)) (text : List Char) : Prop :=
  ∃ lead left, text = lead ++ left ∧ join ['\n'] taken = dropReturns lead

theorem leads_none (text : List Char) : Leads [] text := ⟨[], text, rfl, rfl⟩

/-- An empty line may come first if the text starts with a line break. -/
theorem Leads.break {taken : List (List Char)} {text : List Char} (h : Leads taken text)
    {ending : List Char}
    (hending : ∀ lead, dropReturns (ending ++ lead) = '\n' :: dropReturns lead) :
    Leads ([] :: taken) (ending ++ text) := by
  obtain ⟨lead, left, rfl, hjoin⟩ := h
  cases taken with
  | nil => exact ⟨[], ending ++ (lead ++ left), rfl, rfl⟩
  | cons line later =>
    refine ⟨ending ++ lead, left, (List.append_assoc ..).symm, ?_⟩
    rw [hending]
    exact congrArg (List.cons '\n') hjoin

/-- **The first lines of a text are what it begins with**, without carriage returns, as long as its
line breaks are plain and the lines end in it. -/
theorem leads_take_lines {text after : List Char} (h : PlainBreaks text) : ∀ {n : Nat},
    n ≤ lineFeeds text ∨ after = [] → Leads ((lines (text ++ after)).take n) text := by
  induction h with
  | nil =>
    rintro n (hn | rfl)
    · rw [Nat.le_zero.mp hn]
      exact leads_none _
    · rw [List.append_nil, lines, List.take_nil]
      exact leads_none _
  | @feed text _ ih =>
    rintro (_ | n) hn
    · exact leads_none _
    · rw [List.cons_append, lines_feed, List.take_succ_cons]
      rw [lineFeeds, List.count_cons_self] at hn
      have hfeed : ∀ lead, dropReturns (['\n'] ++ lead) = '\n' :: dropReturns lead :=
        fun lead => dropReturns.eq_3 _ _ fun _ hc _ => absurd hc (by decide)
      exact (ih (hn.imp_left Nat.le_of_succ_le_succ)).break hfeed
  | @returnFeed text _ ih =>
    rintro (_ | n) hn
    · exact leads_none _
    · rw [List.cons_append, List.cons_append, lines_returnFeed, List.take_succ_cons]
      rw [lineFeeds, List.count_cons_of_ne (by decide), List.count_cons_self] at hn
      have hreturn : ∀ lead, dropReturns (['\r', '\n'] ++ lead) = '\n' :: dropReturns lead :=
        fun lead => rfl
      exact (ih (hn.imp_left Nat.le_of_succ_le_succ)).break hreturn
  | @other c text hc _ ih =>
    rintro (_ | n) hn
    · exact leads_none _
    · have hne : c ≠ '\n' := by
        rintro rfl
        exact absurd hc (by decide)
      have hreturn : c ≠ '\r' := by
        rintro rfl
        exact absurd hc (by decide)
      rw [lineFeeds, List.count_cons_of_ne hne] at hn
      obtain ⟨taken, left, htext, hjoin⟩ := ih hn
      refine ⟨c :: taken, left, by rw [htext, List.cons_append], ?_⟩
      rw [List.cons_append, lines_other hc, take_consLine, join_consLine, hjoin,
        dropReturns.eq_3 _ _ fun _ hc _ => hreturn hc]

end Mooring.Text

namespace Mooring.Markup

open Mooring.Text

/-! ## Regions -/

/-- What a source begins with has plain line breaks, and goes beyond a line or is all of it. -/
structure PlainUpTo (source : List Char) (last : Int) (lead : List Char) : Prop where
  start : lead <+: source
  breaks : PlainBreaks lead
  reaches : lead = source ∨ last ≤ lineFeeds lead

/-- **A region of lines is a piece of its source**, without carriage returns, and the lines before
it are counted by line feeds, as long as the line breaks up to its last line are plain. -/
theorem sliceLines_plain {source : String} {first last : Int} (hfirst : 1 ≤ first)
    (hlast : first ≤ last) {lead : List Char} (h : PlainUpTo source.toList last lead) :
    ∃ ended text rest, source.toList = ended ++ (text ++ rest) ∧ ended ++ text <+: lead ∧
      (sliceLines source first last).1.toList = dropReturns text ∧
      (sliceLines source first last).2 = lineFeeds ended := by
  obtain ⟨behind, hsource⟩ := h.start
  unfold sliceLines
  dsimp only
  split
  next => exact ⟨[], [], source.toList, rfl, List.nil_prefix, rfl, rfl⟩
  next hsome =>
    have hpos : 0 < (lines source.toList).length :=
      List.length_pos_iff.mpr fun hnil => hsome (List.isEmpty_iff.mpr hnil)
    have hcount : lead = source.toList →
        (lines source.toList).length ≤ lineFeeds lead + 1 := by
      intro hall
      rw [← hall]
      exact length_lines_le h.breaks
    have hreaches := h.reaches
    generalize hfirst' : max 1 (min first ((lines source.toList).length : Int)) = first'
    generalize hlast' : max first' (min last ((lines source.toList).length : Int)) = last'
    have hbefore : (first' - 1).toNat ≤ lineFeeds lead := by
      rcases hreaches with hall | hreach
      · have := hcount hall
        omega
      · omega
    obtain ⟨ended, text, rfl, hended, hfeeds⟩ := exists_lineFeeds_eq lead hbefore
    obtain ⟨hplainEnded, hplainText⟩ := h.breaks.split hended
    have hwithin : (last' - first' + 1).toNat ≤ lineFeeds text ∨ behind = [] := by
      rcases hreaches with hall | hreach
      · rw [← hall] at hsource
        exact .inr (List.append_cancel_left (hsource.trans (List.append_nil _).symm))
      · rw [lineFeeds, List.count_append, ← lineFeeds, ← lineFeeds] at hreach
        exact .inl (by omega)
    obtain ⟨taken, left, rfl, hjoin⟩ := leads_take_lines hplainText hwithin
    have hlines : (lines source.toList).drop (first' - 1).toNat =
        lines (taken ++ left ++ behind) := by
      rw [← hsource, List.append_assoc, ← hfeeds]
      exact drop_lines hplainEnded hended _
    refine ⟨ended, taken, left ++ behind, ?_, ?_, ?_, ?_⟩
    · rw [← hsource, List.append_assoc, List.append_assoc]
    · rw [← List.append_assoc]
      exact List.prefix_append _ _
    · rw [String.toList_ofList, hlines, hjoin]
    · dsimp only
      omega

end Mooring.Markup
