import Mooring.Proofs.Markup.Regions
import Mooring.Proofs.Markup.Spans
import Mooring.Proofs.Resolution.Quotation

/-!
# Where a quotation comes from

Every candidate of a searching tier quotes an element of what the tier looked through
(`cited_resolve`), also when a deadline cuts the run off.  Attribute match and full structural look
through the source, so what they quote stands there as written, from its first line to its last.
Fast structural looks through a region of lines, and what it quotes stands in that region.

So what fast structural quotes need not stand in the source: the lines of the region are put
together with line feeds, whatever they ended with before (`resolve_quotes_returnFeed`).  With
plain line breaks up to the last recorded line it quotes the source up to carriage returns and says
the right lines, and without carriage returns it quotes the source like the others
(`resolve_quotes`).
-/

namespace Mooring.Resolution

open Mooring.Decimal Mooring.Markup Mooring.Text

variable {α : Type}

/-! ## Quotations -/

/-- A candidate quotes a part of a text that so many lines stand before: its snippet is that part,
made tidy, and its lines are counted by line feeds. -/
structure Candidate.Quotation (c : Candidate α) (tidy : List Char → List Char) (lineOffset : Int)
    (before part : List Char) : Prop where
  nonempty : part ≠ []
  snippet : c.snippet = some (String.ofList (tidy part))
  lines : c.lines = some (lineOffset + lineFeeds before + 1,
    lineOffset + lineFeeds before + 1 + lineFeeds part)

/-- The candidate quotes some part of a text, made tidy. -/
def Candidate.QuotesFrom (c : Candidate α) (tidy : List Char → List Char) (text : List Char)
    (lineOffset : Int) : Prop :=
  ∃ before part after, text = before ++ (part ++ after) ∧ c.Quotation tidy lineOffset before part

namespace Candidate.QuotesFrom

variable {c : Candidate α} {tidy : List Char → List Char} {text : List Char} {lineOffset : Int}

/-- A quotation from a piece of a text is one from the text, with more lines before it. -/
theorem embed {ended : List Char}
    (h : c.QuotesFrom tidy text (lineOffset + lineFeeds ended)) (rest : List Char) :
    c.QuotesFrom tidy (ended ++ (text ++ rest)) lineOffset := by
  obtain ⟨before, part, after, rfl, hnonempty, hsnippet, hlines⟩ := h
  refine ⟨ended ++ before, part, after ++ rest, by simp only [List.append_assoc], hnonempty,
    hsnippet, ?_⟩
  have hcount : (lineFeeds (ended ++ before) : Int) = lineFeeds ended + lineFeeds before := by
    rw [lineFeeds, List.count_append, Nat.cast_add, ← lineFeeds, ← lineFeeds]
  rw [hlines, hcount, Int.add_assoc lineOffset]

/-- A quotation from a text without carriage returns is one from the text, up to those. -/
theorem ofDropReturns (h : c.QuotesFrom id (dropReturns text) lineOffset) :
    c.QuotesFrom dropReturns text lineOffset := by
  obtain ⟨before, part, after, htext, hnonempty, hsnippet, hlines⟩ := h
  obtain ⟨before', behind, rfl, rfl, hbehind⟩ := exists_of_dropReturns_append text htext
  obtain ⟨part', after', rfl, rfl, -⟩ := exists_of_dropReturns_append behind hbehind
  refine ⟨before', part', after', rfl, fun hnil => hnonempty ?_, hsnippet, ?_⟩
  · rw [hnil]
    rfl
  · rw [hlines, lineFeeds_dropReturns, lineFeeds_dropReturns]

/-- Without carriage returns a text is quoted as it stands. -/
theorem exact (h : c.QuotesFrom dropReturns text lineOffset) (hreturn : '\r' ∉ text) :
    c.QuotesFrom id text lineOffset := by
  obtain ⟨before, part, after, rfl, hnonempty, hsnippet, hlines⟩ := h
  have hpart : '\r' ∉ part := fun hmem =>
    hreturn (List.mem_append_right _ (List.mem_append_left _ hmem))
  rw [dropReturns_of_not_mem hpart] at hsnippet
  exact ⟨before, part, after, rfl, hnonempty, hsnippet, hlines⟩

end Candidate.QuotesFrom

/-! ## What tiers quote -/

/-- The candidate is the stored selector, or it quotes an element of what its tier looks through. -/
def Task.Cited (task : Task α) (c : Candidate α) : Prop :=
  c.tier = .storedSelector ∨ ∃ index node, task.ReadsFor c.tier index ∧ node ∈ index.nodes ∧
    c.lines = some (node.line, node.endLine) ∧ c.snippet = some node.fragment

theorem lasting_cited (task : Task α) : Lasting task.Cited :=
  fun _ _ _ _ _ h => h

section

variable [Scalar α]

theorem Task.Makes.cited {task : Task α} {features : List Feature} {tier : Tier} {c : Candidate α}
    (h : task.Makes features tier c) : task.Cited c := by
  obtain ⟨index, hread, node, hmem, selector, rfl⟩ := h
  exact .inr ⟨index, node, hread, hmem, rfl, rfl⟩

/-- What a turn comes up with quotes what its tier looks through. -/
theorem cites_turns (task : Task α) : ∀ turn ∈ task.turns, turn.Yields task.Cited := by
  intro turn hturn found hfound c hc
  rcases mem_turns hturn with rfl | rfl | rfl
  · exact (makes_fastStructural hfound c hc).cited
  · exact (makes_attributeMatch hfound c hc).cited
  · exact (makes_fullStructural (fun _ => reads_matchTurn) hfound c hc).cited

/-- **Every candidate of a resolution is the stored selector, or it quotes an element of what its
tier looks through**, whenever the deadline strikes. -/
theorem cited_resolve (task : Task α) (deadline : Option Float) :
    ∀ c ∈ (resolve task deadline).trace.candidates, task.Cited c :=
  holds_resolve (lasting_cited task) (.inl rfl) (cites_turns task) deadline

end

/-! ## The source of a quotation -/

/-- A candidate that quotes a node quotes the text that the node was read from. -/
theorem quotesFrom_of_node {c : Candidate α} {text : String} {lineOffset : Int} {node : Node}
    (hnode : node ∈ (Index.ofSource text lineOffset).nodes)
    (hlines : c.lines = some (node.line, node.endLine))
    (hsnippet : c.snippet = some node.fragment) : c.QuotesFrom id text.toList lineOffset := by
  obtain ⟨e, -, hsound⟩ := exists_sound hnode
  obtain ⟨after, hwritten⟩ := hsound.stands.written
  have hline : node.line = lineOffset + lineFeeds (text.toList.take e.start) + 1 := by
    have := hsound.stands.line
    omega
  refine ⟨_, node.fragment.toList, after, hwritten, fun hnil => ?_, ?_, ?_⟩
  · have hopens := hsound.stands.opens
    rw [hnil] at hopens
    exact absurd hopens (by simp)
  · rw [id, String.ofList_toList]
    exact hsnippet
  · rw [hlines, hsound.stands.endLine, hline]

variable [Scalar α]

/-- **Candidates quote the source**, with an indexer that hands out the index of what it is given,
and whenever the deadline strikes.  What attribute match and full structural propose stands in the
source as written, from its first line to its last.  What fast structural proposes stands in the
region of the recorded lines.  If the line breaks up to the last of them are plain, it stands in
the source up to carriage returns, on the lines it says; and if there are no carriage returns, it
stands there as written. -/
theorem resolve_quotes {task : Task α} (hgenuine : task.indexer.Genuine)
    (deadline : Option Float) : ∀ c ∈ (resolve task deadline).trace.candidates,
      (c.tier = .attributeMatch ∨ c.tier = .fullStructural →
        c.QuotesFrom id task.source.toList 0) ∧
      (c.tier = .fastStructural → ∃ range, task.anchor.range = some range ∧
        c.QuotesFrom id (sliceLines task.source range.first range.last).1.toList
          (sliceLines task.source range.first range.last).2 ∧
        ∀ lead, PlainUpTo task.source.toList range.last lead →
          c.QuotesFrom dropReturns task.source.toList 0 ∧
          ('\r' ∉ lead → c.QuotesFrom id task.source.toList 0)) := by
  intro c hc
  rcases cited_resolve task deadline c hc with
    hstored | ⟨index, node, hread, hnode, hlines, hsnippet⟩
  · rw [hstored]
    exact ⟨fun h => absurd h (by decide), fun h => absurd h (by decide)⟩
  · refine ⟨fun htier => ?_, fun htier => ?_⟩
    · have hwhole : task.ReadsWhole index := by
        rcases htier with htier | htier <;> rw [htier] at hread <;> exact hread
      obtain ⟨earlier, hindex⟩ := hwhole
      obtain rfl := hgenuine _ _ _ _ hindex
      exact quotesFrom_of_node hnode hlines hsnippet
    · rw [htier] at hread
      obtain ⟨range, earlier, hrange, hindex⟩ := hread
      obtain rfl := hgenuine _ _ _ _ hindex
      have hregion := quotesFrom_of_node hnode hlines hsnippet
      refine ⟨range, hrange, hregion, fun lead hlead => ?_⟩
      obtain ⟨ended, text, rest, hsource, hprefix, htext, hoffset⟩ :=
        sliceLines_plain range.one_le_first range.first_le_last hlead
      rw [htext, hoffset, ← Int.zero_add (lineFeeds ended : Int)] at hregion
      have htidy := hregion.ofDropReturns
      rw [hsource]
      refine ⟨htidy.embed rest, fun hreturn => (htidy.exact fun hmem => hreturn ?_).embed rest⟩
      exact hprefix.subset (List.mem_append_right _ hmem)

/-- A paragraph over two lines, which are recorded, and an element with a test id behind it; the
page denies everything. -/
def Task.overTwoLines (lineEnd : String) : Task Float :=
  { anchor :=
      { id := "a", selector := "p", updatedAt := ""
        hint := some { testid := some "t" }
        range := some ⟨1, 2, [], Int.one_pos, by decide⟩ }
    source := "<p id=\"a\">x" ++ lineEnd ++ "y</p><b data-testid=\"t\">z</b>"
    page := fun _ => ⟨0, .answer false none⟩
    budgets := ⟨fun _ => 1⟩
    weights := Settings.Blend.defaultWeights }

/-- With a line feed between the two lines, both elements are quoted as they stand. -/
theorem resolve_quotes_lineFeed : ∃ fast matching,
    fast ∈ (resolve (Task.overTwoLines "\n") none).trace.candidates ∧
    matching ∈ (resolve (Task.overTwoLines "\n") none).trace.candidates ∧
    fast.tier = .fastStructural ∧ matching.tier = .attributeMatch ∧
    fast.QuotesFrom id (Task.overTwoLines "\n").source.toList 0 ∧
    matching.QuotesFrom id (Task.overTwoLines "\n").source.toList 0 := by
  have hgenuine : (Task.overTwoLines "\n").indexer.Genuine := genuine_plainIndexer
  have htiers : (resolve (Task.overTwoLines "\n") none).trace.candidates.map (·.tier) =
      [.storedSelector, .fastStructural, .attributeMatch] := by decide +kernel
  have hmem : ∀ tier, tier ∈ [Tier.storedSelector, .fastStructural, .attributeMatch] →
      ∃ c ∈ (resolve (Task.overTwoLines "\n") none).trace.candidates, c.tier = tier :=
    fun tier htier => List.mem_map.mp (htiers ▸ htier)
  obtain ⟨fast, hfast, hfastTier⟩ := hmem .fastStructural (by decide)
  obtain ⟨matching, hmatching, hmatchingTier⟩ := hmem .attributeMatch (by decide)
  obtain ⟨range, -, -, hplain⟩ := (resolve_quotes hgenuine none fast hfast).2 hfastTier
  have hbreaks : PlainUpTo (Task.overTwoLines "\n").source.toList range.last
      (Task.overTwoLines "\n").source.toList :=
    ⟨List.prefix_refl _, .of_forall (List.all_iff_forall_prop.mp (by decide)), .inl rfl⟩
  exact ⟨fast, matching, hfast, hmatching, hfastTier, hmatchingTier,
    (hplain _ hbreaks).2 (by decide),
    (resolve_quotes hgenuine none matching hmatching).1 (.inl hmatchingTier)⟩

/-- With a carriage return before it, fast structural quotes what does not stand in the source. -/
theorem resolve_quotes_returnFeed :
    ∃ c ∈ (resolve (Task.overTwoLines "\r\n") none).trace.candidates, c.tier = .fastStructural ∧
      c.snippet = some "<p id=\"a\">x\ny</p>" ∧
      ¬c.QuotesFrom id (Task.overTwoLines "\r\n").source.toList 0 := by
  have hlist : (resolve (Task.overTwoLines "\r\n") none).trace.candidates.map
        (fun c => (c.tier, c.snippet)) =
      [(.storedSelector, none), (.fastStructural, some "<p id=\"a\">x\ny</p>"),
        (.attributeMatch, some "<b data-testid=\"t\">z</b>")] := by
    decide +kernel
  have hmem : (Tier.fastStructural, some "<p id=\"a\">x\ny</p>") ∈
      (resolve (Task.overTwoLines "\r\n") none).trace.candidates.map
        fun c => (c.tier, c.snippet) := by
    rw [hlist]
    decide
  obtain ⟨c, hc, heq⟩ := List.mem_map.mp hmem
  obtain ⟨htier, hsnippet⟩ := Prod.mk.inj heq
  refine ⟨c, hc, htier, hsnippet, ?_⟩
  rintro ⟨before, part, after, hsource, hquotation⟩
  have hpart : "<p id=\"a\">x\ny</p>".toList = part := by
    have hsame := Option.some.inj (hsnippet.symm.trans hquotation.snippet)
    rw [hsame, String.toList_ofList, id]
  have hinfix : "<p id=\"a\">x\ny</p>".toList <:+: (Task.overTwoLines "\r\n").source.toList :=
    ⟨before, after, by rw [hsource, hpart, List.append_assoc]⟩
  exact absurd hinfix (by decide)

end Mooring.Resolution
