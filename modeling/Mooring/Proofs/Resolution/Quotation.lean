import Mooring.Proofs.Markup.Nodes
import Mooring.Proofs.Resolution.Lasting

/-!
# What a resolution hands out is quoted from the source

A finding either comes from the stored selector, and then it brings nothing but the selector, or a
searching tier made it of an element, and then its hash, its lines and its fragment all belong to
that one element (`Finding.Bare`, `Finding.Quotes`).  With an indexer that hands out the index of
just the text it was given (`Indexer.Genuine`), the fragment stands in the source from its first
line on (`finding_cases`).

The two kinds are told apart for every entry of the list at the end of a run, not for the winner
alone: the pick only chooses.
-/

/-! ## Two kinds of findings -/

namespace Mooring.Anchor.Finding

open Mooring.Fragment Mooring.Text

/-- A finding that brings only a selector. -/
structure Bare (finding : Finding) : Prop where
  hash : finding.hash = none
  range : finding.range = []
  snippet : finding.snippet = none

/-- A finding quotes a fragment that stands in the source from a line on: it brings the hash in a
format, the lines, and the fragment itself. -/
structure Quotes (finding : Finding) (format : HashFormat) (fragment : String) (line : Int) :
    Prop where
  nonempty : fragment ≠ ""
  one_le_line : 1 ≤ line
  hash : finding.hash = some (Fragment.hash format fragment)
  range : finding.range =
    [("start", .int line), ("end", .int (line + lineFeeds fragment.toList))]
  snippet : finding.snippet = some fragment

end Mooring.Anchor.Finding

namespace Mooring.Resolution

open Mooring.Anchor Mooring.Decimal Mooring.Fragment Mooring.Markup Mooring.Text

variable {α : Type}

/-! ## Every entry of the list -/

/-- A candidate that quotes nothing. -/
structure Candidate.Bare (c : Candidate α) : Prop where
  hash : c.hash = none
  lines : c.lines = none
  snippet : c.snippet = none

/-- The candidate quotes nothing, or a tier found it. -/
def Task.Accounted (task : Task α) (c : Candidate α) : Prop :=
  c.Bare ∨ task.Found c

theorem lasting_accounted (task : Task α) : Lasting task.Accounted := by
  rintro c order liveness probeError stability (hbare | hfound)
  · exact .inl ⟨hbare.hash, hbare.lines, hbare.snippet⟩
  · exact .inr (hfound.congr rfl rfl rfl rfl)

section Lists

variable [Scalar α]

theorem accounted_turns (task : Task α) : ∀ turn ∈ task.turns, turn.Yields task.Accounted := by
  intro turn hturn found hfound c hc
  rcases mem_turns hturn with rfl | rfl | rfl
  · exact .inr ((makes_fastStructural hfound c hc).found (by decide))
  · exact .inr ((makes_attributeMatch hfound c hc).found (by decide))
  · exact .inr ((makes_fullStructural (fun _ => reads_matchTurn) hfound c hc).found (by decide))

/-- **Every entry of the list at the end of a run quotes nothing, or was found by a tier.** -/
theorem bare_or_found_outcome (task : Task α) :
    ∀ c ∈ task.run.outcome.trace.candidates, c.Bare ∨ task.Found c :=
  holds_outcome (lasting_accounted task) (.inl ⟨rfl, rfl, rfl⟩) (accounted_turns task)

end Lists

/-! ## The finding -/

/-- The indexer hands out nothing but the index of what it was given.  How long it takes, and when
it fails, is left open. -/
def Indexer.Genuine (indexer : Indexer) : Prop :=
  ∀ earlier text lineOffset index, (indexer earlier text lineOffset).result = .ok index →
    index = Index.ofSource text lineOffset

theorem genuine_plainIndexer : Indexer.Genuine plainIndexer :=
  fun _ _ _ _ h => (Except.ok.inj h).symm

/-- A candidate that a tier found carries the hash, the lines and the text of one fragment. -/
theorem Task.Found.quoted {task : Task α} (hgenuine : task.indexer.Genuine) {c : Candidate α}
    (h : task.Found c) : ∃ fragment : String, ∃ line : Int, fragment ≠ "" ∧ 1 ≤ line ∧
      c.hash = some (Fragment.hash (.ofStored (task.anchor.snippetHash.getD "")) fragment) ∧
      c.lines = some (line, line + lineFeeds fragment.toList) ∧ c.snippet = some fragment := by
  obtain ⟨index, node, ⟨earlier, text, lineOffset, hindex, hwhere⟩, hmem, hquotes⟩ := h
  obtain rfl := hgenuine earlier text lineOffset index hindex
  obtain ⟨hfragment, hline, hend⟩ := node_of_ofSource hmem
  -- The recorded lines may be indexed alone, but then with the lines before them counted.
  have hoffset : 0 ≤ lineOffset := by
    rcases hwhere with ⟨-, rfl⟩ | ⟨range, -, hslice⟩
    · exact Int.le_refl 0
    · have hsliced := sliceLines_offset task.source range.first range.last
      rw [← hslice] at hsliced
      exact hsliced
  refine ⟨node.fragment, node.line, hfragment, by omega, hquotes.hash, ?_, hquotes.snippet⟩
  rw [← hend]
  exact hquotes.lines

/-- **A finding brings only a selector, or it quotes one fragment**, hashed in the format of the
anchor's own hash. -/
theorem finding_cases {task : Task Float} (hgenuine : task.indexer.Genuine)
    {deadline : Option Float} {finding : Finding}
    (h : (resolve task deadline).finding? = some finding) :
    finding.Bare ∨ ∃ fragment line,
      finding.Quotes (.ofStored (task.anchor.snippetHash.getD "")) fragment line := by
  have hzero : Scalar.less (Scalar.zero : Float) Scalar.zero = false := by decide +kernel
  cases hwinner : (resolve task deadline).winner with
  | none =>
    rw [Outcome.finding?, hwinner] at h
    exact absurd h (by simp)
  | some c =>
    rw [finding?_of_winner hwinner] at h
    obtain rfl := Option.some.inj h
    rcases resolve_cases task deadline with ⟨-, hnone⟩ | ⟨-, houtcome⟩
    · rw [hnone] at hwinner
      exact absurd hwinner (by simp)
    · rw [houtcome] at hwinner
      rcases bare_or_found_outcome task c (winner_of_outcome hzero hwinner).1 with hbare | hfound
      · exact Or.inl ⟨hbare.hash, by rw [hbare.lines]; rfl, hbare.snippet⟩
      · obtain ⟨fragment, line, hne, hline, hhash, hlines, hsnippet⟩ := hfound.quoted hgenuine
        exact Or.inr ⟨fragment, line, hne, hline, hhash, by rw [hlines]; rfl, hsnippet⟩

end Mooring.Resolution
