import Mooring.Proofs.Anchor.Lifecycle
import Mooring.Proofs.Resolution.Delays

/-!
# Writing back converges in one step

An anchor takes over the selector that a resolution found.  If the page goes on to say the same, and
says it in time, the next resolution is done with one question: it finds the stored selector, with
full confidence, and indexes nothing, whatever the source has become (`Task.Settled`).  It brings
nothing but the selector, so taking it over again leaves the anchor's hash, fragment and lines alone
(`refresh_converges`).

The selector was found because the page confirmed it.  It may have had more time then than it has
now, but a prompt page (`Task.Prompt`) needs no more than the shorter of the two budgets.
-/

namespace Mooring.Resolution

open Mooring.Anchor Mooring.Decimal

/-- Resolving the anchor finds its own selector, with full confidence and without indexing anything,
and taking this over leaves the selector, the hash, the fragment and the lines alone. -/
structure Task.Settled (task : Task Float) : Prop where
  selector : (resolve task none).selector? = some task.anchor.selector
  tier : (resolve task none).tier? = some .storedSelector
  confidence : (resolve task none).confidence = 1
  indexed : (resolve task none).trace.indexed = []
  kept : ∃ finding, (resolve task none).finding? = some finding ∧ ∀ now, ∃ next,
    task.anchor.refresh finding now = .ok next ∧ next.selector = task.anchor.selector ∧
      next.snippetHash = task.anchor.snippetHash ∧ next.snippet = task.anchor.snippet ∧
      next.range = task.anchor.range

/-- Asking about the stored selector indexes nothing. -/
theorem indexed_storedStep (task : Task Float) : (storedStep task).done.indexed = [] := by
  unfold storedStep
  dsimp only
  split <;> rfl

/-- **An anchor is settled once the page confirms its selector.** -/
theorem Task.settled_of_confirms {task : Task Float}
    (h : task.page.Confirms task.storedTimeout task.anchor.selector) : task.Settled := by
  have halive : task.storedVisit.verdict.liveness = .alive := (visit_alive_iff _ _ _).mpr h
  have hone : (Scalar.one : Float) = 1 := by decide
  have hwinner : (resolve task none).winner = some (task.stored.rated task.weights task.prefer) :=
    (outcome_of_alive halive).2
  have hliveness : (task.stored.rated task.weights task.prefer).liveness = .alive := halive
  refine ⟨?_, ?_, ?_, ?_, _, finding?_of_winner hwinner, fun now => ?_⟩
  · rw [Outcome.selector?, hwinner]
    rfl
  · rw [Outcome.tier?, hwinner]
    rfl
  · rw [Outcome.confidence, hwinner, Option.map_some, Option.getD_some, Candidate.confidence,
      hliveness]
    exact hone
  · show task.run.outcome.trace.indexed = []
    rw [outcome_eq_storedOutcome halive]
    exact indexed_storedStep task
  · exact ⟨_, refresh_of_bare task.anchor ⟨rfl, rfl, rfl⟩ now, rfl, rfl, rfl, rfl⟩

/-- What a resolution hands out, the page has said yes to. -/
theorem reply_of_finding {task : Task Float} {deadline : Option Float} {finding : Finding}
    (h : (resolve task deadline).finding? = some finding) :
    ∃ error, (task.page finding.selector).reply = .answer true error := by
  have hzero : Scalar.less (Scalar.zero : Float) Scalar.zero = false := by decide
  obtain ⟨c, hwinner, rfl⟩ := Option.map_eq_some_iff.mp h
  rcases resolve_cases task deadline with ⟨-, hnone⟩ | ⟨-, houtcome⟩
  · rw [hnone] at hwinner
    exact absurd hwinner (by simp)
  · rw [houtcome] at hwinner
    obtain ⟨hmem, hlive⟩ := winner_of_outcome hzero hwinner
    obtain ⟨-, -, hreply⟩ := (judged_outcome task c hmem).alive.mp hlive
    exact hreply

/-- What a resolution hands out can be taken over, whatever the anchor is. -/
theorem refresh_of_finding {task : Task Float} (hgenuine : task.indexer.Genuine)
    {deadline : Option Float} {finding : Finding}
    (h : (resolve task deadline).finding? = some finding) (now : Moment) :
    ∃ next, task.anchor.refresh finding now = .ok next := by
  rcases finding_cases hgenuine h with hbare | ⟨fragment, line, hquotes⟩
  · exact ⟨_, refresh_of_bare task.anchor hbare now⟩
  · exact ⟨_, refresh_of_quotes task.anchor hquotes now⟩

/-- The anchor takes over the very selector that was found. -/
theorem selector_of_refresh {anchor next : Anchor} {finding : Finding} {now : Moment}
    (h : anchor.refresh finding now = .ok next) : next.selector = finding.selector := by
  unfold Anchor.refresh at h
  dsimp only at h
  split at h
  · rw [← Except.ok.inj h]
  · cases hrange : SourceRange.ofFields finding.range with
    | error problems =>
      rw [hrange] at h
      exact absurd h (by simp [Except.map, bind, Except.bind])
    | ok range =>
      rw [hrange] at h
      rw [← Except.ok.inj h]

/-- **What a resolution finds, the next one finds at once.**  On a prompt page that goes on to say
the same, an anchor that took over what was found is settled, whatever its source has become, and
with whatever indexer and weights it is resolved.  With an indexer that keeps to what it is given,
what was found can always be taken over. -/
theorem refresh_converges {task : Task Float} (hprompt : task.Prompt task.page)
    {deadline : Option Float} {finding : Finding}
    (h : (resolve task deadline).finding? = some finding) (now : Moment) :
    (task.indexer.Genuine → ∃ next, task.anchor.refresh finding now = .ok next) ∧
      ∀ next, task.anchor.refresh finding now = .ok next → next.selector = finding.selector ∧
        ∀ other : Task Float, other.anchor = next → other.page = task.page →
          other.budgets = task.budgets → other.Settled := by
  refine ⟨fun hgenuine => refresh_of_finding hgenuine h now, fun next hnext => ?_⟩
  have hselector := selector_of_refresh hnext
  refine ⟨hselector, fun other hanchor hpage hbudgets => Task.settled_of_confirms ?_⟩
  have hlimit : other.storedTimeout = task.storedTimeout := by
    rw [Task.storedTimeout, Task.storedTimeout, hbudgets]
  rw [hanchor, hpage, hlimit, hselector]
  have hdelay := (hprompt finding.selector).1
  have htime := hprompt.stored finding.selector
  exact ⟨lt_of_le_of_lt hdelay htime, le_of_lt htime, reply_of_finding h⟩

/-- A resolution that finds a renamed element by its test id. -/
def Task.renamed : Task Float :=
  { anchor :=
      { id := "a", selector := "#old", updatedAt := ""
        hint := some { testid := some "x" } }
    source := "<p data-testid=\"x\">go</p>"
    page := fun selector => ⟨1, .answer (selector == "[data-testid=\"x\"]") none⟩
    budgets := ⟨fun _ => 100⟩
    weights := Settings.Blend.defaultWeights }

theorem refresh_converges_renamed : ∃ finding next,
    Task.renamed.Prompt Task.renamed.page ∧
      (resolve Task.renamed none).finding? = some finding ∧ Task.renamed.indexer.Genuine ∧
      Task.renamed.anchor.refresh finding (Moment.ofSeconds 0) = .ok next ∧
      next.selector = "[data-testid=\"x\"]" ∧
      ({ Task.renamed with anchor := next, source := "" } : Task Float).Settled := by
  have hprompt : Task.renamed.Prompt Task.renamed.page :=
    fun _ => (by decide : (0 : Rat) ≤ 1 ∧ (1 : Rat) < millis 100 ∧ (1 : Rat) < millis 100)
  have hfound : (resolve Task.renamed none).finding?.map (·.selector) =
      some "[data-testid=\"x\"]" := by decide +kernel
  obtain ⟨finding, hfinding, hselector⟩ := Option.map_eq_some_iff.mp hfound
  obtain ⟨htaken, hsettled⟩ := refresh_converges hprompt hfinding (Moment.ofSeconds 0)
  obtain ⟨next, hnext⟩ := htaken genuine_plainIndexer
  obtain ⟨hsame, hagain⟩ := hsettled next hnext
  exact ⟨finding, next, hprompt, hfinding, genuine_plainIndexer, hnext, hsame.trans hselector,
    hagain _ rfl rfl rfl⟩

end Mooring.Resolution
