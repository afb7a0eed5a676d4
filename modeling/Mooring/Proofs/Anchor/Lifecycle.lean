import Mathlib.Logic.Relation
import Mooring.Proofs.Anchor.Captured
import Mooring.Proofs.Fragment.Stored
import Mooring.Proofs.Resolution.Quotation
import Mooring.Proofs.Store.Written

/-!
# The life of an anchor

An anchor is captured once, and then resolved, refreshed, stored and read back any number of times,
each time against another source and another page.  Hash, fragment and lines are made in one place,
made anew in three others in a format that is read off the old hash, handed over field by field and
only if they are there, and written to a file and read from it.  They still belong together
whenever anyone looks: that is `Kept`, the invariant of a life (`lifecycle_kept`).

One step keeps it (`Kept.step`).  For a resolution this is because a finding brings all three or
none of them (`Resolution.finding_cases`), and because the format of a hash survives being read off
it.  For the store it is because the anchor comes back as it was, which asks a little more of it:
the invariant that goes through the induction is `Kept` together with `Plain`.

A step is also possible when it should be: what a resolution found can be taken over
(`Kept.refresh`), and a file of its own gives the anchor back (`Store.get_after_put_nothing`).
-/

namespace Mooring.Anchor

open Mooring.Decimal Mooring.Fragment Mooring.Markup Mooring.Record Mooring.Resolution Mooring.Store
open Mooring.Text

/-! ## What is kept -/

/-- The fragment, the hash and the lines of an anchor belong together: the fragment has the hash,
which is written in the format, and the lines are as many as the fragment has. -/
structure Consistent (format : HashFormat) (anchor : Anchor) (fragment hash : String)
    (lines : SourceRange) : Prop where
  snippet : anchor.snippet = some fragment
  snippetHash : anchor.snippetHash = some hash
  range : anchor.range = some lines
  hashMatches : hashMatches fragment hash = true
  format : HashFormat.ofStored hash = format
  one_le_first : 1 ≤ lines.first
  first_le_last : lines.first ≤ lines.last
  height : lines.last - lines.first = lineFeeds fragment.toList

/-- What is kept of an anchor that was captured under an id, with a hash of some format. -/
structure Kept (id : String) (format : HashFormat) (anchor : Anchor) : Prop where
  id : anchor.id = id
  consistent : ∃ fragment hash lines, Consistent format anchor fragment hash lines
  stability : 0 ≤ anchor.stability ∧ anchor.stability ≤ 1

/-- A step in the life of an anchor. -/
inductive Step : Anchor → Anchor → Prop
  /-- It is resolved, whatever the source, the page and the budgets are, and takes over what was
  found. -/
  | resolved {task : Resolution.Task Float} {deadline : Option Float} {finding : Finding}
      {now : Moment} {next : Anchor} : task.indexer.Genuine →
      (resolve task deadline).finding? = some finding →
      task.anchor.refresh finding now = .ok next → Step task.anchor next
  /-- It is put into a file through some handle, and a fresh one reads it back. -/
  | stored {shared : Shared} {stamp stamp' : String} {number : Nat} {anchor next : Anchor} :
      shared.Reached →
      (shared.ask stamp number (.put anchor)).1 = .ok .done →
      (ask stamp' (.get anchor.id) ((shared.ask stamp number (.put anchor)).2.entry, {})).1 =
        .ok (.anchor (some next)) → Step anchor next

/-! ## The stability -/

/-- **A stability lies between 0 and 1**, whatever the confidence. -/
theorem Confidence.stability_bounds (confidence : Confidence) :
    0 ≤ confidence.stability ∧ confidence.stability ≤ 1 := by
  have hzero : (0 : Float) ≤ 0 := by decide +kernel
  have hunit : (0 : Float) ≤ 1 := by decide +kernel
  have hone : (1 : Float) ≤ 1 := by decide +kernel
  cases confidence with
  | whole n =>
    rw [stability]
    split
    · exact ⟨hunit, hone⟩
    · exact ⟨hzero, hunit⟩
  | float x =>
    rw [stability]
    generalize hcapped : (if Scalar.round 4 x < 1 then Scalar.round 4 x else 1) = capped
    have hle : capped ≤ 1 := by
      rw [← hcapped]
      split
      next hlt => exact le_of_lt hlt
      next => exact hone
    split
    next hlt => exact ⟨le_of_lt hlt, hle⟩
    next => exact ⟨hzero, hunit⟩

/-! ## The beginning -/

variable {id : String} {place : Place} {stamp : String} {captured anchor : Anchor}

/-- **A new anchor has all that is to be kept.** -/
theorem kept_capture (h : capture id place stamp = .ok captured) :
    ∃ format, HashFormat.named place.algorithm place.digits = .ok format ∧
      Kept id ⟨format.algorithm, format.kept⟩ captured ∧ captured.Plain := by
  have hzero : (0 : Float) ≤ 0 ∧ (0 : Float) ≤ 1 := by decide +kernel
  obtain ⟨node, format, hnode, hformat, hid, rfl⟩ := capture_eq_ok h
  obtain ⟨range, hrange, hextra, hfirst, hlast⟩ := rangeOf?_of_node hnode
  refine ⟨format, hformat, ⟨rfl, ⟨node.fragment, Fragment.hash format node.fragment, range, ?_⟩,
    hzero⟩, ?_⟩
  · exact
      { snippet := rfl
        snippetHash := rfl
        range := hrange
        hashMatches := hashMatches_hash format node.fragment
        format := ofStored_hash format node.fragment
        one_le_first := range.one_le_first
        first_le_last := range.first_le_last
        height := by omega }
  · exact
      { id := hid
        stability := ⟨not_lt_of_le hzero.2, not_lt_of_le hzero.1⟩
        range := fun other hother => by
          obtain rfl := Option.some.inj (hrange.symm.trans hother)
          exact hextra
        hint := fun hint hhint => by
          obtain rfl := Option.some.inj hhint
          rfl
        about := fun about habout => absurd habout (by simp [ofNode])
        extra := rfl }

/-! ## Taking over what was found -/

theorem newer_some {old : Option String} {new : String} (h : new ≠ "") :
    newer old (some new) = some new := by
  rw [newer, if_neg (by simpa using h)]

variable {format : HashFormat} {finding : Finding}

/-- A finding that brings only a selector leaves hash, fragment and lines alone. -/
theorem refresh_of_bare (anchor : Anchor) (h : finding.Bare) (now : Moment) :
    anchor.refresh finding now = .ok { anchor with
      selector := finding.selector
      stability := finding.confidence.stability
      updatedAt := now.text } := by
  rw [refresh, h.range, h.hash, h.snippet]
  rfl

/-- A finding that quotes a fragment replaces hash, fragment and lines together. -/
theorem refresh_of_quotes (anchor : Anchor) {fragment : String} {line : Int}
    (h : finding.Quotes format fragment line) (now : Moment) :
    anchor.refresh finding now = .ok { anchor with
      selector := finding.selector
      stability := finding.confidence.stability
      updatedAt := now.text
      snippetHash := some (Fragment.hash format fragment)
      snippet := some fragment
      range := some ⟨line, line + lineFeeds fragment.toList, [], h.one_le_line, by omega⟩ } := by
  rw [refresh, h.range, h.hash, h.snippet, newer_some h.nonempty,
    newer_some (hash_ne_empty format fragment),
    SourceRange.ofFields_lines h.one_le_line (by omega)]
  rfl

/-- **What a resolution found can be taken over**, and all that is kept is kept. -/
theorem Kept.refresh (h : Kept id format anchor) (hplain : anchor.Plain)
    {task : Resolution.Task Float} (hanchor : task.anchor = anchor)
    (hgenuine : task.indexer.Genuine) {deadline : Option Float}
    (hfinding : (resolve task deadline).finding? = some finding) (now : Moment) :
    ∃ next, anchor.refresh finding now = .ok next ∧ Kept id format next ∧ next.Plain := by
  obtain ⟨fragment, hash, lines, hconsistent⟩ := h.consistent
  have hstability := finding.confidence.stability_bounds
  have hunit : ¬1 < finding.confidence.stability ∧ ¬finding.confidence.stability < 0 :=
    ⟨not_lt_of_le hstability.2, not_lt_of_le hstability.1⟩
  rcases finding_cases hgenuine hfinding with hbare | ⟨quoted, line, hquotes⟩
  · -- The stored selector was confirmed: hash, fragment and lines stay.
    refine ⟨_, refresh_of_bare anchor hbare now, ⟨h.id, ?_, hstability⟩, ?_⟩
    · exact ⟨fragment, hash, lines, { hconsistent with }⟩
    · exact { hplain with stability := hunit }
  · rw [hanchor, hconsistent.snippetHash, Option.getD_some, hconsistent.format] at hquotes
    -- A tier found the element and hashed it in the format that the old hash shows.
    have hformat : HashFormat.ofStored (Fragment.hash format quoted) = format := by
      rw [← hconsistent.format, ofStored_hash_ofStored hconsistent.hashMatches]
    refine ⟨_, refresh_of_quotes anchor hquotes now, ⟨h.id, ?_, hstability⟩, ?_⟩
    · exact ⟨quoted, _, _,
        { snippet := rfl
          snippetHash := rfl
          range := rfl
          hashMatches := hashMatches_hash format quoted
          format := hformat
          one_le_first := hquotes.one_le_line
          first_le_last := by dsimp only; omega
          height := by dsimp only; omega }⟩
    · exact
        { hplain with
          stability := hunit
          range := fun other hother => by
            obtain rfl := Option.some.inj hother
            rfl }

/-! ## The life -/

/-- One step keeps what is kept. -/
theorem Kept.step (h : Kept id format anchor) (hplain : anchor.Plain) {next : Anchor}
    (hstep : Step anchor next) : Kept id format next ∧ next.Plain := by
  cases hstep with
  | resolved hgenuine hfinding hnext =>
    obtain ⟨other, hother, hkept⟩ := h.refresh hplain rfl hgenuine hfinding _
    rw [hnext] at hother
    rw [Except.ok.inj hother]
    exact hkept
  | @stored shared stamp stamp' number _ _ hreached hput hget =>
    -- What is read back is the anchor itself, whatever else is in the file.
    have hsame : some next = some anchor :=
      @get_after_put (shared.entry, shared.handles number) (hreached.clean number) anchor hplain
        stamp stamp' (some next) hput hget
    rw [Option.some.inj hsame]
    exact ⟨h, hplain⟩

theorem Kept.run {first : Anchor} (h : Kept id format first) (hplain : first.Plain)
    (hrun : Relation.ReflTransGen Step first anchor) : Kept id format anchor ∧ anchor.Plain := by
  induction hrun with
  | refl => exact ⟨h, hplain⟩
  | tail _ hstep ih => exact ih.1.step ih.2 hstep

/-- **Whatever happens to an anchor, its id stays, its fragment, hash and lines belong together, its
hash stays in the format of the capture, and its stability lies between 0 and 1.**  And the life can
go on: what a resolution finds can be taken over, and an anchor that is stored alone is read back as
it is. -/
theorem lifecycle_kept (h : capture id place stamp = .ok captured)
    (hrun : Relation.ReflTransGen Step captured anchor) :
    ∃ format : HashFormat, HashFormat.named place.algorithm place.digits = .ok format ∧
      captured.id = id ∧
      captured.snippetHash.map HashFormat.ofStored = some ⟨format.algorithm, format.kept⟩ ∧
      Kept id ⟨format.algorithm, format.kept⟩ anchor ∧
      (∀ (task : Resolution.Task Float) deadline finding now, task.anchor = anchor →
        task.indexer.Genuine → (resolve task deadline).finding? = some finding →
        ∃ next, anchor.refresh finding now = .ok next) ∧
      ∀ stamp stamp', (ask stamp (.put anchor) (.nothing, {})).1 = .ok .done ∧
        (ask stamp' (.get anchor.id) ((ask stamp (.put anchor) (.nothing, {})).2.1, {})).1 =
          .ok (.anchor (some anchor)) := by
  obtain ⟨format, hformat, hcaptured, hnew⟩ := kept_capture h
  obtain ⟨fragment, hash, lines, hconsistent⟩ := hcaptured.consistent
  obtain ⟨hkept, hplain⟩ := hcaptured.run hnew hrun
  refine ⟨format, hformat, hcaptured.id, ?_, hkept, ?_, ?_⟩
  · rw [hconsistent.snippetHash, Option.map_some, hconsistent.format]
  · intro task deadline finding now hanchor hgenuine hfinding
    obtain ⟨next, hnext, -⟩ := hkept.refresh hplain hanchor hgenuine hfinding now
    exact ⟨next, hnext⟩
  · exact fun stamp stamp' => get_after_put_nothing stamp stamp' hplain

/-- A paragraph that is captured and then confirmed by the page. -/
theorem lifecycle_kept_paragraph : ∃ captured next : Anchor,
    capture "a" { source := "<p>x</p>", file := "page.html", line := 1 } "" = .ok captured ∧
      Relation.ReflTransGen Step captured next ∧ Kept "a" ⟨.sha1, 16⟩ next := by
  have hok : (capture "a" { source := "<p>x</p>", file := "page.html", line := 1 } "").isOk := by
    decide +kernel
  cases hcapture : capture "a" { source := "<p>x</p>", file := "page.html", line := 1 } "" with
  | error failure =>
    rw [hcapture] at hok
    exact absurd hok (by simp [Except.isOk, Except.toBool])
  | ok captured =>
    let task : Resolution.Task Float :=
      { anchor := captured
        source := ""
        page := fun _ => ⟨0, .answer true none⟩
        budgets := ⟨fun _ => 1⟩
        weights := Settings.Blend.defaultWeights }
    have hlimit : 0 < millis task.storedTimeout :=
      show 0 < millis (smallerBudget 1 1) by decide +kernel
    have halive : task.storedVisit.verdict.liveness = .alive :=
      (visit_alive_iff task.page task.storedTimeout captured.selector).mpr
        ⟨hlimit, hlimit.le, none, rfl⟩
    have hfinding := finding?_of_winner (outcome_of_alive halive).2
    obtain ⟨-, -, -, -, -, htaken, -⟩ := lifecycle_kept hcapture .refl
    obtain ⟨next, hnext⟩ :=
      htaken task none _ (Moment.ofSeconds 0) rfl genuine_plainIndexer hfinding
    have hrun : Relation.ReflTransGen Step captured next :=
      .single (@Step.resolved task none _ _ _ genuine_plainIndexer hfinding hnext)
    obtain ⟨format, hformat, -, -, hkept, -⟩ := lifecycle_kept hcapture hrun
    obtain rfl : (⟨.sha1, 16⟩ : HashFormat) = format := Except.ok.inj hformat
    exact ⟨captured, next, rfl, hrun, hkept⟩

end Mooring.Anchor
