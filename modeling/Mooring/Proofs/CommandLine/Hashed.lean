import Mooring.CommandLine.Perform
import Mooring.Proofs.Anchor.Captured
import Mooring.Proofs.Markup.Lines

/-!
# Hashing the lines of an anchor

`hash` over the lines of an anchor that was captured in a file prints the hash that the anchor has,
as long as the element stands alone on its lines and the line breaks up to its end are plain
(`hash_of_captured_lines`).  A file with other line breaks may give another hash
(`Markup.hash_sliceLines_formFeed`).
-/

namespace Mooring.CommandLine

open Mooring.Fragment Mooring.Markup Mooring.Store Mooring.Text

variable {around : Surroundings} {call : HashCall} {bytes : ByteArray} {text : String}

/-- The lines of a file are hashed in the format that was asked for. -/
theorem hash_of_textOf {format : HashFormat} (hread : textOf bytes = .ok text)
    {last : Int} (hlast : call.last = some last) (hfirst : 1 ≤ call.first)
    (hrange : call.first ≤ last)
    (hformat : HashFormat.named call.hashing.algorithm call.hashing.digits = .ok format) :
    CommandLine.hash around call (.file bytes) =
      { ending := .exit 0 [Fragment.hash format (sliceLines text call.first last).1] } := by
  have hgood : ¬(decide (call.first < 1) || decide (last < call.first)) = true := by
    simp only [Bool.or_eq_true, decide_eq_true_eq]
    omega
  simp only [CommandLine.hash, withSource, hread, hlast, Option.getD_some, if_neg hgood, hformat]

/-- **The lines of an element have its hash**, in every format, if it stands alone on them and the
line breaks up to its end are plain.  So `hash` prints the hash of an anchor over its lines. -/
theorem hash_of_captured_lines (place : Anchor.Place) :
    (∀ node ∈ (Index.ofSource place.source).nodes,
      ∀ before after, Alone place.source node before after →
        PlainBreaks (before ++ node.fragment.toList) → ∀ format,
          Fragment.hash format (sliceLines place.source node.line node.endLine).1 =
            Fragment.hash format node.fragment) ∧
    ∀ (id stamp : String) (captured : Anchor) (bytes : ByteArray) (around : Surroundings),
      textOf bytes = .ok place.source → Anchor.capture id place stamp = .ok captured →
      ∃ node ∈ (Index.ofSource place.source).nodes, ∃ range stored,
        captured.snippet = some node.fragment ∧ captured.range = some range ∧
        range.first = node.line ∧ range.last = node.endLine ∧
        captured.snippetHash = some stored ∧
        ∀ before after, Alone place.source node before after →
          PlainBreaks (before ++ node.fragment.toList) →
          CommandLine.hash around
              { file := place.file, first := range.first, last := some range.last,
                hashing := ⟨place.algorithm, place.digits⟩ } (.file bytes) =
            { ending := .exit 0 [stored] } := by
  refine ⟨fun node hnode before after halone hplain format =>
    hash_sliceLines hnode halone hplain format, ?_⟩
  intro id stamp captured bytes around hread hcapture
  obtain ⟨node, format, hnode, hformat, -, rfl⟩ := Anchor.capture_eq_ok hcapture
  obtain ⟨range, hrange, -, hfirst, hlast⟩ := Anchor.rangeOf?_of_node hnode
  obtain ⟨-, -, hend⟩ := node_of_ofSource hnode
  rw [← hend] at hlast
  refine ⟨node, hnode, range, _, rfl, hrange, hfirst, hlast, rfl, ?_⟩
  intro before after halone hplain
  rw [hash_of_textOf hread rfl range.one_le_first range.first_le_last hformat, hfirst, hlast,
    hash_sliceLines hnode halone hplain format]

/-- A paragraph over two lines, indented and captured under its first line. -/
def indented : Anchor.Place :=
  { source := " <p>a\nb</p>\n", file := "page.html", line := 1 }

theorem hash_of_captured_lines_indented : ∃ captured range stored,
    Anchor.capture "a" indented "" = .ok captured ∧ captured.range = some range ∧
      captured.snippetHash = some stored ∧
      CommandLine.hash { directory := { names := [] }, now := Moment.ofSeconds 0 }
          { file := "page.html", first := range.first, last := some range.last }
          (.file " <p>a\nb</p>\n".toUTF8) =
        { ending := .exit 0 [stored] } := by
  have hread : textOf " <p>a\nb</p>\n".toUTF8 = .ok indented.source := by
    unfold textOf
    rw [ofBytes_toUTF8]
    rfl
  have hok : (Anchor.capture "a" indented "").isOk := by decide +kernel
  have hnodes : (Index.ofSource indented.source).nodes.map
      (fun node => (node.fragment, node.line)) = [("<p>a\nb</p>", 1)] := by
    decide +kernel
  cases hcapture : Anchor.capture "a" indented "" with
  | error failure =>
    rw [hcapture] at hok
    exact absurd hok (by simp [Except.isOk, Except.toBool])
  | ok captured =>
    obtain ⟨node, hnode, range, stored, -, hrange, -, -, hstored, hprints⟩ :=
      (hash_of_captured_lines indented).2 "a" "" captured _ _ hread hcapture
    have hmem := List.mem_map_of_mem (f := fun node : Node => (node.fragment, node.line)) hnode
    rw [hnodes, List.mem_singleton, Prod.mk.injEq] at hmem
    obtain ⟨hfragment, hline⟩ := hmem
    have halone : Alone indented.source node [' '] ['\n'] := by
      refine ⟨by rw [hfragment]; rfl, hline, fun part hpart _ c hc => ?_,
        fun part hpart _ c hc => ?_⟩
      · rw [List.mem_singleton.mp (hpart.subset hc)]
        rfl
      · rw [List.mem_singleton.mp (hpart.subset hc)]
        rfl
    refine ⟨captured, range, stored, rfl, hrange, hstored, hprints _ _ halone ?_⟩
    rw [hfragment]
    exact .of_forall (List.all_iff_forall_prop.mp (by decide +kernel))

end Mooring.CommandLine
