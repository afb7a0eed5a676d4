import Mathlib.Data.Bool.AllAny
import Mooring.Fragment.Hash
import Mooring.Proofs.Fragment.Lowered
import Mooring.Proofs.Fragment.Requote

/-!
# The canonical form is canonical

What the five passes establish is collected in `Settled`: no value left to requote, no loose blank,
no capital in the name of a tag or of an assigned attribute.  Settled texts are the fixed points of
`canonical` (`canonicalText_of_settled`), and every canonical form is settled
(`settled_canonicalText`), because each pass keeps what the passes before it established.  So the
canonical form of a canonical form is that form (`canonical_idempotent`), and a fragment may be kept
in its canonical form and still be found by its hash.

The other half is that the freedoms which `canonical` means to take away are taken away: blanks
where blanks mean nothing, and the choice between the two quotes (`canonical_formatting`).  Applied
from left to right the two laws lead from any layout of a fragment to any other.
-/

namespace Mooring.Fragment

open Mooring.Text

/-- The five passes, on the characters. -/
def canonicalText (cs : List Char) : List Char :=
  lowerNames (lowerTags (settle true (requote cs)))

theorem canonical_eq (fragment : String) :
    canonical fragment = String.ofList (canonicalText fragment.toList) := by
  rw [canonical, tighten_squeeze, canonicalText]

/-- Nothing is left for any pass to do. -/
structure Settled (cs : List Char) : Prop where
  requoted : Requoted cs
  tidy : Tidy true cs
  tags : TagsLow cs
  names : NamesLow cs

theorem canonicalText_of_settled {cs : List Char} (h : Settled cs) : canonicalText cs = cs := by
  rw [canonicalText, ← requoteFrom_text, requoteFrom_of_requoted h.requoted,
    settle_of_tidy cs true h.tidy, lowerTags_of_tagsLow cs h.tags,
    lowerNames_of_namesLow cs h.names]

theorem settled_canonicalText (cs : List Char) : Settled (canonicalText cs) := by
  have hrequoted : Requoted (settle true (requote cs)) := by
    rw [← requoteFrom_text]
    exact (requoted_requoteFrom cs .text trivial).settle true
  have htags := reworded_lowerTags (settle true (requote cs))
  have hnames := reworded_lowerNames (lowerTags (settle true (requote cs)))
  exact
    { requoted := hnames.requoted (htags.requoted hrequoted)
      tidy := hnames.tidy true (htags.tidy true (tidy_settle _ true))
      tags := (tagsLow_lowerTags _).lowerNames
      names := namesLow_lowerNames _ }

/-- **The canonical form is its own canonical form, and has the fragment's hash** under every name
of a digest and for every number of digits. -/
theorem canonical_idempotent (fragment : String) :
    canonical (canonical fragment) = canonical fragment ∧
      ∀ (algorithm : String) (digits : Int),
        (HashFormat.named algorithm digits).map (hash · (canonical fragment)) =
          (HashFormat.named algorithm digits).map (hash · fragment) := by
  have hfixed : canonical (canonical fragment) = canonical fragment := by
    rw [canonical_eq fragment, canonical_eq, String.toList_ofList,
      canonicalText_of_settled (settled_canonicalText _)]
  refine ⟨hfixed, fun algorithm digits => ?_⟩
  have hhash : ∀ format, hash format (canonical fragment) = hash format fragment := by
    intro format
    rw [hash, hash, hfixed]
  simp only [hhash]

/-- Blanks where they mean nothing have no part in the canonical form. -/
theorem canonicalText_insert {u v w : List Char} (hw : ∀ c ∈ w, isBlank c = true)
    (h : (∀ c, u.getLast? = some c → isLoose c = true) ∨
      ∀ c, v.head? = some c → isLoose c = true) :
    canonicalText (u ++ (w ++ v)) = canonicalText (u ++ v) := by
  obtain ⟨u', mode, hwithout, hwith, hloose⟩ := requoteFrom_insert hw v u .text
  have hplace : looseAfter true u' = true ∨ startsLoose (requoteFrom mode v) = true := by
    rcases h with hu | hv
    · exact Or.inl (hloose true ((looseAfter_iff u true).mpr ⟨fun _ => rfl, hu⟩))
    · exact Or.inr (startsLoose_requoteFrom mode ((startsLoose_iff v).mpr hv))
  rw [canonicalText, canonicalText, ← requoteFrom_text, ← requoteFrom_text, hwithout, hwith,
    settle_insert hw u' true hplace]

/-- **Formatting has no part in the canonical form.**  Blanks may be put at either end and beside
blanks and punctuation; and a value without quotes, the first that single quotes could open, may
stand in either kind of quotes. -/
theorem canonical_formatting :
    (∀ u v w : String, (∀ c ∈ w.toList, isBlank c = true) →
      ((∀ c, u.toList.getLast? = some c → isLoose c = true) ∨
        ∀ c, v.toList.head? = some c → isLoose c = true) →
      canonical (u ++ w ++ v) = canonical (u ++ v)) ∧
    ∀ u x r : String, SingleFree u.toList → (∀ c ∈ x.toList, isQuote c = false) →
      canonical (u ++ "='" ++ x ++ "'" ++ r) = canonical (u ++ "=\"" ++ x ++ "\"" ++ r) := by
  refine ⟨fun u v w hw hplace => ?_, fun u x r hu hx => ?_⟩
  · rw [canonical_eq, canonical_eq, String.toList_append, String.toList_append,
      String.toList_append, List.append_assoc, canonicalText_insert hw hplace]
  · have hvalue := requote_value hu hx r.toList
    rw [canonical_eq, canonical_eq, canonicalText, canonicalText]
    simp only [String.toList_append, List.append_assoc]
    exact congrArg (fun cs => String.ofList (lowerNames (lowerTags (settle true cs)))) hvalue

theorem canonical_formatting_link :
    canonical ("<a" ++ "\n  " ++ ">") = canonical ("<a" ++ ">") ∧
      canonical ("<a href" ++ "='" ++ "/top" ++ "'" ++ ">") =
        canonical ("<a href" ++ "=\"" ++ "/top" ++ "\"" ++ ">") := by
  refine ⟨canonical_formatting.1 "<a" ">" "\n  "
      (List.all_iff_forall_prop.mp (by decide)) (Or.inr ?_),
    canonical_formatting.2 "<a href" "/top" ">" ?_ (List.all_iff_forall_prop.mp (by decide))⟩
  · intro c hc
    obtain rfl : '>' = c := Option.some.inj hc
    decide
  · intro before after hsplit
    have hmem : '=' ∈ "<a href".toList := by
      rw [hsplit]
      simp
    exact absurd hmem (by decide)

end Mooring.Fragment
