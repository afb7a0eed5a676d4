import Mathlib.Data.Bool.AllAny
import Mooring.Fragment.Hash
import Mooring.Proofs.Text.Finding

/-!
# A stored hash says how it was made

A hash names its digest and shows how many digits of it were kept, and that is enough to make it
again: the format read from a hash makes the same hash of the same fragment
(`hashMatches_hash`), and hashing something else in that format gives a hash of the same format
(`ofStored_hash_ofStored`).  So a format survives any number of hashes, each made in the format of
the one before.

Nothing else matches: whatever text is stored, a fragment matches it just in case it is one of the
fragment's hashes, and the format read from it is always one that can be hashed in
(`hashMatches_exactly`).
-/

namespace Mooring.Fragment

open Mooring.Digest

/-- At least six digits are kept, and never more than there are. -/
theorem kept_bounds (format : HashFormat) :
    6 ≤ format.kept ∧ format.kept ≤ format.algorithm.hexLength := by
  have hlength : 6 ≤ format.algorithm.hexLength := by
    cases format.algorithm <;> decide
  unfold HashFormat.kept
  omega

/-- A number of digits that was kept is kept again. -/
theorem kept_kept (format : HashFormat) :
    HashFormat.kept ⟨format.algorithm, format.kept⟩ = format.kept := by
  have hbounds := kept_bounds format
  rw [HashFormat.kept]
  dsimp only
  omega

theorem toList_hash (format : HashFormat) (fragment : String) :
    (hash format fragment).toList = format.algorithm.name.toList ++
      ':' :: (format.algorithm.hex (canonical fragment)).take format.kept := by
  simp [hash]

theorem length_kept_digits (format : HashFormat) (fragment : String) :
    ((format.algorithm.hex (canonical fragment)).take format.kept).length = format.kept := by
  have hbounds := kept_bounds format
  rw [List.length_take, length_hex]
  omega

theorem ofName?_name (algorithm : Algorithm) :
    Algorithm.ofName? algorithm.name = some algorithm := by
  cases algorithm <;> decide

/-- **The format of a hash can be read from it.** -/
theorem ofStored_hash (format : HashFormat) (fragment : String) :
    HashFormat.ofStored (hash format fragment) = ⟨format.algorithm, format.kept⟩ := by
  have hname : ∀ c ∈ format.algorithm.name.toList, (c == ':') = false := by
    cases format.algorithm <;> exact List.all_iff_forall_prop.mp (by decide)
  have hlength := length_kept_digits format fragment
  have hbounds := kept_bounds format
  unfold HashFormat.ofStored
  rw [toList_hash, Text.splitBefore?_lead hname (by decide)]
  dsimp only
  rw [String.ofList_toList, ofName?_name]
  dsimp only
  rw [if_neg, hlength]
  rw [List.isEmpty_iff_length_eq_zero, hlength]
  omega

theorem hash_ne_empty (format : HashFormat) (fragment : String) : hash format fragment ≠ "" := by
  intro he
  have hlist := toList_hash format fragment
  rw [he] at hlist
  exact absurd hlist.symm (by simp)

/-- **A fragment matches each of its hashes.** -/
theorem hashMatches_hash (format : HashFormat) (fragment : String) :
    hashMatches fragment (hash format fragment) = true := by
  have hsame : hash (.ofStored (hash format fragment)) fragment = hash format fragment := by
    rw [ofStored_hash, hash, kept_kept, hash]
  rw [hashMatches, hsame]
  simp [hash_ne_empty]

/-- A text that matches is the hash in the format read from it. -/
theorem hash_ofStored {fragment stored : String} (h : hashMatches fragment stored = true) :
    hash (.ofStored stored) fragment = stored := by
  simp only [hashMatches, Bool.and_eq_true, beq_iff_eq] at h
  exact h.2

/-- **Hashing anything in the format of a hash that was matched keeps that format.** -/
theorem ofStored_hash_ofStored {fragment stored : String} (h : hashMatches fragment stored = true)
    (other : String) :
    HashFormat.ofStored (hash (.ofStored stored) other) = .ofStored stored := by
  have hstored := hash_ofStored h
  calc HashFormat.ofStored (hash (.ofStored stored) other)
      = ⟨(HashFormat.ofStored stored).algorithm, (HashFormat.ofStored stored).kept⟩ :=
        ofStored_hash _ other
    _ = HashFormat.ofStored (hash (.ofStored stored) fragment) := (ofStored_hash _ fragment).symm
    _ = .ofStored stored := by rw [hstored]

/-- The digits kept are the ones asked for, brought into the range from six to all. -/
theorem cast_kept (format : HashFormat) :
    (format.kept : Int) = max 6 (min format.digits format.algorithm.hexLength) := by
  unfold HashFormat.kept
  omega

/-- A format can be given by the name of its digest. -/
theorem named_name (format : HashFormat) :
    HashFormat.named format.algorithm.name format.digits = .ok format := by
  rw [HashFormat.named, ofName?_name]

/-- **A fragment matches its hashes and nothing else.**  For any text at all, malformed, too short
or of a foreign digest, the fragment matches it just in case some digest and some number of digits,
negative and too large ones included, make that text of the fragment.  A hash shows the digest it
was made with and the number of digits brought into range.  And what is read from a text is always
the name of a supported digest, so hashing again to compare cannot fail. -/
theorem hashMatches_exactly (fragment : String) :
    (∀ stored : String, hashMatches fragment stored = true ↔
      ∃ (algorithm : Algorithm) (digits : Int), stored = hash ⟨algorithm, digits⟩ fragment) ∧
    (∀ (algorithm : Algorithm) (digits : Int),
      hashMatches fragment (hash ⟨algorithm, digits⟩ fragment) = true ∧
      HashFormat.ofStored (hash ⟨algorithm, digits⟩ fragment) =
        ⟨algorithm, max 6 (min digits algorithm.hexLength)⟩) ∧
    (∀ stored : String, HashFormat.named (HashFormat.ofStored stored).algorithm.name
      (HashFormat.ofStored stored).digits = .ok (HashFormat.ofStored stored)) := by
  refine ⟨fun stored => ⟨fun h => ?_, ?_⟩, fun algorithm digits => ⟨hashMatches_hash _ _, ?_⟩,
    fun stored => named_name _⟩
  · exact ⟨_, _, (hash_ofStored h).symm⟩
  · rintro ⟨algorithm, digits, rfl⟩
    exact hashMatches_hash _ _
  · rw [ofStored_hash, cast_kept]

end Mooring.Fragment
