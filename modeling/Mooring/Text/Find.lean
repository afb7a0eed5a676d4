/-!
# Finding one text in another
-/

namespace Mooring.Text

/-- What follows `lead` in a text that starts with it. -/
def afterLead? : List Char → List Char → Option (List Char)
  | [], text => some text
  | _ :: _, [] => none
  | l :: lead, c :: text => if l == c then afterLead? lead text else none

/-- The text starts with `lead`. -/
def startsWith (lead text : List Char) : Bool :=
  (afterLead? lead text).isSome

/-- The text ends with `tail`. -/
def endsWith (tail text : List Char) : Bool :=
  startsWith tail.reverse text.reverse

/-- `needle` occurs somewhere in the text, without gaps. -/
def occursIn (needle : List Char) : List Char → Bool
  | [] => needle.isEmpty
  | c :: rest => startsWith needle (c :: rest) || occursIn needle rest

/-- The text before and after the first place that satisfies `p`, that place's character first in
the second part. -/
def splitBefore? (p : Char → Bool) : List Char → Option (List Char × List Char)
  | [] => none
  | c :: rest =>
    if p c then some ([], c :: rest)
    else (splitBefore? p rest).map fun (before, after) => (c :: before, after)

/-- The rest of the text after the first place that satisfies `p`. -/
def afterFirst? (p : Char → Bool) : List Char → Option (List Char)
  | [] => none
  | c :: rest => if p c then some rest else afterFirst? p rest

theorem length_of_afterLead? :
    ∀ {lead text rest : List Char}, afterLead? lead text = some rest →
      text.length = lead.length + rest.length
  | [], _, _, h => by simp only [afterLead?, Option.some.injEq] at h; simp [h]
  | _ :: _, [], _, h => by simp [afterLead?] at h
  | l :: lead, c :: text, rest, h => by
    simp only [afterLead?] at h
    split at h
    · have := length_of_afterLead? h
      simp only [List.length_cons]
      omega
    · simp at h

theorem length_lt_of_afterFirst? {p : Char → Bool} :
    ∀ {text rest : List Char}, afterFirst? p text = some rest → rest.length < text.length
  | [], _, h => by simp [afterFirst?] at h
  | c :: text, rest, h => by
    simp only [afterFirst?] at h
    split at h
    · simp only [Option.some.injEq] at h
      simp [h]
    · have := length_lt_of_afterFirst? h
      simp only [List.length_cons]
      omega

/-- Dropping a lead never lengthens a text. -/
theorem length_dropWhile_le (p : Char → Bool) (text : List Char) :
    (text.dropWhile p).length ≤ text.length :=
  (List.dropWhile_suffix p).length_le

end Mooring.Text
