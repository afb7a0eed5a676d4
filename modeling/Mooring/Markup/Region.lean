import Mooring.Text.Blank
import Mooring.Text.Lines

/-!
# Cutting lines out of a source
-/

namespace Mooring.Markup

open Mooring.Text

/-- The lines from `first` to `last` of a source, counted from 1 and both included, and how many
lines stand before them.  Line numbers outside the source mean its first or last line. -/
def sliceLines (source : String) (first last : Int) : String × Int :=
  let all := lines source.toList
  if all.isEmpty then ("", 0)
  else
    let count : Int := all.length
    let first := max 1 (min first count)
    let last := max first (min last count)
    let region := (all.drop (first - 1).toNat).take (last - first + 1).toNat
    (String.ofList (join ['\n'] region), first - 1)

end Mooring.Markup
