import Provenance.Text.GraphemeExtend
import Provenance.Text.Printable

/-!
# Characters that show as themselves

A character can be shown as itself if it is printable, draws something, and has a place of its
own. Printable letters that draw nothing are the fillers of the Hangul script. A mark that extends
a grapheme has no place of its own, since it would be drawn onto its neighbour; only the halfwidth
voicing marks, which extend a grapheme too, are as wide as a letter.
-/

namespace Provenance.Text

/-- The letters that fill the place of a missing one and draw nothing. -/
def fillerRanges : List (Nat × Nat) :=
  [(0x115F, 0x1160), (0x3164, 0x3164), (0xFFA0, 0xFFA0)]

/-- The halfwidth voicing marks, which extend a grapheme but are drawn beside it. -/
def halfwidthMarkRanges : List (Nat × Nat) :=
  [(0xFF9E, 0xFF9F)]

/-- Whether a character stands in a place of its own. -/
def isSpacing (c : Char) : Bool :=
  !isGraphemeExtend c || inRanges halfwidthMarkRanges c

/-- Whether a character can be shown as itself. -/
def isVisible (c : Char) : Bool :=
  isPrintable c && !inRanges fillerRanges c && isSpacing c

end Provenance.Text
