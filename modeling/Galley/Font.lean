import Galley.Scaled.Glue

/-!
# Fonts and their metrics

A font is a name and a size. The metrics used here are synthetic and depend on the size
only: every character is half an em wide and seven tenths of an em high, the characters
with descenders go one fifth of an em below the baseline, and control characters are
missing. The space between words is a third of an em, stretching by a sixth and shrinking
by a ninth. Metrics read from outline font files are not modelled.
-/

namespace Galley

/-- A font: its name and its size. -/
structure Font where
  name : String
  size : Scaled
deriving DecidableEq, Repr, Inhabited

namespace Font

def text (f : Font) : String := f.name ++ " at " ++ f.size.toText

/-- The characters that descend below the baseline. -/
def descends (c : Nat) : Bool :=
  [103, 106, 112, 113, 121, 44, 59, 40, 41].contains c

/-- Width, height and depth of a character, or `none` when the font lacks it: codes below
32, code 127 and the codes of negative numbers are missing. -/
def metrics (f : Font) (c : Nat) : Option (Scaled × Scaled × Scaled) :=
  if c < 32 ∨ c = 127 ∨ c ≥ 2147483648 then none
  else some (f.size / 2, f.size * 7 / 10, if descends c then f.size / 5 else 0)

/-- The glue between words: a third of the size, stretching by a sixth, shrinking by a
ninth. -/
def spaceGlue (f : Font) : Glue :=
  { width := f.size / 3, stretch := f.size / 6, shrink := f.size / 9 }

end Font

end Galley
