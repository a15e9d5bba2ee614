/-!
# Keys of the table of equivalents

Every quantity that grouping can save and restore is named by a key: a space that says
what kind of quantity it is, and a name (for meanings and parameters) or a number (for
character codes and registers). A stored format may name a space past the eleven, or a
negative number; such keys hold values like any other, though no command names them.
-/

namespace Galley

/-- The kinds of quantities held in the table of equivalents. -/
inductive Space where
  | meaning
  | catcode
  | sfcode
  | count
  | dimen
  | skip
  | box
  | intpar
  | dimenpar
  | gluepar
  | font
  /-- A position past the eleven, which only a stored format names. -/
  | beyond (index : Nat)
deriving DecidableEq, Repr, Hashable, Inhabited

namespace Space

def index : Space → Nat
  | meaning => 0 | catcode => 1 | sfcode => 2 | count => 3 | dimen => 4 | skip => 5
  | box => 6 | intpar => 7 | dimenpar => 8 | gluepar => 9 | font => 10 | beyond i => i

/-- The space at position `n`: a named one up to ten, `beyond n` past that. -/
def ofIndex : Nat → Space
  | 0 => meaning | 1 => catcode | 2 => sfcode | 3 => count | 4 => dimen | 5 => skip
  | 6 => box | 7 => intpar | 8 => dimenpar | 9 => gluepar | 10 => font | n => beyond n

/-- The word that names a numbered space in a key's text. -/
def word : Space → String
  | meaning => "meaning" | catcode => "catcode" | sfcode => "sfcode" | count => "count"
  | dimen => "dimen" | skip => "skip" | box => "box" | intpar => "intpar"
  | dimenpar => "dimenpar" | gluepar => "gluepar" | font => "font" | beyond _ => "unknown"

end Space

/-- A key of the table: a space with a name or a number. Meanings of control sequences
use the name; an active character's meaning uses its one-character name and `n = 1`. -/
structure Key where
  space : Space
  name : String := ""
  n : Int := 0
deriving DecidableEq, Repr, Hashable, Inhabited

namespace Key

/-- The text of a key: `\name` for meanings and parameters, `current font` for the font,
and the space's word followed by the number otherwise (`\count3`, `\unknown3`). -/
def text (k : Key) : String :=
  match k.space with
  | .meaning | .intpar | .dimenpar | .gluepar => "\\" ++ k.name
  | .font => "current font"
  | s => "\\" ++ s.word ++ toString k.n

/-- Keys in their dump order: by space, then name (by code point), then number. -/
def before (a b : Key) : Bool :=
  if a.space.index ≠ b.space.index then a.space.index < b.space.index
  else if a.name ≠ b.name then a.name < b.name
  else a.n < b.n

end Key

end Galley
