import Galley.Scaled.Glue

/-!
# Items and boxes

The material of a list: characters of a font, glue, kerns, rules, and boxes. A box is a
list packed to a width, height and depth, with the ratio by which its glue stretches or
shrinks. A horizontal list runs left to right along a baseline; a vertical list stacks
its items top to bottom.

A rule dimension may be *running*: it then takes the size of the enclosing box.
-/

namespace Galley

/-- Where a glue item came from: written explicitly, a space between words, interline glue
(`\baselineskip` or `\lineskip`), paragraph glue (`\parskip`), or the glue that fills the
last line of a paragraph (`\parfillskip`). -/
inductive GlueKind where
  | explicit
  | interword
  | baselineskip
  | lineskip
  | parskip
  | parfillskip
deriving DecidableEq, Repr, Inhabited

/-- A horizontal or a vertical list. -/
inductive BoxKind where
  | hlist
  | vlist
deriving DecidableEq, Repr, Inhabited

/-- Whether the glue of a box is stretched, shrunk, or neither. -/
inductive GlueSign where
  | unset
  | stretching
  | shrinking
deriving DecidableEq, Repr, Inhabited

mutual

/-- An item of a list. -/
inductive Item where
  | char (font : String) (code : Nat) (width height depth : Scaled)
  | glue (spec : Glue) (kind : GlueKind)
  | kern (width : Scaled)
  | rule (width height depth : Scaled)
  | box (b : Box)

/-- A packed list with its dimensions, its shift from the baseline (or margin), and how its
glue is set: the sign, the order of infinity stretched or shrunk, and the ratio. -/
structure Box where
  kind : BoxKind := .hlist
  width : Scaled := 0
  height : Scaled := 0
  depth : Scaled := 0
  shift : Scaled := 0
  list : List Item := []
  sign : GlueSign := .unset
  order : Order := .normal
  set : Float := 0

end

instance : Inhabited Box := ⟨{}⟩

instance : Inhabited Item := ⟨.kern 0⟩

namespace GlueKind

/-- The name a glue kind has in listings; explicit glue has none. -/
def name : GlueKind → String
  | explicit => "" | interword => "interword" | baselineskip => "baselineskip"
  | lineskip => "lineskip" | parskip => "parskip" | parfillskip => "parfillskip"

end GlueKind

def running : Scaled := -1073741824

namespace Box

def shifted (b : Box) (s : Scaled) : Box := { b with shift := s }

def resized (b : Box) (w h d : Scaled) : Box := { b with width := w, height := h, depth := d }

/-- The size of glue `g` inside the box: its width, plus its stretch or minus its shrink
times the glue ratio when the box's glue is set in the order of that component. -/
def glueSize (b : Box) (g : Glue) : Scaled :=
  match b.sign with
  | .stretching =>
    if g.stretchOrder = b.order then g.width + Scaled.ofFloat (b.set * Float.ofInt g.stretch.toInt)
    else g.width
  | .shrinking =>
    if g.shrinkOrder = b.order then g.width - Scaled.ofFloat (b.set * Float.ofInt g.shrink.toInt)
    else g.width
  | .unset => g.width

end Box

end Galley
