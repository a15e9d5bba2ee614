import Galley.Box.Basic
import Galley.Scaled.Basic

/-!
# Packing a list into a box

`hpack` and `vpack` measure a list at its natural size, compare it with the size asked
for, and set the glue: the difference is taken up by the stretch (or shrink) of the
highest order of infinity present. Finite glue reports how bad the result is: fine,
loose or underfull when stretched, tight or overfull when shrunk.
-/

namespace Galley

/-- The size asked for: exactly `size`, or the natural size plus `size`. -/
structure PackSpec where
  exactly : Bool := false
  size : Scaled := 0
deriving DecidableEq, Repr, Inhabited

/-- How well the glue of a packed box could be set. -/
inductive PackStatus where
  | fine
  | loose
  | underfull
  | tight
  | overfull
deriving DecidableEq, Repr, Inhabited

def PackStatus.name : PackStatus → String
  | fine => "fine" | loose => "loose" | underfull => "underfull" | tight => "tight"
  | overfull => "overfull"

/-- The report of a packing: its status, the badness, and for an overfull box how much
too large it is. -/
structure PackReport where
  status : PackStatus := .fine
  badness : Int := 0
  excess : Scaled := 0
deriving DecidableEq, Repr, Inhabited

/-- Stretch or shrink totals per order of infinity. -/
structure GlueTotals where
  normal : Scaled := 0
  fil : Scaled := 0
  fill : Scaled := 0
  filll : Scaled := 0
deriving DecidableEq, Repr, Inhabited

namespace GlueTotals

/-- Adds `x` to the total of order `o`. An order past `filll` has no total: the original
indexes its four totals by the order and stops with an index panic there, which this
model does not represent; it adds nothing, and the packing theorems assume glue of the
four named orders (`Item.Totaled`). -/
def add (t : GlueTotals) (o : Order) (x : Scaled) : GlueTotals :=
  match o with
  | .normal => { t with normal := t.normal + x }
  | .fil => { t with fil := t.fil + x }
  | .fill => { t with fill := t.fill + x }
  | .filll => { t with filll := t.filll + x }
  | .beyond _ => t

/-- The total of order `o`; zero for an order past `filll`, where the original stops
with an index panic. -/
def get (t : GlueTotals) : Order → Scaled
  | .normal => t.normal | .fil => t.fil | .fill => t.fill | .filll => t.filll
  | .beyond _ => 0

/-- The highest order with a non-zero total, `normal` if there is none. -/
def highest (t : GlueTotals) : Order :=
  if t.filll ≠ 0 then .filll else if t.fill ≠ 0 then .fill else if t.fil ≠ 0 then .fil
  else .normal

end GlueTotals

def ratio (a b : Scaled) : Float := Float.ofInt a.toInt / Float.ofInt b.toInt

/-- Sets the glue of a box whose size must change by `x`, given the stretch and shrink
totals of its list. -/
def setGlue (b : Box) (x : Scaled) (stretch shrink : GlueTotals) : Box × PackReport :=
  if x > 0 then
    let o := stretch.highest
    let total := stretch.get o
    let b := { b with order := o }
    if total = 0 then (b, { status := .underfull, badness := 10000 })
    else
      let b := { b with sign := .stretching }
      if o ≠ .normal then ({ b with set := ratio x total }, {})
      else
        let bad := Scaled.badness x total
        if x > total then ({ b with set := 1 }, { status := .underfull, badness := bad })
        else
          let b := { b with set := ratio x total }
          if bad > 100 then (b, { status := .loose, badness := bad }) else (b, { badness := bad })
  else if x < 0 then
    let o := shrink.highest
    let total := shrink.get o
    let b := { b with order := o }
    let b := if total ≠ 0 then { b with sign := .shrinking } else b
    if o ≠ .normal then ({ b with set := ratio (-x) total }, {})
    else if -x > total then
      let b := if total ≠ 0 then { b with set := 1 } else b
      (b, { status := .overfull, badness := 10000, excess := -x - total })
    else
      let b := { b with set := ratio (-x) total }
      let bad := Scaled.badness (-x) total
      if bad > 100 then (b, { status := .tight, badness := bad }) else (b, { badness := bad })
  else (b, {})

/-- What a horizontal list adds up to: width, height, depth, stretch and shrink. -/
structure HMeasure where
  width : Scaled := 0
  height : Scaled := 0
  depth : Scaled := 0
  stretch : GlueTotals := {}
  shrink : GlueTotals := {}

def HMeasure.add (m : HMeasure) : Item → HMeasure
  | .char _ _ w h d => { m with width := m.width + w, height := max m.height h, depth := max m.depth d }
  | .box b => { m with width := m.width + b.width, height := max m.height (b.height - b.shift),
                       depth := max m.depth (b.depth + b.shift) }
  | .rule w h d =>
    { m with width := if w ≠ running then m.width + w else m.width,
             height := if h ≠ running then max m.height h else m.height,
             depth := if d ≠ running then max m.depth d else m.depth }
  | .glue g _ => { m with width := m.width + g.width, stretch := m.stretch.add g.stretchOrder g.stretch,
                          shrink := m.shrink.add g.shrinkOrder g.shrink }
  | .kern w => { m with width := m.width + w }

/-- Packs a horizontal list. -/
def hpack (list : List Item) (spec : PackSpec) : Box × PackReport :=
  let m := list.foldl HMeasure.add {}
  let x := if spec.exactly then spec.size - m.width else spec.size
  let b : Box := { kind := .hlist, list, height := m.height, depth := m.depth, width := m.width + x }
  setGlue b x m.stretch m.shrink

/-- What a vertical list adds up to: height so far, depth of the last item, width, stretch
and shrink. -/
structure VMeasure where
  height : Scaled := 0
  depth : Scaled := 0
  width : Scaled := 0
  stretch : GlueTotals := {}
  shrink : GlueTotals := {}

def VMeasure.add (m : VMeasure) : Item → VMeasure
  | .box b => { m with height := m.height + m.depth + b.height, depth := b.depth,
                       width := max m.width (b.width + b.shift) }
  | .char _ _ w h d => { m with height := m.height + m.depth + h, depth := d, width := max m.width w }
  | .rule w h d =>
    { m with height := if h ≠ running then m.height + m.depth + h else m.height + m.depth,
             depth := if d ≠ running then d else 0,
             width := if w ≠ running then max m.width w else m.width }
  | .glue g _ => { m with height := m.height + m.depth + g.width, depth := 0,
                          stretch := m.stretch.add g.stretchOrder g.stretch,
                          shrink := m.shrink.add g.shrinkOrder g.shrink }
  | .kern w => { m with height := m.height + m.depth + w, depth := 0 }

/-- Packs a vertical list. -/
def vpack (list : List Item) (spec : PackSpec) : Box × PackReport :=
  let m := list.foldl VMeasure.add {}
  let x := if spec.exactly then spec.size - m.height else spec.size
  let b : Box := { kind := .vlist, list, width := m.width, depth := m.depth, height := m.height + x }
  setGlue b x m.stretch m.shrink

end Galley
