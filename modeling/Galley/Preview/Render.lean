import Galley.Preview.Raster
import Galley.Box.Basic

/-!
# Rendering boxes

A box is drawn on white paper with a margin of two pixels: every box as a one-pixel blue
frame (when it is at least a pixel wide and high), characters as grey cells of their width,
height and depth, rules as black rectangles, with glue and kerns as space. Positions are
kept in double precision from the reference point of the outer box, at the left edge on the
baseline; shapes are filled through the single-precision rasterizer.
-/

namespace Galley.Preview

def margin : Float := 2

/-- Fills a rectangle given in double precision, unless it is empty. -/
def fill (img : Image) (x0 y0 x1 y1 : Float) (c : Color) : Image :=
  if x1 ≤ x0 ∨ y1 ≤ y0 then img
  else fillRect img x0.toFloat32 y0.toFloat32 x1.toFloat32 y1.toFloat32 c

/-- Outlines a rectangle one pixel wide, unless it is narrower or lower than a pixel. -/
def frame (img : Image) (x0 y0 x1 y1 : Float) : Image :=
  if x1 - x0 < 1 ∨ y1 - y0 < 1 then img
  else
    let img := fill img x0 y0 x1 (y0 + 1) Color.frame
    let img := fill img x0 (y1 - 1) x1 y1 Color.frame
    let img := fill img x0 y0 (x0 + 1) y1 Color.frame
    fill img (x1 - 1) y0 x1 y1 Color.frame

def pixels (scale : Float) (d : Scaled) : Float := Float.ofInt d.toInt * scale

mutual

/-- Draws a box with its reference point at `(x, y)`. -/
def drawBox (scale : Float) (img : Image) (x y : Float) : Box → Image
  | b@⟨kind, w, h, d, _, list, _, _, _⟩ =>
    let img := frame img x (y - pixels scale h) (x + pixels scale w) (y + pixels scale d)
    match kind with
    | .hlist => (drawRow scale b img x y list).1
    | .vlist => (drawColumn scale b img x (y - pixels scale h) list).1

/-- Draws the items of a horizontal list of box `b` from `x` on baseline `y`, answering the
position after them. -/
def drawRow (scale : Float) (b : Box) (img : Image) (x y : Float) : List Item → Image × Float
  | [] => (img, x)
  | it :: rest =>
    let (img, x) := match it with
      | .char _ _ w h d =>
        (fill img x (y - pixels scale h) (x + pixels scale w) (y + pixels scale d) Color.char,
          x + pixels scale w)
      | .glue g _ => (img, x + pixels scale (b.glueSize g))
      | .kern w => (img, x + pixels scale w)
      | .rule w h d =>
        let h := if h = running then b.height else h
        let d := if d = running then b.depth else d
        (fill img x (y - pixels scale h) (x + pixels scale w) (y + pixels scale d) Color.rule,
          x + pixels scale w)
      | .box inner => (drawBox scale img x (y + pixels scale inner.shift) inner,
          x + pixels scale inner.width)
    drawRow scale b img x y rest

/-- Draws the items of a vertical list of box `b` at left edge `x` from top `y`, answering
the position after them. -/
def drawColumn (scale : Float) (b : Box) (img : Image) (x y : Float) : List Item → Image × Float
  | [] => (img, y)
  | it :: rest =>
    let (img, y) := match it with
      | .char .. => (img, y)
      | .glue g _ => (img, y + pixels scale (b.glueSize g))
      | .kern w => (img, y + pixels scale w)
      | .rule w h d =>
        let w := if w = running then b.width else w
        let t := pixels scale (h + d)
        (fill img x y (x + pixels scale w) (y + t) Color.rule, y + t)
      | .box inner =>
        let y := y + pixels scale inner.height
        (drawBox scale img (x + pixels scale inner.shift) y inner, y + pixels scale inner.depth)
    drawColumn scale b img x y rest

end

/-- A double truncated toward zero to a 64-bit integer. A value beyond the range, or not a
number, gives the most negative one, as the machine's conversion answers. -/
def longOfFloat (f : Float) : Int :=
  if f.isNaN || f ≥ 9223372036854775808.0 || f < -9223372036854775808.0 then -9223372036854775808
  else f.toInt64.toInt

/-- The preview of a box at `dpi` pixels per inch (72.27 when not positive): the box's size
rounded up, plus the margins, at least one pixel each way. A size that no integer holds
(an infinite or undefined resolution) comes out as the most negative integer, so such an
image is one pixel. -/
def render (b : Box) (dpi : Float) : Image :=
  let dpi := if dpi ≤ 0 then 72.27 else dpi
  let scale := dpi / 72.27 / 65536
  let w := longOfFloat (pixels scale b.width).ceil + 4
  let h := longOfFloat (pixels scale (b.height + b.depth)).ceil + 4
  let img := Image.filled (max w 1).toNat (max h 1).toNat Color.white
  drawBox scale img margin (margin + pixels scale b.height) b

end Galley.Preview
