import Galley.Preview.Image
import Galley.Scaled.Basic

/-!
# Anti-aliased rectangles

Shapes are filled by signed-area coverage: each edge of the outline adds, to the cells its
pixel rows cross, the change of coverage it causes, and a running sum along the rows turns
those changes into the covered fraction of each pixel. A rectangle's horizontal edges change
nothing, so only its two vertical edges are walked: the right one adds and the left one
subtracts, one row at a time, the covered height split between the two cells on either
side of the edge's position within its pixel.

Two arithmetics are used: fixed point with nine fraction bits on images up to 512 pixels a
side, and single precision beyond. An edge's
change for a cell past the end of a row lands on the first cell of the next row. The covered
fraction, from 0 to `0xffff`, then blends the shape's colour over the image.
-/

namespace Galley.Preview

def fracBits : Int32 := 9

def fxOne : Int32 := 512

def fixedLimit : Nat := 512

/-- The cell a column index lands in: negative ones at the row's start, those at or past
the width on the first cell of the next row. -/
def cellOf (i : Int) (width : Nat) : Nat :=
  if i < 0 then 0 else if i < width then i.toNat else width

/-- Adds `v` to cell `i` of row `y`, unless that cell lies past the end of the buffer. -/
def addFixed (buf : Array Int32) (width y : Nat) (i : Int) (v : Int32) : Array Int32 :=
  let k := y * width + cellOf i width
  if k < buf.size then buf.modify k (· + v) else buf

/-- The coverage changes of a vertical edge at `x` from `ya` to `yb` (`ya < yb`), with
direction `dir`, in fixed point. -/
def fixedEdge (width height : Nat) (buf : Array Int32) (x ya yb : Float32) (dir : Int32) :
    Array Int32 := Id.run do
  let ay := Scaled.ofFloat32 (ya * 512)
  let by' := Scaled.ofFloat32 (yb * 512)
  let xf := Scaled.ofFloat32 (x * 512)
  let y0 := (ay >>> fracBits).toInt
  let y1 := min ((by' + (fxOne - 1)) >>> fracBits).toInt height
  let x0i := (xf >>> fracBits).toInt
  let xmf := xf - (xf >>> fracBits <<< fracBits)
  let mut buf := buf
  for k in [0:(y1 - y0).toNat] do
    let y := y0 + k
    if y < 0 then continue
    let yi := Int32.ofInt y
    let dy := min ((yi + 1) <<< fracBits) by' - max (yi <<< fracBits) ay
    let d := dy * dir
    buf := addFixed buf width y.toNat x0i (d * (fxOne - xmf))
    buf := addFixed buf width y.toNat (x0i + 1) (d * xmf)
  return buf

/-- The covered fractions, from 0 to `0xffff`, of fixed-point coverage changes. -/
def fixedMask (buf : Array Int32) : Array UInt32 := Id.run do
  let mut acc : Int32 := 0
  let mut out : Array UInt32 := Array.emptyWithCapacity buf.size
  for v in buf do
    acc := acc + v
    let a := if acc < 0 then -acc else acc
    let a := a >>> 2
    let a := if a > 0xffff then 0xffff else a
    out := out.push a.toUInt32
  return out

def addFloat (buf : Array Float32) (width y : Nat) (i : Int) (v : Float32) : Array Float32 :=
  let k := y * width + cellOf i width
  if k < buf.size then buf.modify k (· + v) else buf

/-- The coverage changes of a vertical edge in single precision. -/
def floatEdge (width height : Nat) (buf : Array Float32) (x ya yb : Float32) (dir : Float32) :
    Array Float32 := Id.run do
  let y0 := (Scaled.ofFloat ya.toFloat.floor).toInt
  let y1 := min (Scaled.ofFloat yb.toFloat.ceil).toInt height
  let x0i := (Scaled.ofFloat x.toFloat.floor).toInt
  let xmf := x - Float32.ofInt x0i
  let mut buf := buf
  for k in [0:(y1 - y0).toNat] do
    let y := y0 + k
    if y < 0 then continue
    let dy := min (Float32.ofInt (y + 1)) yb - max (Float32.ofInt y) ya
    let d := dy * dir
    buf := addFloat buf width y.toNat x0i (d - d * xmf)
    buf := addFloat buf width y.toNat (x0i + 1) (d * xmf)
  return buf

/-- The largest single-precision number below 65536, which scales a full coverage to
`0xffff`. -/
def almostFull : Float32 := (65535.99488 : Float).toFloat32

/-- The covered fraction of a single-precision coverage sum, from 0 to `0xffff`. -/
def floatCover (x : Float32) : UInt32 :=
  let a := if x < 0 then -x else x
  let a := if a < 1 then a else 1
  (almostFull * a).toUInt32

/-- The covered fractions of single-precision coverage changes. The running sum is taken
four cells at a time, as a four-lane vector accumulation forms it: within a block
`s₀ s₁ s₂ s₃` the partial sums are `s₀`, `s₁ + s₀`, `(s₂ + s₁) + s₀` and
`(s₃ + s₂) + (s₁ + s₀)`, each then added to the sum carried into the block; the cells after
the last whole block are added one at a time. Single-precision addition is not associative,
so this order is part of the result. -/
def floatMask (buf : Array Float32) : Array UInt32 := Id.run do
  let mut carry : Float32 := 0
  let mut out : Array UInt32 := Array.emptyWithCapacity buf.size
  let blocks := buf.size / 4
  for b in [0:blocks] do
    let s0 := buf[4 * b]!
    let s1 := buf[4 * b + 1]!
    let s2 := buf[4 * b + 2]!
    let s3 := buf[4 * b + 3]!
    let p1 := s1 + s0
    let x0 := s0 + carry
    let x1 := p1 + carry
    let x2 := ((s2 + s1) + s0) + carry
    let x3 := ((s3 + s2) + p1) + carry
    out := out.push (floatCover x0) |>.push (floatCover x1) |>.push (floatCover x2)
      |>.push (floatCover x3)
    carry := x3
  for i in [4 * blocks:buf.size] do
    carry := buf[i]! + carry
    out := out.push (floatCover carry)
  return out

/-- One channel of `c` blended over `p` with coverage `m`, where `a` is the part of the
old value that stays. -/
def blend (p : UInt8) (s m a : UInt32) : UInt8 :=
  (((p.toUInt32 * a + s * m) / 0xffff) >>> 8).toUInt8

/-- Paints colour `c` over the image through a coverage mask. -/
def paint (img : Image) (mask : Array UInt32) (c : Color) : Image := Id.run do
  let s (v : UInt8) : UInt32 := v.toUInt32 * 0x101
  let sa := s c.a
  let mut px := img.pixels
  for i in [0:img.width * img.height] do
    let m := mask[i]!
    if m = 0 then continue
    let a := (0xffff - sa * m / 0xffff) * 0x101
    px := px.set! (4 * i) (blend (px.get! (4 * i)) (s c.r) m a)
    px := px.set! (4 * i + 1) (blend (px.get! (4 * i + 1)) (s c.g) m a)
    px := px.set! (4 * i + 2) (blend (px.get! (4 * i + 2)) (s c.b) m a)
    px := px.set! (4 * i + 3) (blend (px.get! (4 * i + 3)) sa m a)
  return { img with pixels := px }

/-- Fills the rectangle from `(x0, y0)` to `(x1, y1)` with colour `c`, anti-aliased. -/
def fillRect (img : Image) (x0 y0 x1 y1 : Float32) (c : Color) : Image :=
  let w := img.width
  let h := img.height
  let mask :=
    if w > fixedLimit ∨ h > fixedLimit then
      let buf := Array.replicate (w * h) (0 : Float32)
      let buf := if y1 - y0 ≤ 0.000001 then buf else floatEdge w h buf x1 y0 y1 1
      let buf := if y1 - y0 ≤ 0.000001 then buf else floatEdge w h buf x0 y0 y1 (-1)
      floatMask buf
    else
      let buf := Array.replicate (w * h) (0 : Int32)
      let buf := if y1 - y0 ≤ 0.000001 then buf else fixedEdge w h buf x1 y0 y1 1
      let buf := if y1 - y0 ≤ 0.000001 then buf else fixedEdge w h buf x0 y0 y1 (-1)
      fixedMask buf
  paint img mask c

end Galley.Preview
