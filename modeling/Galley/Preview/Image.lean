import Galley.Digest.Sha256

/-!
# Preview images

An image is a grid of opaque-or-not RGBA pixels, four bytes each, row after row. Previews
use four colours: white paper, black rules, grey character cells and blue box frames; a pixel
on the edge of a shape is a blend of two of them.
-/

namespace Galley.Preview

/-- A colour with its alpha, eight bits a channel. -/
structure Color where
  r : UInt8
  g : UInt8
  b : UInt8
  a : UInt8 := 255
deriving DecidableEq, Repr, Inhabited

namespace Color

def white : Color := ⟨255, 255, 255, 255⟩
def rule : Color := ⟨0, 0, 0, 255⟩
def char : Color := ⟨0x88, 0x88, 0x88, 255⟩
def frame : Color := ⟨0x40, 0x80, 0xe0, 255⟩

end Color

/-- An RGBA image. -/
structure Image where
  width : Nat
  height : Nat
  pixels : ByteArray

namespace Image

def filled (w h : Nat) (c : Color) : Image := Id.run do
  let mut px := ByteArray.emptyWithCapacity (4 * w * h)
  for _ in [0:w * h] do
    px := px.push c.r |>.push c.g |>.push c.b |>.push c.a
  return { width := w, height := h, pixels := px }

def pixel (img : Image) (i : Nat) : Color :=
  ⟨img.pixels.get! (4 * i), img.pixels.get! (4 * i + 1), img.pixels.get! (4 * i + 2),
    img.pixels.get! (4 * i + 3)⟩

def count (img : Image) (c : Color) : Nat := Id.run do
  let mut n := 0
  for i in [0:img.width * img.height] do
    if img.pixel i = c then n := n + 1
  return n

/-- The SHA-256 of the pixel bytes, in hex. -/
def digest (img : Image) : String := Digest.sha256Hex img.pixels

end Image

end Galley.Preview
