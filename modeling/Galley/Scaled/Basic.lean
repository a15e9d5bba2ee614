/-!
# Scaled points

A dimension is an integer count of scaled points: `2^16` of them make one printer's point.
Everything typeset is measured this way, so arithmetic on dimensions is exact integer
arithmetic, and a sum that leaves 32 bits wraps around exactly as the stored word does.

This module holds the arithmetic that turns decimal text into scaled points and back:
`Scaled.format` prints the fewest decimal digits that read back, `Scaled.roundDecimals`
reads a digit string, `Scaled.scale` converts a physical unit, `Scaled.scaleBy` multiplies by
a decimal factor, `Scaled.xnOverD` computes a ratio with its remainder, and `Scaled.badness`
measures how far glue is stretched or shrunk.
-/

namespace Galley

/-- A dimension in scaled points (sp); `65536` sp make one point. Arithmetic wraps at 32 bits. -/
abbrev Scaled := Int32

namespace Scaled

def unity : Scaled := 65536

/-- A double truncated toward zero to a word. A value beyond the word's range, or not a
number, gives the most negative word: the machine's conversion answers that value for any
result it cannot represent, rather than the nearest word. -/
def ofFloat (f : Float) : Scaled :=
  if f.isNaN || f ≥ 2147483648.0 || f ≤ -2147483649.0 then -2147483648 else f.toInt32

/-- A single-precision value truncated toward zero to a word, with the most negative word
for a value beyond the range or not a number. -/
def ofFloat32 (f : Float32) : Scaled :=
  if f.isNaN || f ≥ 2147483648.0 || f < -2147483648.0 then -2147483648 else f.toInt32

/-- The largest dimension a scanner accepts, `2^30 - 1` sp, just under 16384pt. -/
def maxDimen : Scaled := 1073741823

/-- The decimal digits of a fraction of a point. `v` starts as ten times the fraction plus
five (half a unit of the first digit) and `delta` as ten: a digit is written while the
remainder can still tell two neighbouring fractions apart. The fifth digit is rounded
so that no more than five are ever needed. -/
def fractionDigits : Nat → Int → Int → List Char
  | 0, _, _ => []
  | fuel + 1, v, delta =>
    let v := if delta > 65536 then v + (32768 - 50000) else v
    let digit := Char.ofNat ('0'.toNat + (v.tdiv 65536).toNat)
    let v' := 10 * v.tmod 65536
    let delta' := delta * 10
    digit :: (if v' ≤ delta' then [] else fractionDigits fuel v' delta')

/-- The decimal text of a scaled value in points, without the unit: the integer part, a
point, and the fewest fraction digits that read back to the same value. -/
def format (s : Scaled) : String :=
  let v := s.toInt
  let a := v.natAbs
  (if v < 0 then "-" else "") ++ toString (a / 65536) ++ "." ++
    String.ofList (fractionDigits 8 (10 * ((a % 65536 : Nat) : Int) + 5) 10)

/-- The text of a dimension: its decimal value followed by `pt`. -/
def toText (s : Scaled) : String := format s ++ "pt"

/-- Reads the fraction digits `d₁ d₂ …` as scaled points, rounded to the nearest sp. Only
seventeen digits matter; the digits are taken from the last to the first, each step
dividing by ten in 32-bit arithmetic. -/
def roundDecimals (digits : List Int32) : Int32 :=
  let a := (digits.take 17).foldr (fun d a => (a + d * 131072) / 10) 0
  (a + 1) / 2

/-- `x * n / d` and its remainder, both truncated toward zero and with the sign of `x`.
The product is formed exactly before the division. -/
def xnOverD (x n d : Int32) : Int32 × Int32 :=
  let neg := x < 0
  let x := if neg then -x else x
  let p := x.toInt * n.toInt
  let q := Int32.ofInt (p.tdiv d.toInt)
  let r := Int32.ofInt (p.tmod d.toInt)
  if neg then (-q, -r) else (q, r)

/-- A unit of measure as the ratio of its size to a point. -/
structure MeasureUnit where
  num : Int32
  den : Int32
deriving DecidableEq, Repr

/-- The physical units and their ratios to the printer's point. -/
def units : List (String × MeasureUnit) :=
  [("pt", ⟨1, 1⟩), ("pc", ⟨12, 1⟩), ("in", ⟨7227, 100⟩), ("bp", ⟨7227, 7200⟩),
   ("cm", ⟨7227, 254⟩), ("mm", ⟨7227, 2540⟩), ("dd", ⟨1238, 1157⟩), ("cc", ⟨14856, 1157⟩)]

/-- The unit named `name`, if it is one of `units`. -/
def unitNamed? (name : String) : Option MeasureUnit :=
  (units.find? (·.1 == name)).map (·.2)

/-- Converts `whole + frac/2^16` units of `u` to scaled points. The answer is `false` with
`maxDimen` when the result would reach `2^14` points. -/
def scale (whole frac : Int32) (u : MeasureUnit) : Scaled × Bool :=
  let (whole, frac) :=
    if u.num ≠ u.den then
      let (v, rem) := xnOverD whole u.num u.den
      let f := (u.num.toInt * frac.toInt + 65536 * rem.toInt).tdiv u.den.toInt
      (v + Int32.ofInt (f.tdiv 65536), Int32.ofInt (f.tmod 65536))
    else (whole, frac)
  if whole ≥ 16384 then (maxDimen, false) else (whole * 65536 + frac, true)

/-- Multiplies the dimension `d` by `whole + frac/2^16`, truncating toward zero. The answer
is `false` with `maxDimen` when the magnitude would pass `maxDimen`. -/
def scaleBy (d : Scaled) (whole frac : Int32) : Scaled × Bool :=
  let neg := d < 0
  let v : Int := if neg then -d.toInt else d.toInt
  let r := v * whole.toInt + (v * frac.toInt).tdiv 65536
  if r > 1073741823 then (maxDimen, false)
  else (Int32.ofInt (if neg then -r else r), true)

/-- The badness of stretching or shrinking by `t` when the glue can give `s`: about
`100 * (t/s)^3`, capped at `10000`, which also stands for "cannot". The cube is a signed
64-bit word, so for a negative `t` of large size it wraps around as the word does. -/
def badness (t s : Scaled) : Int :=
  if t = 0 then 0
  else if s ≤ 0 then 10000
  else
    let t := t.toInt
    let s := s.toInt
    let r := if t ≤ 7230584 then (t * 297).tdiv s
      else if s ≥ 1663497 then t.tdiv (s.tdiv 297) else t
    if r > 1290 then 10000 else (Int64.ofInt (r * r * r + 0x20000)).toInt.tdiv 0x40000

end Scaled

end Galley
