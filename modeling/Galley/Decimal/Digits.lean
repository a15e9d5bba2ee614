/-!
# Decimal digits of a binary floating-point number

A finite double is `m · 2^e` exactly. Its decimal digits are found here in exact natural
number arithmetic, in two ways:

* `Decimal.rounded x p`: the `p` significant digits nearest to the exact value, a tie going
  to the even digit;
* `Decimal.shortest x`: the fewest digits that read back as `x` (the decimal lies in the
  interval of reals that round to `x`, whose ends count when `m` is even), of two such the
  nearer to `x`.

Both answer a digit string without trailing zeros and the position of the decimal point, so
`0.0625` is `[6, 2, 5]` with point `-1`. `Decimal.general` lays such digits out in positional
or exponent form.
-/

namespace Galley

/-- Decimal digits without trailing zeros, and the position of the decimal point: the value
is `0.d₁d₂… · 10^point`. No digits stand for zero. -/
structure Decimal where
  negative : Bool := false
  digits : List Nat := []
  point : Int := 0
deriving DecidableEq, Repr, Inhabited

namespace Decimal

/-- `2^k · 10^j` as a numerator over the least denominator that makes it whole. -/
def scaled (n : Nat) (p2 p10 : Int) (d2 d10 : Nat) : Nat :=
  n * Nat.pow 2 (p2 + d2).toNat * Nat.pow 10 (p10 + d10).toNat

def natDigits (n : Nat) : List Nat := (Nat.toDigits 10 n).map fun c => c.toNat - 48

def trimZeros (ds : List Nat) : List Nat := (ds.reverse.dropWhile (· = 0)).reverse

/-- The digits of `q · 10^t` as a `Decimal`. -/
def ofScaled (neg : Bool) (q : Nat) (t : Int) : Decimal :=
  if q = 0 then { negative := neg }
  else
    let ds := natDigits q
    { negative := neg, digits := trimZeros ds, point := ds.length + t }

/-- A finite double as sign, integer mantissa and binary exponent: `m · 2^e`. The smallest
normal mantissa is `2^52`; subnormals share the least exponent. -/
def decode (x : Float) : Bool × Nat × Int :=
  let b := x.toBits.toNat
  let neg := b ≥ Nat.pow 2 63
  let expField : Nat := (b / Nat.pow 2 52) % 2048
  let frac := b % Nat.pow 2 52
  if expField = 0 then (neg, frac, -1074) else (neg, frac + Nat.pow 2 52, (expField : Int) - 1075)

/-- The largest `k` with `10^k ≤ m · 2^e`, for `m > 0`, found from an estimate by bit length
and corrected by exact comparison. -/
def exponent10 (m : Nat) (e : Int) : Int :=
  let d2 := (-e).toNat
  let bits : Int := (Nat.log2 m : Int) + e
  let guess : Int := (bits * 30103).fdiv 100000
  let le (k : Int) : Bool :=
    let d10 := (-k).toNat
    scaled 1 0 k d2 d10 ≤ scaled m e 0 d2 d10
  let rec up : Nat → Int → Int
    | 0, k => k
    | fuel + 1, k => if le (k + 1) then up fuel (k + 1) else k
  let rec down : Nat → Int → Int
    | 0, k => k
    | fuel + 1, k => if le k then k else down fuel (k - 1)
  up 4 (down 4 guess)

/-- The `p` significant digits nearest to `x`, a tie going to the even last digit. -/
def rounded (x : Float) (p : Nat) : Decimal :=
  let (neg, m, e) := decode x
  if m = 0 then { negative := neg }
  else
    let k := exponent10 m e
    let t := k - p + 1
    let d2 := (-e).toNat
    let d10 := (-t).toNat
    let v := scaled m e 0 d2 d10
    let s := scaled 1 0 t d2 d10
    let q := v / s
    let r := v % s
    let q := if 2 * r > s ∨ (2 * r = s ∧ q % 2 = 1) then q + 1 else q
    ofScaled neg q t

/-- The fewest digits that read back as `x`, the nearer of two candidates, a tie to even. -/
def shortest (x : Float) : Decimal :=
  let (neg, m, e) := decode x
  if m = 0 then { negative := neg }
  else
    -- the interval of reals that round to x, in units of 2^(e-2)
    let lowGap := if m = Nat.pow 2 52 ∧ e > -1074 then 1 else 2
    let v4 := 4 * m
    let lo4 := v4 - lowGap
    let hi4 := v4 + 2
    let inclusive := m % 2 = 0
    let k := exponent10 m e
    let rec search : Nat → Nat → Decimal
      | 0, _ => ofScaled neg 0 0
      | fuel + 1, digits =>
        let t := k - digits + 1
        let d2 := (-(e - 2)).toNat
        let d10 := (-t).toNat
        let v := scaled v4 (e - 2) 0 d2 d10
        let lo := scaled lo4 (e - 2) 0 d2 d10
        let hi := scaled hi4 (e - 2) 0 d2 d10
        let s := scaled 1 0 t d2 d10
        let a := v / s
        let inside (c : Nat) : Bool :=
          if inclusive then lo ≤ c * s && c * s ≤ hi else lo < c * s && c * s < hi
        let below := inside a
        let above := inside (a + 1)
        if below && above then
          let da := v - a * s
          let db := (a + 1) * s - v
          let q := if da < db then a else if db < da then a + 1 else if a % 2 = 0 then a else a + 1
          ofScaled neg q t
        else if below then ofScaled neg a t
        else if above then ofScaled neg (a + 1) t
        else search fuel (digits + 1)
    search 17 1

def digitAt (ds : List Nat) (i : Int) : Char :=
  if i < 0 then '0' else Char.ofNat (48 + (ds.getD i.toNat 0))

/-- Positional layout with `places` digits after the point. -/
def positional (d : Decimal) (places : Nat) : String :=
  let intPart :=
    if d.point > 0 then String.ofList ((List.range d.point.toNat).map fun (i : Nat) => digitAt d.digits (i : Int))
    else "0"
  let frac := String.ofList ((List.range places).map fun (i : Nat) => digitAt d.digits (d.point + (i : Int)))
  (if d.negative then "-" else "") ++ intPart ++ (if places > 0 then "." ++ frac else "")

/-- Exponent layout `d.ddd` with `places` digits after the point, then `e`, the exponent's
sign and at least two of its digits. -/
def scientific (d : Decimal) (places : Nat) : String :=
  let first := digitAt d.digits 0
  let frac := String.ofList ((List.range places).map fun (i : Nat) => digitAt d.digits ((i : Int) + 1))
  let x : Int := if d.digits.isEmpty then 0 else d.point - 1
  let xs := toString x.natAbs
  (if d.negative then "-" else "") ++ String.singleton first ++
    (if places > 0 then "." ++ frac else "") ++ "e" ++ (if x < 0 then "-" else "+") ++
    (if xs.length < 2 then "0" ++ xs else xs)

/-- The general layout of digits meant to stand for `prec` significant digits: exponent
form when the exponent is below `-4` or at least `eprec`, positional otherwise, with no
trailing zeros in either. -/
def general (d : Decimal) (prec eprec : Nat) : String :=
  let nd := d.digits.length
  let x : Int := d.point - 1
  if x < -4 ∨ x ≥ eprec then scientific d (min prec nd - 1)
  else
    let prec := if (prec : Int) > d.point then nd else prec
    positional d (prec - d.point).toNat

/-- `x` with `p` significant digits, as the `%g` conversion of C-like formatters writes it:
exponent form for exponents below `-4` or from `p` on, trailing zeros dropped. -/
def fixedG (x : Float) (p : Nat) : String :=
  let d := rounded x p
  let nd := d.digits.length
  let eprec := if p > nd ∧ (nd : Int) ≥ d.point then nd else p
  general d p eprec

/-- `x` with the fewest digits that read back, exponent form for exponents below `-4` or
from `6` on. -/
def shortestG (x : Float) : String :=
  let d := shortest x
  general d d.digits.length 6

end Decimal

end Galley
