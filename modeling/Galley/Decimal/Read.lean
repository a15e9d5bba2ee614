/-!
# Reading floating-point numbers

The syntax of floating-point literals accepted on the command line: an optional sign, then
`inf`, `infinity` or (unsigned) `nan` in any case, or a mantissa of decimal digits with an
optional point and an optional exponent `e±d`, or a hexadecimal mantissa after `0x` with a
binary exponent `p±d`, which it then requires. Underscores may stand between digits, or
between a base prefix and a digit. The value is the nearest double; a finite text whose value
lies beyond the largest double is out of range.
-/

namespace Galley.Decimal

/-- Why a text is not a floating-point number. -/
inductive ReadError where
  | malformed
  | range
deriving DecidableEq, Repr

/-- The length of the longest common prefix of two texts, ignoring ASCII case. -/
def commonPrefixCI : List Char → List Char → Nat
  | a :: as, b :: bs => if a.toLower = b.toLower then commonPrefixCI as bs + 1 else 0
  | _, _ => 0

/-- The infinities and not-a-number, when the whole text names one. -/
def special (s : List Char) : Option Float :=
  let (sign, rest, signed) := match s with
    | '+' :: r => (1.0, r, true)
    | '-' :: r => (-1.0, r, true)
    | r => (1.0, r, false)
  let n := commonPrefixCI rest "infinity".toList
  if (n = 3 ∨ n = 8) ∧ rest.length = n then some (sign / 0.0)
  else if !signed ∧ commonPrefixCI rest "nan".toList = 3 ∧ rest.length = 3 then some (0.0 / 0.0)
  else none

/-- Whether the underscores of a number stand only between digits, or between a base prefix
and a digit. -/
def underscoresFit (s : List Char) : Bool :=
  let s := match s with
    | '+' :: r | '-' :: r => r
    | r => r
  let (hex, body, start) := match s with
    | '0' :: c :: r =>
      if c.toLower = 'x' then (true, r, '0')
      else if c.toLower = 'b' ∨ c.toLower = 'o' then (false, r, '0')
      else (false, s, '^')
    | _ => (false, s, '^')
  let step (saw : Option Char) (c : Char) : Option Char :=
    match saw with
    | none => none
    | some saw =>
      if c.isDigit ∨ (hex ∧ 'a' ≤ c.toLower ∧ c.toLower ≤ 'f') then some '0'
      else if c = '_' then (if saw = '0' then some '_' else none)
      else if saw = '_' then none
      else some '!'
  let last := body.foldl step (some start)
  match last with
  | some '_' | none => false
  | _ => true

def hexValue (c : Char) : Nat :=
  if c.isDigit then c.toNat - 48 else c.toLower.toNat - 87

/-- Reads an optionally signed decimal exponent, all of the rest of the text. -/
def readExponent (s : List Char) : Option Int :=
  let (neg, ds) := match s with
    | '+' :: r => (false, r)
    | '-' :: r => (true, r)
    | r => (false, r)
  let ds := ds.filter (· ≠ '_')
  if ds.isEmpty ∨ !ds.all Char.isDigit then none
  else
    let v : Int := ds.foldl (fun a c => 10 * a + (c.toNat - 48 : Nat)) 0
    some (if neg then -v else v)

/-- The mantissa digits (as a number), the count of digits after the point, whether any digit
was seen, and the rest of the text. -/
def readMantissa (hex : Bool) (s : List Char) : Nat × Nat × Bool × List Char :=
  let isD (c : Char) : Bool := c.isDigit ∨ (hex ∧ 'a' ≤ c.toLower ∧ c.toLower ≤ 'f')
  let base := if hex then 16 else 10
  let intPart := s.takeWhile fun c => isD c ∨ c = '_'
  let rest := s.drop intPart.length
  let (frac, rest) := match rest with
    | '.' :: r =>
      let f := r.takeWhile fun c => isD c ∨ c = '_'
      (f, r.drop f.length)
    | r => ([], r)
  let digits := (intPart ++ frac).filter (· ≠ '_')
  let m := digits.foldl (fun a c => base * a + hexValue c) 0
  (m, (frac.filter (· ≠ '_')).length, !digits.isEmpty, rest)

def maxDouble : Float := 1.7976931348623157e308

/-- Reads a floating-point number. -/
def readFloat (text : String) : Except ReadError Float :=
  let s := text.toList
  match special s with
  | some f => .ok f
  | none =>
    if !underscoresFit s then .error .malformed else
    let (neg, body) := match s with
      | '+' :: r => (false, r)
      | '-' :: r => (true, r)
      | r => (false, r)
    let (hex, body) := match body with
      | '0' :: c :: r => if c.toLower = 'x' then (true, r) else (false, body)
      | _ => (false, body)
    let (m, fracDigits, any, rest) := readMantissa hex body
    if !any then .error .malformed else
    let expPart : Option Int := match rest with
      | [] => some 0
      | c :: r =>
        if (!hex ∧ c.toLower = 'e') ∨ (hex ∧ c.toLower = 'p') then readExponent r else none
    match expPart with
    | none => .error .malformed
    | some e =>
      if hex ∧ rest.isEmpty then .error .malformed else
      let v : Float :=
        if hex then Float.scaleB (Float.ofNat m) (e - 4 * fracDigits)
        else
          let k := e - fracDigits
          if k ≥ 0 then Float.ofScientific m false k.toNat else Float.ofScientific m true k.natAbs
      let v := if neg then -v else v
      if v.isInf ∨ v > maxDouble ∨ v < -maxDouble then .error .range else .ok v

end Galley.Decimal
