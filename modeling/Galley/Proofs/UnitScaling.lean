import Mathlib
import Galley.Scaled.Basic

/-!
# Converting a physical unit

`Scaled.scale whole frac u` turns `whole + frac/2^16` units of `u` into scaled points, as TeX
does for `in`, `cm`, `dd` and the rest: the whole part is multiplied by `num/den` with its
remainder kept, the remainder and the fraction are scaled together, and the carry of that
goes to the whole part. The answer is refused when the whole part reaches `2^14` points.

Every step is exact integer arithmetic except the words the parts are kept in: the quotient
and the sum are stored in 32 bits. As in any chain of additions and products, cutting to 32
bits at every step is the same as cutting once at the end, so the conversion is the exact
result cut to a word (`scale_eq_ofInt`). While the exact whole part stays below `2^31` the
cut changes nothing, and then the conversion is refused exactly when the result would pass
`maxDimen` (`scale_refuses_exactly_beyond_range`). Past that, the cut whole part can come back
below `2^14`, even negative, and a wrapped dimension is answered as valid
(`scale_inch_wraps`).
-/

namespace Galley

namespace Scaled

theorem MeasureUnit.bounds_of_mem {u : MeasureUnit} (hu : u ∈ units.map Prod.snd) :
    0 ≤ u.num.toInt ∧ u.num.toInt < 65536 ∧ 0 < u.den.toInt ∧ u.den.toInt < 65536 := by
  simp only [units, List.map_cons, List.map_nil, List.mem_cons, List.not_mem_nil, or_false] at hu
  rcases hu with rfl | rfl | rfl | rfl | rfl | rfl | rfl | rfl <;> decide

theorem toInt_ofInt_of_nonneg {n : Int} (h0 : 0 ≤ n) (h : n < 2147483648) :
    (Int32.ofInt n).toInt = n :=
  Int32.toInt_ofInt_of_le (by omega) (by omega)

/-- For a nonnegative `x`, `xnOverD` is the quotient and remainder of the exact product, the
quotient cut to 32 bits. -/
theorem xnOverD_of_nonneg {x n d : Int32} (hx : 0 ≤ x.toInt) (hn : 0 ≤ n.toInt) :
    xnOverD x n d = (Int32.ofInt (x.toInt * n.toInt / d.toInt),
      Int32.ofInt (x.toInt * n.toInt % d.toInt)) := by
  have hneg : ¬ x < 0 := by
    rw [Int32.lt_iff_toInt_lt]
    simpa using hx
  have hp : 0 ≤ x.toInt * n.toInt := Int.mul_nonneg hx hn
  simp only [xnOverD, hneg, if_false, Int.tdiv_eq_ediv_of_nonneg hp, Int.tmod_eq_emod_of_nonneg hp]

/-- The whole points of `whole` units of `u`, exactly: `⌊whole · num / den⌋`. -/
def MeasureUnit.points (u : MeasureUnit) (whole : Int) : Int := whole * u.num.toInt / u.den.toInt

/-- The fraction of a point that `whole + frac/2^16` units of `u` add to `u.points whole`, in
units of `2^-16` points and not yet carried: `⌊(num · frac + 2^16 · r) / den⌋`, where `r` is the
remainder of `whole · num` by `den`. -/
def MeasureUnit.fraction (u : MeasureUnit) (whole frac : Int) : Int :=
  (u.num.toInt * frac + 65536 * (whole * u.num.toInt % u.den.toInt)) / u.den.toInt

theorem MeasureUnit.points_nonneg {u : MeasureUnit} {whole : Int} (hw : 0 ≤ whole)
    (hn : 0 ≤ u.num.toInt) (hd : 0 < u.den.toInt) : 0 ≤ u.points whole :=
  Int.ediv_nonneg (Int.mul_nonneg hw hn) (by omega)

theorem MeasureUnit.fraction_nonneg {u : MeasureUnit} {whole frac : Int} (hf : 0 ≤ frac)
    (hn : 0 ≤ u.num.toInt) (hd : 0 < u.den.toInt) : 0 ≤ u.fraction whole frac :=
  Int.ediv_nonneg (Int.add_nonneg (Int.mul_nonneg hn hf)
    (Int.mul_nonneg (by omega) (Int.emod_nonneg _ (by omega)))) (by omega)

/-- The conversion by a unit is the exact result cut to a word: the whole part
`points + ⌊fraction / 2^16⌋` and the value `points · 2^16 + fraction` are computed exactly and
stored in 32 bits, and the conversion is refused when the stored whole part reaches `2^14`. -/
theorem scale_eq_ofInt {whole frac : Int32} {u : MeasureUnit} (hne : u.num ≠ u.den)
    (hw : 0 ≤ whole.toInt) (hf : 0 ≤ frac.toInt) (hn : 0 ≤ u.num.toInt) (hd : 0 < u.den.toInt) :
    (Int32.ofInt (u.points whole.toInt + u.fraction whole.toInt frac.toInt / 65536) ≥ 16384 →
        scale whole frac u = (maxDimen, false)) ∧
      (Int32.ofInt (u.points whole.toInt + u.fraction whole.toInt frac.toInt / 65536) < 16384 →
        scale whole frac u =
          (Int32.ofInt (u.points whole.toInt * 65536 + u.fraction whole.toInt frac.toInt), true)) := by
  have hr0 : 0 ≤ whole.toInt * u.num.toInt % u.den.toInt := Int.emod_nonneg _ (by omega)
  have hr : whole.toInt * u.num.toInt % u.den.toInt < u.den.toInt := Int.emod_lt_of_pos _ hd
  have hrem : (Int32.ofInt (whole.toInt * u.num.toInt % u.den.toInt)).toInt =
      whole.toInt * u.num.toInt % u.den.toInt :=
    toInt_ofInt_of_nonneg hr0 (by have := u.den.toInt_lt; simp at this; omega)
  have hf0 : 0 ≤ u.num.toInt * frac.toInt + 65536 * (whole.toInt * u.num.toInt % u.den.toInt) :=
    Int.add_nonneg (Int.mul_nonneg hn hf) (Int.mul_nonneg (by omega) hr0)
  have hfpos := @MeasureUnit.fraction_nonneg u whole.toInt frac.toInt hf hn hd
  unfold MeasureUnit.fraction at hfpos
  have hsplit : ∀ q f : Int, Int32.ofInt (q + f / 65536) * 65536 + Int32.ofInt (f % 65536) =
      Int32.ofInt (q * 65536 + f) := by
    intro q f
    have h65536 : (65536 : Int32) = Int32.ofInt 65536 := rfl
    rw [h65536, ← Int32.ofInt_mul, ← Int32.ofInt_add]
    congr 1
    omega
  simp only [scale, if_pos hne, xnOverD_of_nonneg hw hn, hrem,
    Int.tdiv_eq_ediv_of_nonneg hf0, Int.tdiv_eq_ediv_of_nonneg hfpos,
    Int.tmod_eq_emod_of_nonneg hfpos, ← Int32.ofInt_add, MeasureUnit.points, MeasureUnit.fraction]
  refine ⟨fun hc => ?_, fun hc => ?_⟩
  · rw [if_pos hc]
  · split
    · rename_i hge
      rw [Int32.lt_iff_toInt_lt] at hc
      rw [ge_iff_le, Int32.le_iff_toInt_le] at hge
      omega
    · rw [hsplit]

/-- While the exact whole part stays below `2^31`, the conversion by any unit of the table
but the point is refused exactly when the whole part reaches `2^14` points; otherwise it is
the exact value, which lies in `0 .. maxDimen`. -/
theorem scale_refuses_exactly_beyond_range {whole frac : Int32} {u : MeasureUnit}
    (hu : u ∈ units.map Prod.snd) (hne : u.num ≠ u.den) (hw : 0 ≤ whole.toInt)
    (hf : 0 ≤ frac.toInt)
    (hfit : u.points whole.toInt + u.fraction whole.toInt frac.toInt / 65536 < 2147483648) :
    ((scale whole frac u).2 = true ↔
        u.points whole.toInt + u.fraction whole.toInt frac.toInt / 65536 < 16384) ∧
      ((scale whole frac u).2 = true →
        (scale whole frac u).1.toInt =
            u.points whole.toInt * 65536 + u.fraction whole.toInt frac.toInt ∧
          0 ≤ (scale whole frac u).1.toInt ∧ (scale whole frac u).1.toInt ≤ maxDimen.toInt) := by
  obtain ⟨hn, -, hd, -⟩ := MeasureUnit.bounds_of_mem hu
  obtain ⟨hrefused, hkept⟩ := scale_eq_ofInt hne hw hf hn hd
  set q := u.points whole.toInt with hq_def
  set f := u.fraction whole.toInt frac.toInt with hf_def
  have hq : 0 ≤ q := MeasureUnit.points_nonneg hw hn hd
  have hfpos : 0 ≤ f := MeasureUnit.fraction_nonneg hf hn hd
  have hcarry : 0 ≤ f / 65536 := Int.ediv_nonneg hfpos (by omega)
  have hwhole : (Int32.ofInt (q + f / 65536)).toInt = q + f / 65536 :=
    toInt_ofInt_of_nonneg (by omega) hfit
  by_cases hbig : 16384 ≤ q + f / 65536
  · have hc : Int32.ofInt (q + f / 65536) ≥ 16384 := by
      rw [ge_iff_le, Int32.le_iff_toInt_le, hwhole]
      exact hbig
    rw [hrefused hc]
    simp only [Bool.false_eq_true, false_iff, false_implies, and_true, not_lt]
    exact hbig
  · have hc : Int32.ofInt (q + f / 65536) < 16384 := by
      rw [Int32.lt_iff_toInt_lt, hwhole]
      change _ < (16384 : Int)
      omega
    have hfits : q * 65536 + f < 2147483648 := by omega
    rw [hkept hc, toInt_ofInt_of_nonneg (by omega) hfits]
    refine ⟨by simpa using hbig, fun _ => ⟨rfl, by omega, ?_⟩⟩
    change _ ≤ (1073741823 : Int)
    omega

/-- Ten and a half ciceros, about `134.8` points: well within range. -/
theorem scale_ten_and_a_half_ciceros :
    (⟨14856, 1157⟩ : MeasureUnit) ∈ units.map Prod.snd ∧
      (scale 10 32768 ⟨14856, 1157⟩).2 = true ∧ (scale 10 32768 ⟨14856, 1157⟩).1.toInt = 8835634 := by
  have h := @scale_refuses_exactly_beyond_range 10 32768 ⟨14856, 1157⟩ (by decide) (by decide)
    (by decide) (by decide) (by decide)
  have hok : (scale 10 32768 ⟨14856, 1157⟩).2 = true := h.1.mpr (by decide)
  exact ⟨by decide, hok, (h.2 hok).1.trans (by decide)⟩

/-- Thirty million inches is far beyond `maxDimen`, yet the conversion answers it as
valid: the exact whole part, `2168100000` points, is cut to a negative word. -/
theorem scale_inch_wraps :
    unitNamed? "in" = some ⟨7227, 100⟩ ∧
      16384 ≤ (30000000 : Int) * 7227 / 100 ∧
      scale 30000000 0 ⟨7227, 100⟩ = (Int32.ofInt (-1801453568), true) := by
  refine ⟨by decide, by decide, by decide⟩

end Scaled

end Galley
