import Mathlib
import Galley.Scaled.Basic

/-!
# Badness is bounded and monotone

`Scaled.badness t s` approximates `100 (t/s)^3` for stretching or shrinking by `t` out of the
`s` the glue can give. It first forms a ratio `r`, about `297 t / s`, by one of three integer
formulas: `⌊297 t / s⌋` while `297 t` stays small, `⌊t / ⌊s/297⌋⌋` for a large `t` and a large
`s`, and `t` itself for a large `t` and a small `s`, where the ratio is beyond every cap anyway.
The badness is then `10000` past `r = 1290`, and the cube of `r` scaled by `2^18` below it.

The cube is monotone in the ratio and stays below `10000` at `r = 1290`, so the badness
follows the ratio (`cubeBadness_le_of`). The ratio itself grows with `t` and falls with `s`
within each formula; across the switch points it moves the right way because dividing `s`
by 297 first only rounds the divisor down (`div_le_div_quot`), and where it jumps to `t` it
jumps past the cap. So for every `t ≥ 0` the badness lies in `[0, 10000]`, grows with `t`
and falls with `s`, an `s ≤ 0` counting as no glue at all (`badness_bounded_monotone`).
-/

namespace Galley

namespace Scaled

/-- The ratio `badness` measures, about `297 t / s`. -/
def badnessRatio (t s : Int) : Int :=
  if t ≤ 7230584 then (t * 297).tdiv s else if s ≥ 1663497 then t.tdiv (s.tdiv 297) else t

/-- The badness of a ratio: its cube scaled by `2^18` and rounded, or `10000` past `1290`. -/
def cubeBadness (r : Int) : Int :=
  if r > 1290 then 10000 else (Int64.ofInt (r * r * r + 0x20000)).toInt.tdiv 0x40000

/-- Past the two special cases, `badness` is the badness of its ratio. -/
theorem badness_eq_cube {t s : Scaled} (ht : t ≠ 0) (hs : ¬ s ≤ 0) :
    badness t s = cubeBadness (badnessRatio t.toInt s.toInt) := by
  unfold badness
  rw [if_neg ht, if_neg hs]
  rfl

/-! ### The cube -/

theorem cubeBadness_of_le {r : Int} (h0 : 0 ≤ r) (h : r ≤ 1290) :
    cubeBadness r = (r * r * r + 0x20000) / 0x40000 := by
  have hcube : r * r * r ≤ 1290 * 1290 * 1290 := by
    have h2 : r * r ≤ 1290 * 1290 := Int.mul_le_mul h h h0 (by norm_num)
    exact Int.mul_le_mul h2 h h0 (by norm_num)
  have hnn : 0 ≤ r * r * r := Int.mul_nonneg (Int.mul_nonneg h0 h0) h0
  have hexact : (Int64.ofInt (r * r * r + 0x20000)).toInt = r * r * r + 0x20000 := by
    rw [Int64.toInt_ofInt]
    exact Int.bmod_eq_of_le (by simp [Int64.size]; omega) (by simp [Int64.size]; omega)
  rw [cubeBadness, if_neg (by omega), hexact, Int.tdiv_eq_ediv_of_nonneg (by omega)]

theorem cubeBadness_nonneg {r : Int} (h0 : 0 ≤ r) : 0 ≤ cubeBadness r := by
  by_cases h : r ≤ 1290
  · rw [cubeBadness_of_le h0 h]
    exact Int.ediv_nonneg (by positivity) (by norm_num)
  · simp [cubeBadness, show r > 1290 by omega]

theorem cubeBadness_le_infBad {r : Int} (h0 : 0 ≤ r) : cubeBadness r ≤ 10000 := by
  by_cases h : r ≤ 1290
  · rw [cubeBadness_of_le h0 h]
    have hcube : r * r * r ≤ 1290 * 1290 * 1290 := by
      have h2 : r * r ≤ 1290 * 1290 := Int.mul_le_mul h h h0 (by norm_num)
      exact Int.mul_le_mul h2 h h0 (by norm_num)
    exact Int.ediv_le_of_le_mul (by norm_num) (by omega)
  · simp [cubeBadness, show r > 1290 by omega]

/-- The badness follows the ratio: it grows with it, and past the cap it stays at `10000`. -/
theorem cubeBadness_le_of {r r' : Int} (h0 : 0 ≤ r) (h : r ≤ r' ∨ 1290 < r') :
    cubeBadness r ≤ cubeBadness r' := by
  rcases h with h | h
  · by_cases h' : r' ≤ 1290
    · rw [cubeBadness_of_le h0 (h.trans h'), cubeBadness_of_le (h0.trans h) h']
      have h2 : r * r ≤ r' * r' := Int.mul_le_mul h h h0 (h0.trans h)
      have h3 : r * r * r ≤ r' * r' * r' := Int.mul_le_mul h2 h h0 (mul_self_nonneg r')
      exact Int.ediv_le_ediv (by norm_num) (by omega)
    · simpa [cubeBadness, show r' > 1290 by omega] using cubeBadness_le_infBad h0
  · simpa [cubeBadness, show r' > 1290 by omega] using cubeBadness_le_infBad h0

/-! ### The ratio -/

/-- Dividing by `s` after scaling by 297 gives no more than dividing by `s/297` rounded
down: the rounded divisor is the smaller one. -/
theorem div_le_div_quot {t s : Int} (ht : 0 ≤ t) (hq : 0 < s / 297) :
    t * 297 / s ≤ t / (s / 297) := by
  rw [Int.le_ediv_iff_mul_le hq]
  have hs : 297 * (s / 297) ≤ s := Int.mul_ediv_self_le (by norm_num)
  have hq0 : 0 ≤ t * 297 / s := Int.ediv_nonneg (by omega) (by omega)
  have hle : 297 * (t * 297 / s * (s / 297)) ≤ t * 297 / s * s :=
    calc 297 * (t * 297 / s * (s / 297)) = t * 297 / s * (297 * (s / 297)) := by ring
      _ ≤ t * 297 / s * s := Int.mul_le_mul_of_nonneg_left hs hq0
  have hmul : t * 297 / s * s ≤ t * 297 := Int.ediv_mul_le _ (by omega)
  omega

theorem ediv_le_ediv_of_le_divisor {a b c : Int} (ha : 0 ≤ a) (hb : 0 < b) (hbc : b ≤ c) :
    a / c ≤ a / b := by
  rw [Int.le_ediv_iff_mul_le hb]
  calc a / c * b ≤ a / c * c := Int.mul_le_mul_of_nonneg_left hbc (Int.ediv_nonneg ha (by omega))
    _ ≤ a := Int.ediv_mul_le _ (by omega)

theorem badnessRatio_eq {t s : Int} (ht : 0 ≤ t) (hs : 0 < s) :
    badnessRatio t s =
      if t ≤ 7230584 then t * 297 / s else if s ≥ 1663497 then t / (s / 297) else t := by
  have hq : s.tdiv 297 = s / 297 := Int.tdiv_eq_ediv_of_nonneg hs.le
  simp only [badnessRatio, hq, Int.tdiv_eq_ediv_of_nonneg (show 0 ≤ t * 297 by omega),
    Int.tdiv_eq_ediv_of_nonneg ht]

theorem badnessRatio_nonneg {t s : Int} (ht : 0 ≤ t) (hs : 0 < s) : 0 ≤ badnessRatio t s := by
  rw [badnessRatio_eq ht hs]
  split_ifs
  · exact Int.ediv_nonneg (by omega) hs.le
  · exact Int.ediv_nonneg ht (by omega)
  · exact ht

/-- More stretch asks for a larger ratio, or for one past the cap. -/
theorem badnessRatio_mono_left {t t' s : Int} (ht : 0 ≤ t) (htt : t ≤ t') (hs : 0 < s) :
    badnessRatio t s ≤ badnessRatio t' s ∨ 1290 < badnessRatio t' s := by
  rw [badnessRatio_eq ht hs, badnessRatio_eq (ht.trans htt) hs]
  by_cases hsmall' : t' ≤ 7230584
  · rw [if_pos (htt.trans hsmall'), if_pos hsmall']
    exact .inl (Int.ediv_le_ediv hs (by omega))
  rw [if_neg hsmall']
  by_cases hbig : s ≥ 1663497
  · have hq : 0 < s / 297 := by omega
    rw [if_pos hbig]
    refine .inl ?_
    split_ifs
    · exact (div_le_div_quot ht hq).trans (Int.ediv_le_ediv hq htt)
    · exact Int.ediv_le_ediv hq htt
  · rw [if_neg hbig]
    exact .inr (by omega)

/-- More glue gives a smaller ratio, or the smaller glue was past the cap already. -/
theorem badnessRatio_anti_right {t s s' : Int} (ht : 0 ≤ t) (hs : 0 < s) (hss : s ≤ s') :
    badnessRatio t s' ≤ badnessRatio t s ∨ 1290 < badnessRatio t s := by
  rw [badnessRatio_eq ht hs, badnessRatio_eq ht (hs.trans_le hss)]
  by_cases hsmall : t ≤ 7230584
  · rw [if_pos hsmall, if_pos hsmall]
    exact .inl (ediv_le_ediv_of_le_divisor (by omega) hs hss)
  rw [if_neg hsmall, if_neg hsmall]
  by_cases hbig : s ≥ 1663497
  · rw [if_pos hbig, if_pos (show s' ≥ 1663497 by omega)]
    exact .inl (ediv_le_ediv_of_le_divisor ht (by omega) (Int.ediv_le_ediv (by norm_num) hss))
  · rw [if_neg hbig]
    exact .inr (by omega)

/-! ### The badness -/

theorem toInt_nonneg_of_le {t : Scaled} (ht : 0 ≤ t) : 0 ≤ t.toInt := by
  simpa [Int32.le_iff_toInt_le] using ht

theorem toInt_pos_of_not_le {s : Scaled} (hs : ¬ s ≤ 0) : 0 < s.toInt := by
  simpa [Int32.le_iff_toInt_le] using hs

theorem badness_of_no_glue {t s : Scaled} (ht : t ≠ 0) (hs : s ≤ 0) : badness t s = 10000 := by
  simp [badness, ht, hs]

/-- For a nonnegative `t` the badness is in `[0, 10000]`: zero for no stretch, `10000` for no
glue, and otherwise the badness of a nonnegative ratio. -/
theorem badness_bounds {t s : Scaled} (ht : 0 ≤ t) : 0 ≤ badness t s ∧ badness t s ≤ 10000 := by
  by_cases h0 : t = 0
  · simp [badness, h0]
  by_cases hs : s ≤ 0
  · simp [badness_of_no_glue h0 hs]
  rw [badness_eq_cube h0 hs]
  have hr := badnessRatio_nonneg (toInt_nonneg_of_le ht) (toInt_pos_of_not_le hs)
  exact ⟨cubeBadness_nonneg hr, cubeBadness_le_infBad hr⟩

theorem badness_mono_left {t t' s : Scaled} (ht : 0 ≤ t) (htt : t ≤ t') :
    badness t s ≤ badness t' s := by
  by_cases h0 : t = 0
  · simpa [badness, h0] using (badness_bounds (s := s) (Int32.le_trans ht htt)).1
  have h0' : t' ≠ 0 := by
    rintro rfl
    exact h0 (Int32.le_antisymm htt ht)
  by_cases hs : s ≤ 0
  · rw [badness_of_no_glue h0 hs, badness_of_no_glue h0' hs]
  rw [badness_eq_cube h0 hs, badness_eq_cube h0' hs]
  have htoInt := toInt_nonneg_of_le ht
  exact cubeBadness_le_of (badnessRatio_nonneg htoInt (toInt_pos_of_not_le hs))
    (badnessRatio_mono_left htoInt (Int32.le_iff_toInt_le.1 htt) (toInt_pos_of_not_le hs))

theorem badness_anti_right {t s s' : Scaled} (ht : 0 ≤ t) (hss : s ≤ s') :
    badness t s' ≤ badness t s := by
  by_cases h0 : t = 0
  · simp [badness, h0]
  by_cases hs : s ≤ 0
  · rw [badness_of_no_glue h0 hs]
    exact (badness_bounds ht).2
  have hs' : ¬ s' ≤ 0 := fun h => hs (Int32.le_trans hss h)
  rw [badness_eq_cube h0 hs, badness_eq_cube h0 hs']
  have htoInt := toInt_nonneg_of_le ht
  exact cubeBadness_le_of (badnessRatio_nonneg htoInt (toInt_pos_of_not_le hs'))
    (badnessRatio_anti_right htoInt (toInt_pos_of_not_le hs) (Int32.le_iff_toInt_le.1 hss))

/-- For every `t ≥ 0`, the badness lies in `[0, 10000]`, it does not fall as `t` grows, and
it does not grow as `s` grows, where an `s ≤ 0` is infinitely bad for a positive `t`. -/
theorem badness_bounded_monotone :
    (∀ t s : Scaled, 0 ≤ t → 0 ≤ badness t s ∧ badness t s ≤ 10000) ∧
    (∀ t t' s : Scaled, 0 ≤ t → t ≤ t' → badness t s ≤ badness t' s) ∧
    (∀ t s s' : Scaled, 0 ≤ t → s ≤ s' → badness t s' ≤ badness t s) ∧
    (∀ t s : Scaled, 0 < t → s ≤ 0 → badness t s = 10000) := by
  refine ⟨fun t s ht => badness_bounds ht, fun t t' s ht htt => ?_, fun t s s' ht hss => ?_,
    fun t s ht hs => ?_⟩
  · exact badness_mono_left ht htt
  · exact badness_anti_right ht hss
  · exact badness_of_no_glue (Int32.ne_of_lt ht).symm hs

/-- Full stretch is 100 bad, half of it about an eighth of that. -/
example : badness 65536 65536 = 100 ∧ badness 65536 131072 = 12 := by decide

end Scaled

end Galley
