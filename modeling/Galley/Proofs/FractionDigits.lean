import Mathlib
import Galley.Scaled.Basic

/-!
# The fraction digits of a scaled value

`Scaled.format` writes the fraction `f / 2^16` of a point, `f < 2^16`, with the fewest
decimal digits that `Scaled.roundDecimals` reads back as `f`: `format_fraction_shortest`.

Reading back is an interval condition. `roundDecimals` divides by ten from the last digit up,
which computes `⌊2^17·N / 10^k⌋` for the `k` digits of value `N`, and halves that rounding a
half up; so the digits read back as `f` exactly when `N / 10^k` lies in
`[(f - 1/2)/2^16, (f + 1/2)/2^16)`, the interval of the fraction (`ReadsBackAt`,
`roundDecimals_eq_ofNat_iff`).

The digit loop measures the distance from the digits printed so far to the upper end of
that interval. After `j` digits of value `N` its remainder `w` satisfies
`w + 10·2^16·N = 5·10^j·(2f + 1)` with `w < 10·2^16` (`DigitState`): the upper end lies less
than one unit of the `j`-th place above `N / 10^j`. The loop stops after digit `j` when the
remaining distance is at most the width of the interval, which is when `N / 10^j` has
reached its lower end; while it goes on, the whole interval lies strictly between
`N / 10^j` and `(N + 1) / 10^j`, so no string of `j` digits reads back. Every unit of the
fifth place is narrower than the interval, so the loop never needs a sixth digit; the fifth
is rounded to the nearest, which always lands inside.
-/

namespace Galley.Scaled

/-- The value of a digit string, most significant digit first. -/
def digitsValue (ds : List Nat) : Nat := Nat.ofDigits 10 ds.reverse

/-- `k` digits of value `N` read back as the fraction `f`: `N / 10^k` rounds, a half going up,
to `f / 2^16`. As integers, `2f·10^k ≤ 2^17·N + 10^k` and `2^17·N < 2f·10^k + 10^k`. -/
def ReadsBackAt (f k N : Nat) : Prop :=
  2 * (f * 10 ^ k) ≤ 131072 * N + 10 ^ k ∧ 131072 * N < 2 * (f * 10 ^ k) + 10 ^ k

/-- The digit string `ds` reads back as the fraction `f`. -/
def ReadsBack (f : Nat) (ds : List Nat) : Prop := ReadsBackAt f ds.length (digitsValue ds)

/-- The character of a decimal digit. -/
def digitChar (d : Nat) : Char := Char.ofNat (48 + d)

theorem digitsValue_cons (d : Nat) (ds : List Nat) :
    digitsValue (d :: ds) = d * 10 ^ ds.length + digitsValue ds := by
  simp only [digitsValue, List.reverse_cons, Nat.ofDigits_append, List.length_reverse,
    Nat.ofDigits_singleton]
  ring

theorem digitsValue_lt {ds : List Nat} (hds : ∀ d ∈ ds, d < 10) :
    digitsValue ds < 10 ^ ds.length := by
  have h := Nat.ofDigits_lt_base_pow_length (b := 10) (l := ds.reverse) (by norm_num)
    (fun d hd => hds d (List.mem_reverse.1 hd))
  rwa [List.length_reverse] at h

/-! ### Reading digits back -/

theorem toInt_divide_step {a : Int32} {d : Nat} (ha : 0 ≤ a.toInt) (ha' : a.toInt < 131072)
    (hd : d < 10) :
    ((a + Int32.ofNat d * 131072) / 10).toInt = (a.toInt + 131072 * d) / 10 := by
  have hd' : (Int32.ofNat d).toInt = d := Int32.toInt_ofNat_of_lt (by omega)
  have hmul : (Int32.ofNat d * 131072).toInt = 131072 * d := by
    rw [Int32.toInt_mul, hd', show (131072 : Int32).toInt = 131072 from rfl]
    rw [Int.bmod_eq_of_le] <;> omega
  have hadd : (a + Int32.ofNat d * 131072).toInt = a.toInt + 131072 * d := by
    rw [Int32.toInt_add, hmul]
    rw [Int.bmod_eq_of_le] <;> omega
  rw [Int32.toInt_div, hadd, show (10 : Int32).toInt = 10 from rfl,
    Int.tdiv_eq_ediv_of_nonneg (by omega)]
  rw [Int.bmod_eq_of_le] <;> omega

/-- Dividing by ten from the last digit up computes `⌊2^17·N / 10^k⌋`. -/
theorem foldr_divide_eq {ds : List Nat} (hds : ∀ d ∈ ds, d < 10) :
    ((ds.map Int32.ofNat).foldr (fun d a => (a + d * 131072) / 10) 0).toInt =
      ((131072 * digitsValue ds / 10 ^ ds.length : Nat) : Int) := by
  induction ds with
  | nil => rfl
  | cons d ds ih =>
    have hd : d < 10 := hds d (by simp)
    have hrest : ∀ x ∈ ds, x < 10 := fun x hx => hds x (by simp [hx])
    have hlt := digitsValue_lt hrest
    have hpos : 0 < 10 ^ ds.length := by positivity
    -- the partial result is below `2^17`, so the next step stays within a word
    have hbound : 131072 * digitsValue ds / 10 ^ ds.length < 131072 :=
      (Nat.div_lt_iff_lt_mul hpos).2 (by nlinarith)
    have hbound' : ((131072 * digitsValue ds / 10 ^ ds.length : Nat) : Int) < 131072 := by
      exact_mod_cast hbound
    simp only [List.map_cons, List.foldr_cons]
    rw [toInt_divide_step (by rw [ih hrest]; exact Int.natCast_nonneg _)
      (by rw [ih hrest]; exact hbound') hd, ih hrest, digitsValue_cons, List.length_cons, pow_succ]
    have hstep : (131072 * digitsValue ds / 10 ^ ds.length + 131072 * d) / 10 =
        131072 * (d * 10 ^ ds.length + digitsValue ds) / (10 ^ ds.length * 10) := by
      rw [← Nat.div_div_eq_div_mul, ← Nat.add_mul_div_right _ _ hpos]
      congr 2
      ring
    rw [← hstep]
    push_cast
    rfl

/-- What `roundDecimals` gives for at most seventeen decimal digits. -/
theorem roundDecimals_toInt {ds : List Nat} (hds : ∀ d ∈ ds, d < 10) (hlen : ds.length ≤ 17) :
    (roundDecimals (ds.map Int32.ofNat)).toInt =
      (((131072 * digitsValue ds / 10 ^ ds.length + 1) / 2 : Nat) : Int) := by
  have htake : (ds.map Int32.ofNat).take 17 = ds.map Int32.ofNat :=
    List.take_of_length_le (by simpa using hlen)
  have hpos : 0 < 10 ^ ds.length := by positivity
  have hbound : 131072 * digitsValue ds / 10 ^ ds.length < 131072 :=
    (Nat.div_lt_iff_lt_mul hpos).2 (by nlinarith [digitsValue_lt hds])
  have hbound' : ((131072 * digitsValue ds / 10 ^ ds.length : Nat) : Int) < 131072 := by
    exact_mod_cast hbound
  have hnonneg := Int.natCast_nonneg (131072 * digitsValue ds / 10 ^ ds.length)
  have hfold := foldr_divide_eq hds
  simp only [roundDecimals, htake]
  set a := (ds.map Int32.ofNat).foldr (fun d a => (a + d * 131072) / 10) 0
  have ha0 : 0 ≤ a.toInt := by rw [hfold]; exact hnonneg
  have ha1 : a.toInt < 131072 := by rw [hfold]; exact hbound'
  have hone : (a + 1).toInt = a.toInt + 1 := by
    rw [Int32.toInt_add, show (1 : Int32).toInt = 1 from rfl]
    rw [Int.bmod_eq_of_le] <;> omega
  rw [Int32.toInt_div, hone, show (2 : Int32).toInt = 2 from rfl,
    Int.tdiv_eq_ediv_of_nonneg (by omega), hfold]
  rw [Int.bmod_eq_of_le] <;> omega

/-- At most seventeen decimal digits read back as the fraction `f` exactly when
`roundDecimals` gives `f`. -/
theorem roundDecimals_eq_ofNat_iff {f : Nat} (hf : f < 65536) {ds : List Nat}
    (hds : ∀ d ∈ ds, d < 10) (hlen : ds.length ≤ 17) :
    roundDecimals (ds.map Int32.ofNat) = Int32.ofNat f ↔ ReadsBack f ds := by
  have hpos : 0 < 10 ^ ds.length := by positivity
  rw [← Int32.toInt_inj, roundDecimals_toInt hds hlen, Int32.toInt_ofNat_of_lt (by omega),
    Int.natCast_inj, ReadsBack, ReadsBackAt, Nat.div_eq_iff (by norm_num)]
  -- `⌊x / P⌋ + 1 ≥ 2f` is `2f·P ≤ x + P`, and `⌊x / P⌋ < 2f + 1` is `x < (2f + 1)·P`
  have hlow : 2 * f ≤ 131072 * digitsValue ds / 10 ^ ds.length + 1 ↔
      2 * (f * 10 ^ ds.length) ≤ 131072 * digitsValue ds + 10 ^ ds.length := by
    rw [← Nat.add_div_right _ hpos, Nat.le_div_iff_mul_le hpos]
    constructor <;> intro h <;> linarith
  have hhigh : 131072 * digitsValue ds / 10 ^ ds.length < 2 * f + 1 ↔
      131072 * digitsValue ds < 2 * (f * 10 ^ ds.length) + 10 ^ ds.length := by
    rw [Nat.div_lt_iff_lt_mul hpos]
    constructor <;> intro h <;> linarith
  rw [← hlow, ← hhigh]
  omega

/-! ### The digit loop -/

/-- The digit loop for the fraction `f` after `j` digits of value `N`, with remainder `w`:
the upper end `(f + 1/2) / 2^16` of the fraction's interval lies `w / (10·2^16)` units of
the `j`-th place above `N / 10^j`, less than one unit. -/
structure DigitState (f j N w : Nat) : Prop where
  sum : w + 655360 * N = 10 * (f * 10 ^ j) + 5 * 10 ^ j
  lt : w < 655360

namespace DigitState

variable {f j N w : Nat}

theorem start (hf : f < 65536) : DigitState f 0 0 (10 * f + 5) :=
  ⟨by simp, by omega⟩

theorem step (h : DigitState f j N w) :
    DigitState f (j + 1) (10 * N + w / 65536) (10 * (w % 65536)) := by
  have hs := h.sum
  refine ⟨?_, by omega⟩
  rw [pow_succ, show f * (10 ^ j * 10) = (f * 10 ^ j) * 10 by ring]
  omega

theorem digit_lt (h : DigitState f j N w) : w / 65536 < 10 := by
  have := h.lt
  omega

/-- A string of `j` digits never makes `2^17·N` equal to the odd multiple `(2f + 1)·10^j`
of `10^j`, for `j` below seventeen. -/
theorem ne_upper_end (hj : j < 17) (N : Nat) : 131072 * N ≠ 2 * (f * 10 ^ j) + 10 ^ j := by
  intro h
  have hsplit : 2 ^ j * (2 ^ (17 - j) * N) = 2 ^ j * (5 ^ j * (2 * f + 1)) := by
    rw [← mul_assoc, ← pow_add, Nat.add_sub_cancel' hj.le]
    calc 2 ^ 17 * N = 131072 * N := by norm_num
      _ = 2 * (f * 10 ^ j) + 10 ^ j := h
      _ = 2 ^ j * (5 ^ j * (2 * f + 1)) := by
        rw [show (10 : Nat) = 2 * 5 by norm_num, mul_pow]
        ring
  have hcancel := Nat.eq_of_mul_eq_mul_left ((by positivity : 0 < 2 ^ j)) hsplit
  have heven : Even (2 ^ (17 - j) * N) :=
    (Nat.even_pow.2 ⟨even_two, by omega⟩).mul_right N
  have hodd : Odd (5 ^ j * (2 * f + 1)) :=
    (Odd.pow (by decide)).mul (odd_two_mul_add_one f)
  rw [hcancel] at heven
  exact (Nat.not_even_iff_odd.2 hodd) heven

/-- The loop stops after digit `j` once the remainder is at most `10^(j+1)`: then the `j`
digits read back. -/
theorem readsBack_of_stop (h : DigitState f j N w) (hj : j < 17) (hstop : w ≤ 10 ^ (j + 1)) :
    ReadsBackAt f j N := by
  have hs := h.sum
  have hne := ne_upper_end (f := f) hj N
  rw [pow_succ] at hstop
  constructor <;> omega

/-- While the remainder exceeds `10^(j+1)`, the interval lies strictly between `N / 10^j` and
`(N + 1) / 10^j`, and no string of `j` digits reads back. -/
theorem not_readsBack_of_go (h : DigitState f j N w) (hgo : 10 ^ (j + 1) < w) (M : Nat) :
    ¬ ReadsBackAt f j M := by
  have hs := h.sum
  have hlt := h.lt
  rw [pow_succ] at hgo
  rintro ⟨h1, h2⟩
  omega

theorem fifth (h : DigitState f 4 N w) (hgo : 10 ^ 5 < w) :
    (w - 17232) / 65536 < 10 ∧ ReadsBackAt f 5 (10 * N + (w - 17232) / 65536) ∧
      10 * ((w - 17232) % 65536) ≤ 1000000 := by
  have hs := h.sum
  have hlt := h.lt
  norm_num [ReadsBackAt] at hs hgo ⊢
  omega

end DigitState

/-! ### The digits printed -/

theorem tdiv_natCast (w : Nat) : (w : Int).tdiv 65536 = ((w / 65536 : Nat) : Int) := by
  rw [Int.tdiv_eq_ediv_of_nonneg (by omega)]
  omega

theorem tmod_natCast (w : Nat) : (w : Int).tmod 65536 = ((w % 65536 : Nat) : Int) := by
  rw [Int.tmod_eq_emod_of_nonneg (by omega)]
  omega

theorem fractionDigits_succ {fuel w : Nat} {delta : Int} (h : ¬ delta > 65536) :
    fractionDigits (fuel + 1) w delta = digitChar (w / 65536) ::
      if ((10 * (w % 65536) : Nat) : Int) ≤ delta * 10 then []
      else fractionDigits fuel ((10 * (w % 65536) : Nat) : Int) (delta * 10) := by
  rw [fractionDigits]
  simp only [if_neg h]
  rw [tdiv_natCast, tmod_natCast, Int.toNat_natCast, Nat.cast_mul, Nat.cast_ofNat]
  rfl

theorem fractionDigits_succ_rounded {fuel w : Nat} {delta : Int} (h : delta > 65536)
    (hw : 17232 ≤ w) :
    fractionDigits (fuel + 1) w delta = digitChar ((w - 17232) / 65536) ::
      if ((10 * ((w - 17232) % 65536) : Nat) : Int) ≤ delta * 10 then []
      else fractionDigits fuel ((10 * ((w - 17232) % 65536) : Nat) : Int) (delta * 10) := by
  have hshift : (w : Int) + (32768 - 50000) = ((w - 17232 : Nat) : Int) := by omega
  rw [fractionDigits]
  simp only [if_pos h]
  rw [hshift, tdiv_natCast, tmod_natCast, Int.toNat_natCast, Nat.cast_mul, Nat.cast_ofNat]
  rfl

/-- From the state after `j < 5` digits of which no shorter prefix reads back, the loop prints
the digits `ds` that complete them to the first length that reads back. -/
theorem fractionDigits_completes {f : Nat} :
    ∀ k j N w fuel, j + k = 4 → 5 ≤ j + fuel → DigitState f j N w →
      (∀ i M, 0 < i → i ≤ j → ¬ ReadsBackAt f i M) →
      ∃ ds, fractionDigits fuel (w : Int) ((10 : Int) ^ (j + 1)) = ds.map digitChar ∧
        ds ≠ [] ∧ (∀ d ∈ ds, d < 10) ∧ j + ds.length ≤ 5 ∧
        ReadsBackAt f (j + ds.length) (N * 10 ^ ds.length + digitsValue ds) ∧
        ∀ i M, 0 < i → i < j + ds.length → ¬ ReadsBackAt f i M := by
  intro k
  induction k with
  | zero =>
    intro j N w fuel hj hfuel h hnone
    obtain rfl : j = 4 := by omega
    obtain ⟨fuel, rfl⟩ : ∃ fuel', fuel = fuel' + 1 := ⟨fuel - 1, by omega⟩
    have hgo : 10 ^ 5 < w := by
      by_contra hle
      exact hnone 4 N (by omega) le_rfl (h.readsBack_of_stop (by omega) (by omega))
    obtain ⟨hd, hread, hstop⟩ := h.fifth hgo
    have hlast : ((10 * ((w - 17232) % 65536) : Nat) : Int) ≤ 10 ^ (4 + 1) * 10 := by
      rw [show (10 : Int) ^ (4 + 1) * 10 = 1000000 by norm_num]
      exact_mod_cast hstop
    refine ⟨[(w - 17232) / 65536], ?_, by simp, by simpa using hd, by simp, ?_, ?_⟩
    · rw [fractionDigits_succ_rounded (by norm_num) (by omega), if_pos hlast]
      rfl
    · have hval : N * 10 ^ [(w - 17232) / 65536].length + digitsValue [(w - 17232) / 65536] =
          10 * N + (w - 17232) / 65536 := by
        simp [digitsValue]
        ring
      rw [hval]
      exact hread
    · intro i M hi hlt
      exact hnone i M hi (by simp at hlt; omega)
  | succ k ih =>
    intro j N w fuel hj hfuel h hnone
    obtain ⟨fuel, rfl⟩ : ∃ fuel', fuel = fuel' + 1 := ⟨fuel - 1, by omega⟩
    have hsmall : ¬ ((10 : Int) ^ (j + 1) > 65536) := by
      have : (10 : Int) ^ (j + 1) ≤ 10 ^ 4 := pow_le_pow_right₀ (by norm_num) (by omega)
      norm_num at this ⊢
      omega
    have hnext := h.step
    have hd := h.digit_lt
    rw [fractionDigits_succ hsmall, ← pow_succ]
    by_cases hstop : 10 * (w % 65536) ≤ 10 ^ (j + 1 + 1)
    · -- the loop stops here: the digits so far read back
      have hstop' : ((10 * (w % 65536) : Nat) : Int) ≤ 10 ^ (j + 1 + 1) := by
        exact_mod_cast hstop
      refine ⟨[w / 65536], by rw [if_pos hstop']; rfl, by simp, by simpa using hd,
        by simp; omega, ?_, ?_⟩
      · have hval : N * 10 ^ [w / 65536].length + digitsValue [w / 65536] = 10 * N + w / 65536 := by
          simp [digitsValue]
          ring
        rw [hval]
        exact hnext.readsBack_of_stop (by omega) hstop
      · intro i M hi hlt
        exact hnone i M hi (by simp at hlt; omega)
    · -- the loop goes on, and no string as long as the digits so far reads back
      have hgo : ¬ ((10 * (w % 65536) : Nat) : Int) ≤ 10 ^ (j + 1 + 1) := by
        exact_mod_cast hstop
      have hnone' : ∀ i M, 0 < i → i ≤ j + 1 → ¬ ReadsBackAt f i M := by
        intro i M hi hle
        rcases Nat.lt_or_eq_of_le hle with hlt | rfl
        · exact hnone i M hi (by omega)
        · exact hnext.not_readsBack_of_go (by omega) M
      obtain ⟨ds, hrun, hne, hdig, hle, hread, hshort⟩ :=
        ih (j + 1) (10 * N + w / 65536) (10 * (w % 65536)) fuel (by omega) (by omega) hnext
          hnone'
      refine ⟨w / 65536 :: ds, by rw [if_neg hgo, hrun]; rfl, by simp, ?_, by simp; omega, ?_, ?_⟩
      · intro d hmem
        rcases List.mem_cons.1 hmem with rfl | hmem
        · exact hd
        · exact hdig d hmem
      · have hlen : j + 1 + ds.length = j + (w / 65536 :: ds).length := by simp; omega
        have hval : (10 * N + w / 65536) * 10 ^ ds.length + digitsValue ds =
            N * 10 ^ (w / 65536 :: ds).length + digitsValue (w / 65536 :: ds) := by
          rw [List.length_cons, digitsValue_cons, pow_succ]
          ring
        rw [hlen, hval] at hread
        exact hread
      · intro i M hi hlt
        exact hshort i M hi (by simp at hlt; omega)

/-- The fraction digits of `f < 2^16`: a non-empty string of at most five decimal digits that
reads back as `f`, and no shorter non-empty string of digits does. -/
theorem fractionDigits_shortest {f : Nat} (hf : f < 65536) :
    ∃ ds, fractionDigits 8 (10 * (f : Int) + 5) 10 = ds.map digitChar ∧ ds ≠ [] ∧
      (∀ d ∈ ds, d < 10) ∧ ReadsBack f ds ∧ ds.length ≤ 5 ∧
      ∀ ds', ds' ≠ [] → ReadsBack f ds' → ds.length ≤ ds'.length := by
  obtain ⟨ds, hrun, hne, hdig, hlen, hread, hshort⟩ :=
    fractionDigits_completes 4 0 0 (10 * f + 5) 8 rfl (by norm_num) (DigitState.start hf)
      (fun i M hi hle => absurd hle (by omega))
  refine ⟨ds, by exact_mod_cast hrun, hne, hdig, by simpa [ReadsBack] using hread,
    by simpa using hlen, ?_⟩
  intro ds' hne' hread'
  by_contra hlt
  exact hshort ds'.length (digitsValue ds') (List.length_pos_iff.2 hne') (by omega) hread'

/-- The text of a scaled value: its sign, its whole points in decimal, a point, and fraction
digits, at most five, that `roundDecimals` reads back as the fraction `|s| mod 2^16`, such
that no shorter non-empty string of digits reads back as it. -/
theorem format_fraction_shortest (s : Scaled) :
    ∃ ds : List Nat, s.format = (if s.toInt < 0 then "-" else "") ++
        toString (s.toInt.natAbs / 65536) ++ "." ++ String.ofList (ds.map digitChar) ∧
      ds ≠ [] ∧ ds.length ≤ 5 ∧ (∀ d ∈ ds, d < 10) ∧
      roundDecimals (ds.map Int32.ofNat) = Int32.ofNat (s.toInt.natAbs % 65536) ∧
      ∀ ds' : List Nat, ds' ≠ [] → (∀ d ∈ ds', d < 10) →
        roundDecimals (ds'.map Int32.ofNat) = Int32.ofNat (s.toInt.natAbs % 65536) →
        ds.length ≤ ds'.length := by
  have hf : s.toInt.natAbs % 65536 < 65536 := Nat.mod_lt _ (by norm_num)
  obtain ⟨ds, hrun, hne, hdig, hread, hlen, hshort⟩ := fractionDigits_shortest hf
  refine ⟨ds, ?_, hne, hlen, hdig, (roundDecimals_eq_ofNat_iff hf hdig (by omega)).2 hread, ?_⟩
  · simp only [format]
    rw [hrun]
  · intro ds' hne' hdig' hround
    by_contra hlt
    exact hlt (hshort ds' hne' ((roundDecimals_eq_ofNat_iff hf hdig' (by omega)).1 hround))

end Galley.Scaled
