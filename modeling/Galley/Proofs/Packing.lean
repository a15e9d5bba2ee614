import Mathlib
import Galley.Box.Pack

/-!
# Setting the glue of a packed box

`hpack` and `vpack` measure a list at its natural size `N` and set the glue of the box so
as to make up the adjustment `x`: `Size − N` when packing to a size, `Size` when spreading.
The packed dimension is `N + x`. For a horizontal list `N` is the sum of the widths, and
the height and depth of the box are the largest extents of its items above and below the
baseline, from 0, a shifted box moved by its shift and running rule dimensions left out.
For a vertical list `N` is the sum of all vertical extents less the depth of the box,
which is the depth of the last item (0 after glue or a kern).

`GlueRule` states how the glue is then set. Without an adjustment nothing is reported.
Otherwise the stretch (for `x > 0`) or the shrink (for `x < 0`) of the highest order whose
total `T` is not zero takes the adjustment up. Infinite glue takes any adjustment at
badness 0, set to `|x|/T`. Finite stretch reports an underfull box when there is none or
too little of it, and is then set to its full amount; finite shrink reports an overfull
box when `−x > T`, with the amount by which it is too large. In every other case the box
is fine, with a badness of at most 100 (`badness_le_hundred`), so loose and tight boxes
never arise.

All of this is arithmetic on 32-bit words, and `setGlue` negates `x` as a word. The rule
therefore holds for every adjustment but the most negative word, whose negation is itself
(`setGlue_follows_rule`), and so for every packing whose adjustment is not that word
(`pack_sets_glue_by_rule`), of a list whose glue has the four named orders: the packer
stops on glue of a higher order, which only a loaded format gives. A box spread by `−2^31`
sp over one point of finite shrink is reported tight, not overfull
(`hpack_spread_most_negative_is_tight`).
-/

namespace Galley

/-! ### What each item contributes -/

namespace Item

/-- The width an item adds to a horizontal list; a running rule width adds none. -/
def hWidth? : Item → Option Scaled
  | .char _ _ w _ _ => some w
  | .box b => some b.width
  | .rule w _ _ => if w ≠ running then some w else none
  | .glue g _ => some g.width
  | .kern w => some w

/-- How far an item reaches above the baseline of a horizontal list; a box shifted down
reaches that much less. Glue, kerns and running rule heights reach nowhere. -/
def hHeight? : Item → Option Scaled
  | .char _ _ _ h _ => some h
  | .box b => some (b.height - b.shift)
  | .rule _ h _ => if h ≠ running then some h else none
  | _ => none

/-- How far an item reaches below the baseline of a horizontal list. -/
def hDepth? : Item → Option Scaled
  | .char _ _ _ _ d => some d
  | .box b => some (b.depth + b.shift)
  | .rule _ _ d => if d ≠ running then some d else none
  | _ => none

/-- The vertical extent of an item of a vertical list: height and depth, a running rule
dimension counting for nothing; glue and kerns extend by their width. -/
def vExtent : Item → Scaled
  | .box b => b.height + b.depth
  | .char _ _ _ h d => h + d
  | .rule _ h d => (if h ≠ running then h else 0) + (if d ≠ running then d else 0)
  | .glue g _ => g.width
  | .kern w => w

/-- The depth an item leaves below the last baseline of a vertical list: none after glue
or a kern. -/
def vDepth : Item → Scaled
  | .box b => b.depth
  | .char _ _ _ _ d => d
  | .rule _ _ d => if d ≠ running then d else 0
  | _ => 0

/-- The stretch a glue item gives at order `o`. -/
def stretchAt (o : Order) : Item → Option Scaled
  | .glue g _ => if g.stretchOrder = o then some g.stretch else none
  | _ => none

/-- The shrink a glue item gives at order `o`. -/
def shrinkAt (o : Order) : Item → Option Scaled
  | .glue g _ => if g.shrinkOrder = o then some g.shrink else none
  | _ => none

end Item

/-- The natural width of a horizontal list. -/
def hNaturalWidth (l : List Item) : Scaled := (l.filterMap Item.hWidth?).sum

/-- The natural height of a horizontal list: the largest reach above the baseline, from 0. -/
def hNaturalHeight (l : List Item) : Scaled := (l.filterMap Item.hHeight?).foldl max 0

/-- The natural depth of a horizontal list: the largest reach below the baseline, from 0. -/
def hNaturalDepth (l : List Item) : Scaled := (l.filterMap Item.hDepth?).foldl max 0

/-- The depth of a vertical list: that of its last item, 0 for an empty list. -/
def vNaturalDepth (l : List Item) : Scaled := (l.getLast?.map Item.vDepth).getD 0

/-- The natural height of a vertical list: all vertical extents less the depth of the box. -/
def vNaturalHeight (l : List Item) : Scaled := (l.map Item.vExtent).sum - vNaturalDepth l

/-- The total stretch of order `o` in a list. -/
def stretchTotal (l : List Item) (o : Order) : Scaled := (l.filterMap (Item.stretchAt o)).sum

/-- The total shrink of order `o` in a list. -/
def shrinkTotal (l : List Item) (o : Order) : Scaled := (l.filterMap (Item.shrinkAt o)).sum

/-- The adjustment a box of natural size `n` needs: to `size`, or by `size`. -/
def PackSpec.adjustment (spec : PackSpec) (n : Scaled) : Scaled :=
  if spec.exactly then spec.size - n else spec.size

/-! ### The rule for setting glue -/

/-- The order that takes an adjustment up: the highest whose total is not zero, `normal`
when there is none. -/
def topOrder (total : Order → Scaled) : Order :=
  ([Order.filll, .fill, .fil].find? (total · ≠ 0)).getD .normal

/-- How the glue of box `b` is set, and what report `r` says, for an adjustment `x` given
the stretch and shrink totals of each order. -/
def GlueRule (x : Scaled) (stretch shrink : Order → Scaled) (b : Box) (r : PackReport) :
    Prop :=
  if x = 0 then r = {}
  else
    let total := if x > 0 then stretch else shrink
    let o := topOrder total
    let T := total o
    if o ≠ .normal then
      r = {} ∧ b.order = o ∧ b.sign = (if x > 0 then .stretching else .shrinking) ∧
        b.set = Float.ofInt |x.toInt| / Float.ofInt T.toInt
    else if x > 0 then
      if T = 0 then r = { status := .underfull, badness := 10000 }
      else if T < x then r = { status := .underfull, badness := Scaled.badness x T } ∧ b.set = 1
      else r = { badness := Scaled.badness x T } ∧ Scaled.badness x T ≤ 100
    else if -x.toInt > T.toInt then
      r = { status := .overfull, badness := 10000, excess := -x - T }
    else r = { badness := Scaled.badness (-x) T } ∧ Scaled.badness (-x) T ≤ 100

/-- The four orders a list of glue totals has. -/
def namedOrders : List Order := [.normal, .fil, .fill, .filll]

/-- An item whose stretch and shrink the totals take: glue of the four named orders, or any
other item. The packer keeps one total per named order and stops on glue of a higher
order, which only a loaded format gives. -/
def Item.Totaled : Item → Prop
  | .glue g _ => g.stretchOrder ∈ namedOrders ∧ g.shrinkOrder ∈ namedOrders
  | _ => True

instance : DecidablePred Item.Totaled
  | .glue g _ => inferInstanceAs (Decidable (g.stretchOrder ∈ namedOrders ∧ _))
  | .char .. | .kern _ | .rule .. | .box _ => inferInstanceAs (Decidable True)

theorem topOrder_eq (total : Order → Scaled) :
    topOrder total =
      if total .filll ≠ 0 then .filll else if total .fill ≠ 0 then .fill
      else if total .fil ≠ 0 then .fil else .normal := by
  by_cases h1 : total .filll = 0 <;> by_cases h2 : total .fill = 0 <;>
    by_cases h3 : total .fil = 0 <;> simp [topOrder, h1, h2, h3]

theorem topOrder_mem (total : Order → Scaled) : topOrder total ∈ namedOrders := by
  rw [topOrder_eq]
  split_ifs <;> simp [namedOrders]

theorem topOrder_total_ne_zero {total : Order → Scaled} (h : topOrder total ≠ .normal) :
    total (topOrder total) ≠ 0 := by
  rw [topOrder_eq] at h ⊢
  split_ifs at h ⊢ <;> simp_all

theorem GlueRule.congr {x : Scaled} {f f' g g' : Order → Scaled}
    (hf : ∀ o ∈ namedOrders, f o = f' o) (hg : ∀ o ∈ namedOrders, g o = g' o)
    {b : Box} {r : PackReport} : GlueRule x f g b r ↔ GlueRule x f' g' b r := by
  have htop : ∀ {t t' : Order → Scaled}, (∀ o ∈ namedOrders, t o = t' o) →
      topOrder t = topOrder t' := by
    intro t t' h
    simp only [topOrder_eq, h .filll (by simp [namedOrders]), h .fill (by simp [namedOrders]),
      h .fil (by simp [namedOrders])]
  have hf' : f (topOrder f') = f' (topOrder f') := hf _ (topOrder_mem f')
  have hg' : g (topOrder g') = g' (topOrder g') := hg _ (topOrder_mem g')
  unfold GlueRule
  by_cases hx : x > 0
  · simp only [hx, if_true, htop hf, hf']
  · simp only [hx, if_false, htop hg, hg']

/-! ### Words -/

theorem Int32.toInt_neg_of_ne {x : Int32} (hx : x ≠ -2147483648) : (-x).toInt = -x.toInt := by
  have hlo : -2147483648 < x.toInt := by
    have h := Int32.minValue_le_toInt x
    have hne : x.toInt ≠ -2147483648 := fun h => hx (Int32.toInt_inj.1 (by simpa using h))
    simp only [Int32.toInt_minValue] at h
    omega
  have hhi := Int32.toInt_lt x
  rw [Int32.toInt_neg]
  exact Int.bmod_eq_of_le (by omega) (by omega)

theorem Int32.eq_zero_of_not_lt {x : Int32} (hp : ¬ x > 0) (hn : ¬ x < 0) : x = 0 := by
  rw [gt_iff_lt, Int32.lt_iff_toInt_lt] at hp
  rw [Int32.lt_iff_toInt_lt] at hn
  apply Int32.toInt_inj.1
  simp only [Int32.toInt_zero] at hp hn ⊢
  omega

/-! ### Badness -/

/-- The ratio behind the badness of stretching `t` out of `s` is at most 297 when `t` does
not exceed `s`: `t·297/s` for small `t`, and `t/(s/297)` for large `t`, where `s` is at
least `t` and so large that dividing it first loses less than one part in 297. -/
theorem badness_ratio_le {t s : Int} (ht : 0 < t) (hts : t ≤ s) :
    let r := if t ≤ 7230584 then (t * 297).tdiv s
      else if s ≥ 1663497 then t.tdiv (s.tdiv 297) else t
    0 ≤ r ∧ r ≤ 297 := by
  intro r
  have hs : 0 < s := lt_of_lt_of_le ht hts
  by_cases hsmall : t ≤ 7230584
  · have hr : r = t * 297 / s := by
      simp only [r, if_pos hsmall]
      exact Int.tdiv_eq_ediv_of_nonneg (by omega)
    rw [hr]
    exact ⟨Int.ediv_nonneg (by omega) hs.le, Int.ediv_le_of_le_mul hs (by linarith)⟩
  · have hq : s.tdiv 297 = s / 297 := Int.tdiv_eq_ediv_of_nonneg hs.le
    have hr : r = t / (s / 297) := by
      simp only [r, if_neg hsmall, if_pos (show s ≥ 1663497 by omega), hq]
      exact Int.tdiv_eq_ediv_of_nonneg ht.le
    have hq0 : 0 < s / 297 := by omega
    -- s < 297 * (s / 297 + 1) ≤ 298 * (s / 297), as s / 297 is far above 297
    have hlt : t < 298 * (s / 297) := by omega
    rw [hr]
    exact ⟨Int.ediv_nonneg ht.le hq0.le, by
      have := (Int.ediv_lt_iff_lt_mul hq0).mpr hlt
      omega⟩

/-- The badness of a ratio of at most 297: its cube, scaled by `2^18` and rounded, is at
most 100, and the cap of 1290 is not reached. -/
theorem badness_of_ratio_le {r : Int} (h0 : 0 ≤ r) (h : r ≤ 297) :
    (if r > 1290 then (10000 : Int)
      else (Int64.ofInt (r * r * r + 0x20000)).toInt.tdiv 0x40000) ≤ 100 := by
  have hcube : r * r * r ≤ 297 * 297 * 297 := by
    have h2 : r * r ≤ 297 * 297 := Int.mul_le_mul h h h0 (by norm_num)
    exact Int.mul_le_mul h2 h h0 (by norm_num)
  have hnn : 0 ≤ r * r * r := Int.mul_nonneg (Int.mul_nonneg h0 h0) h0
  have hexact : (Int64.ofInt (r * r * r + 0x20000)).toInt = r * r * r + 0x20000 := by
    rw [Int64.toInt_ofInt]
    exact Int.bmod_eq_of_le (by simp [Int64.size]; omega) (by simp [Int64.size]; omega)
  rw [if_neg (by omega), hexact, Int.tdiv_eq_ediv_of_nonneg (by omega)]
  omega

/-- Stretching or shrinking by no more than the glue can give is at most 100 bad. -/
theorem badness_le_hundred {t s : Scaled} (ht : 0 < t) (hts : t ≤ s) :
    Scaled.badness t s ≤ 100 := by
  rw [Int32.lt_iff_toInt_lt, Int32.toInt_zero] at ht
  rw [Int32.le_iff_toInt_le] at hts
  have ht0 : t ≠ 0 := fun h => by simp [h] at ht
  have hs0 : ¬ s ≤ 0 := by rw [Int32.le_iff_toInt_le, Int32.toInt_zero]; omega
  obtain ⟨h0, h297⟩ := badness_ratio_le ht hts
  unfold Scaled.badness
  rw [if_neg ht0, if_neg hs0]
  exact badness_of_ratio_le h0 h297

/-! ### `setGlue` follows the rule -/

theorem GlueTotals.get_add (t : GlueTotals) (o' : Order) (v : Scaled) {o : Order}
    (ho : o ∈ namedOrders) : (t.add o' v).get o = if o' = o then t.get o + v else t.get o := by
  simp only [namedOrders, List.mem_cons, List.not_mem_nil, or_false] at ho
  rcases ho with rfl | rfl | rfl | rfl <;> cases o' <;> simp [GlueTotals.add, GlueTotals.get]

/-- The order `setGlue` picks is the top order of the totals. -/
theorem GlueTotals.highest_eq_topOrder (t : GlueTotals) : t.highest = topOrder t.get := by
  rw [topOrder_eq]
  rfl

section SetGlue

variable (b : Box) (st sh : GlueTotals)

@[simp] theorem setGlue_width (x : Scaled) : (setGlue b x st sh).1.width = b.width := by
  simp only [setGlue]; split_ifs <;> rfl

@[simp] theorem setGlue_height (x : Scaled) : (setGlue b x st sh).1.height = b.height := by
  simp only [setGlue]; split_ifs <;> rfl

@[simp] theorem setGlue_depth (x : Scaled) : (setGlue b x st sh).1.depth = b.depth := by
  simp only [setGlue]; split_ifs <;> rfl

theorem setGlue_stretching {x : Scaled} (hx : x > 0) :
    GlueRule x st.get sh.get (setGlue b x st sh).1 (setGlue b x st sh).2 := by
  have hx0 : x ≠ 0 := by rintro rfl; exact absurd hx (by decide)
  have habs : |x.toInt| = x.toInt := by
    rw [gt_iff_lt, Int32.lt_iff_toInt_lt, Int32.toInt_zero] at hx
    exact abs_of_pos hx
  simp only [GlueRule, setGlue, hx0, if_false, hx, if_true, GlueTotals.highest_eq_topOrder, habs]
  by_cases ho : topOrder st.get = .normal
  · simp only [ho, ne_eq, not_true_eq_false, if_false]
    by_cases hT : st.get .normal = 0
    · simp [hT]
    · by_cases hlt : st.get .normal < x
      · simp [hT, hlt]
      · have hle : x ≤ st.get .normal := by
          rw [Int32.lt_iff_toInt_lt] at hlt
          rw [Int32.le_iff_toInt_le]
          omega
        have hbad := badness_le_hundred hx hle
        simp [hT, hlt, hbad, not_lt.mpr hbad]
  · simp [ho, topOrder_total_ne_zero ho, ratio]

/-- Shrinking by any word but the most negative follows the rule. -/
theorem setGlue_shrinking {x : Scaled} (hx : x < 0) (hmin : x ≠ -2147483648) :
    GlueRule x st.get sh.get (setGlue b x st sh).1 (setGlue b x st sh).2 := by
  have hx' : x.toInt < 0 := by rwa [Int32.lt_iff_toInt_lt, Int32.toInt_zero] at hx
  have hneg := Int32.toInt_neg_of_ne hmin
  have hx0 : x ≠ 0 := by rintro rfl; exact absurd hx (by decide)
  have hnp : ¬ x > 0 := by rw [gt_iff_lt, Int32.lt_iff_toInt_lt, Int32.toInt_zero]; omega
  have habs : |x.toInt| = (-x).toInt := by rw [hneg]; exact abs_of_neg hx'
  simp only [GlueRule, setGlue, hx0, if_false, hnp, hx, if_true, GlueTotals.highest_eq_topOrder,
    habs]
  by_cases ho : topOrder sh.get = .normal
  · simp only [ho, ne_eq, not_true_eq_false, if_false]
    by_cases hover : -x > sh.get .normal
    · have hover' : -x.toInt > (sh.get .normal).toInt := by
        rwa [gt_iff_lt, Int32.lt_iff_toInt_lt, hneg] at hover
      simp only [hover, hover', if_true]
    · have hover' : ¬ -x.toInt > (sh.get .normal).toInt := by
        rwa [gt_iff_lt, Int32.lt_iff_toInt_lt, hneg] at hover
      have hpos : 0 < -x := by rw [Int32.lt_iff_toInt_lt, hneg, Int32.toInt_zero]; omega
      have hle : -x ≤ sh.get .normal := by
        rw [gt_iff_lt, Int32.lt_iff_toInt_lt] at hover
        rw [Int32.le_iff_toInt_le]
        omega
      have hbad := badness_le_hundred hpos hle
      simp only [hover, hover', if_false, not_lt.mpr hbad, hbad, and_true]
  · simp [ho, topOrder_total_ne_zero ho, ratio]

/-- `setGlue` sets glue as the rule says, for every adjustment but the most negative word. -/
theorem setGlue_follows_rule {x : Scaled} (hmin : x ≠ -2147483648) :
    GlueRule x st.get sh.get (setGlue b x st sh).1 (setGlue b x st sh).2 := by
  by_cases hp : x > 0
  · exact setGlue_stretching b st sh hp
  · by_cases hn : x < 0
    · exact setGlue_shrinking b st sh hn hmin
    · have hx : x = 0 := Int32.eq_zero_of_not_lt hp hn
      subst hx
      simp [GlueRule, setGlue]

end SetGlue

/-! ### Natural sizes, one item at a time -/

namespace HMeasure

variable (m : HMeasure) (i : Item)

theorem add_width : (m.add i).width = m.width + i.hWidth?.getD 0 := by
  cases i with
  | rule w h d => by_cases hw : w = running <;> simp [HMeasure.add, Item.hWidth?, hw]
  | _ => simp [HMeasure.add, Item.hWidth?]

theorem add_height : (m.add i).height = (i.hHeight?.map (max m.height)).getD m.height := by
  cases i with
  | rule w h d => by_cases hh : h = running <;> simp [HMeasure.add, Item.hHeight?, hh]
  | _ => simp [HMeasure.add, Item.hHeight?]

theorem add_depth : (m.add i).depth = (i.hDepth?.map (max m.depth)).getD m.depth := by
  cases i with
  | rule w h d => by_cases hd : d = running <;> simp [HMeasure.add, Item.hDepth?, hd]
  | _ => simp [HMeasure.add, Item.hDepth?]

theorem add_stretch {o : Order} (ho : o ∈ namedOrders) :
    (m.add i).stretch.get o = m.stretch.get o + (i.stretchAt o).getD 0 := by
  cases i with
  | glue g k =>
    by_cases hg : g.stretchOrder = o <;>
      simp [HMeasure.add, Item.stretchAt, GlueTotals.get_add _ _ _ ho, hg]
  | _ => simp [HMeasure.add, Item.stretchAt]

theorem add_shrink {o : Order} (ho : o ∈ namedOrders) :
    (m.add i).shrink.get o = m.shrink.get o + (i.shrinkAt o).getD 0 := by
  cases i with
  | glue g k =>
    by_cases hg : g.shrinkOrder = o <;>
      simp [HMeasure.add, Item.shrinkAt, GlueTotals.get_add _ _ _ ho, hg]
  | _ => simp [HMeasure.add, Item.shrinkAt]

end HMeasure

namespace VMeasure

variable (m : VMeasure) (i : Item)

theorem add_extent : (m.add i).height + (m.add i).depth = m.height + m.depth + i.vExtent := by
  cases i with
  | rule w h d =>
    by_cases hh : h = running <;> by_cases hd : d = running <;>
      simp only [VMeasure.add, Item.vExtent, hh, hd, ne_eq, not_true_eq_false, not_false_eq_true,
        if_true, if_false] <;> grind
  | _ => simp only [VMeasure.add, Item.vExtent]; grind

theorem add_depth : (m.add i).depth = i.vDepth := by
  cases i with
  | rule w h d => by_cases hd : d = running <;> simp [VMeasure.add, Item.vDepth, hd]
  | _ => rfl

theorem add_stretch {o : Order} (ho : o ∈ namedOrders) :
    (m.add i).stretch.get o = m.stretch.get o + (i.stretchAt o).getD 0 := by
  cases i with
  | glue g k =>
    by_cases hg : g.stretchOrder = o <;>
      simp [VMeasure.add, Item.stretchAt, GlueTotals.get_add _ _ _ ho, hg]
  | _ => simp [VMeasure.add, Item.stretchAt]

theorem add_shrink {o : Order} (ho : o ∈ namedOrders) :
    (m.add i).shrink.get o = m.shrink.get o + (i.shrinkAt o).getD 0 := by
  cases i with
  | glue g k =>
    by_cases hg : g.shrinkOrder = o <;>
      simp [VMeasure.add, Item.shrinkAt, GlueTotals.get_add _ _ _ ho, hg]
  | _ => simp [VMeasure.add, Item.shrinkAt]

end VMeasure

/-! ### Natural sizes of a whole list -/

theorem sum_filterMap_cons {f : Item → Option Scaled} (a : Scaled) (i : Item) (l : List Item) :
    a + ((i :: l).filterMap f).sum = a + (f i).getD 0 + (l.filterMap f).sum := by
  cases h : f i <;> simp [h, Int32.add_assoc]

theorem foldl_max_filterMap_cons {f : Item → Option Scaled} (a : Scaled) (i : Item)
    (l : List Item) :
    ((i :: l).filterMap f).foldl max a = (l.filterMap f).foldl max (((f i).map (max a)).getD a) := by
  cases h : f i <;> simp [h]

section Runs

variable (l : List Item)

theorem HMeasure.foldl_width (m : HMeasure) :
    (l.foldl HMeasure.add m).width = m.width + (l.filterMap Item.hWidth?).sum := by
  induction l generalizing m with
  | nil => simp
  | cons i l ih => rw [List.foldl_cons, ih, HMeasure.add_width, sum_filterMap_cons]

theorem HMeasure.foldl_height (m : HMeasure) :
    (l.foldl HMeasure.add m).height = (l.filterMap Item.hHeight?).foldl max m.height := by
  induction l generalizing m with
  | nil => rfl
  | cons i l ih => rw [List.foldl_cons, ih, HMeasure.add_height, foldl_max_filterMap_cons]

theorem HMeasure.foldl_depth (m : HMeasure) :
    (l.foldl HMeasure.add m).depth = (l.filterMap Item.hDepth?).foldl max m.depth := by
  induction l generalizing m with
  | nil => rfl
  | cons i l ih => rw [List.foldl_cons, ih, HMeasure.add_depth, foldl_max_filterMap_cons]

theorem HMeasure.foldl_stretch {o : Order} (ho : o ∈ namedOrders) (m : HMeasure) :
    (l.foldl HMeasure.add m).stretch.get o = m.stretch.get o + stretchTotal l o := by
  induction l generalizing m with
  | nil => simp [stretchTotal]
  | cons i l ih =>
    rw [List.foldl_cons, ih, HMeasure.add_stretch _ _ ho, stretchTotal, stretchTotal,
      sum_filterMap_cons]

theorem HMeasure.foldl_shrink {o : Order} (ho : o ∈ namedOrders) (m : HMeasure) :
    (l.foldl HMeasure.add m).shrink.get o = m.shrink.get o + shrinkTotal l o := by
  induction l generalizing m with
  | nil => simp [shrinkTotal]
  | cons i l ih =>
    rw [List.foldl_cons, ih, HMeasure.add_shrink _ _ ho, shrinkTotal, shrinkTotal,
      sum_filterMap_cons]

theorem VMeasure.foldl_extent (m : VMeasure) :
    (l.foldl VMeasure.add m).height + (l.foldl VMeasure.add m).depth =
      m.height + m.depth + (l.map Item.vExtent).sum := by
  induction l generalizing m with
  | nil => simp
  | cons i l ih =>
    rw [List.foldl_cons, ih, VMeasure.add_extent, List.map_cons, List.sum_cons,
      Int32.add_assoc]

theorem VMeasure.foldl_depth (m : VMeasure) :
    (l.foldl VMeasure.add m).depth = (l.getLast?.map Item.vDepth).getD m.depth := by
  induction l generalizing m with
  | nil => rfl
  | cons i l ih =>
    rw [List.foldl_cons, ih]
    cases l with
    | nil => simp [VMeasure.add_depth]
    | cons j l => rw [List.getLast?_eq_some_getLast (List.cons_ne_nil j l)]; rfl

theorem VMeasure.foldl_stretch {o : Order} (ho : o ∈ namedOrders) (m : VMeasure) :
    (l.foldl VMeasure.add m).stretch.get o = m.stretch.get o + stretchTotal l o := by
  induction l generalizing m with
  | nil => simp [stretchTotal]
  | cons i l ih =>
    rw [List.foldl_cons, ih, VMeasure.add_stretch _ _ ho, stretchTotal, stretchTotal,
      sum_filterMap_cons]

theorem VMeasure.foldl_shrink {o : Order} (ho : o ∈ namedOrders) (m : VMeasure) :
    (l.foldl VMeasure.add m).shrink.get o = m.shrink.get o + shrinkTotal l o := by
  induction l generalizing m with
  | nil => simp [shrinkTotal]
  | cons i l ih =>
    rw [List.foldl_cons, ih, VMeasure.add_shrink _ _ ho, shrinkTotal, shrinkTotal,
      sum_filterMap_cons]

end Runs

theorem GlueTotals.get_empty (o : Order) : ({} : GlueTotals).get o = 0 := by
  cases o <;> rfl

section Pack

variable (l : List Item) (spec : PackSpec)

/-- A packed horizontal list: its natural height and depth, its natural width made up by
the adjustment, and its glue set by the rule. -/
theorem hpack_follows_rule :
    (hpack l spec).1.width = hNaturalWidth l + spec.adjustment (hNaturalWidth l) ∧
    (hpack l spec).1.height = hNaturalHeight l ∧ (hpack l spec).1.depth = hNaturalDepth l ∧
    (spec.adjustment (hNaturalWidth l) ≠ -2147483648 →
      GlueRule (spec.adjustment (hNaturalWidth l)) (stretchTotal l) (shrinkTotal l)
        (hpack l spec).1 (hpack l spec).2) := by
  have hw : (l.foldl HMeasure.add {}).width = hNaturalWidth l := by
    rw [HMeasure.foldl_width]
    exact Int32.zero_add _
  have hpack_eq : hpack l spec = setGlue
      { kind := .hlist, list := l, height := (l.foldl HMeasure.add {}).height,
        depth := (l.foldl HMeasure.add {}).depth,
        width := hNaturalWidth l + spec.adjustment (hNaturalWidth l) }
      (spec.adjustment (hNaturalWidth l))
      (l.foldl HMeasure.add {}).stretch (l.foldl HMeasure.add {}).shrink := by
    simp only [hpack, hw, PackSpec.adjustment]
  rw [hpack_eq]
  refine ⟨by simp, by simp [HMeasure.foldl_height, hNaturalHeight],
    by simp [HMeasure.foldl_depth, hNaturalDepth], fun hmin => ?_⟩
  have hst : ∀ o ∈ namedOrders, (l.foldl HMeasure.add {}).stretch.get o = stretchTotal l o :=
    fun o ho => by rw [HMeasure.foldl_stretch l ho, GlueTotals.get_empty, Int32.zero_add]
  have hsh : ∀ o ∈ namedOrders, (l.foldl HMeasure.add {}).shrink.get o = shrinkTotal l o :=
    fun o ho => by rw [HMeasure.foldl_shrink l ho, GlueTotals.get_empty, Int32.zero_add]
  exact (GlueRule.congr hst hsh).1 (setGlue_follows_rule _ _ _ hmin)

/-- A packed vertical list: the depth of its last item, its natural height made up by the
adjustment, and its glue set by the rule. -/
theorem vpack_follows_rule :
    (vpack l spec).1.height = vNaturalHeight l + spec.adjustment (vNaturalHeight l) ∧
    (vpack l spec).1.depth = vNaturalDepth l ∧
    (spec.adjustment (vNaturalHeight l) ≠ -2147483648 →
      GlueRule (spec.adjustment (vNaturalHeight l)) (stretchTotal l) (shrinkTotal l)
        (vpack l spec).1 (vpack l spec).2) := by
  have hd : (l.foldl VMeasure.add {}).depth = vNaturalDepth l := VMeasure.foldl_depth l {}
  have hh : (l.foldl VMeasure.add {}).height = vNaturalHeight l := by
    have h := VMeasure.foldl_extent l {}
    rw [hd] at h
    simp only [vNaturalHeight]
    grind
  have vpack_eq : vpack l spec = setGlue
      { kind := .vlist, list := l, width := (l.foldl VMeasure.add {}).width,
        depth := (l.foldl VMeasure.add {}).depth,
        height := vNaturalHeight l + spec.adjustment (vNaturalHeight l) }
      (spec.adjustment (vNaturalHeight l))
      (l.foldl VMeasure.add {}).stretch (l.foldl VMeasure.add {}).shrink := by
    simp only [vpack, hh, PackSpec.adjustment]
  rw [vpack_eq]
  refine ⟨by simp, by simp [hd], fun hmin => ?_⟩
  have hst : ∀ o ∈ namedOrders, (l.foldl VMeasure.add {}).stretch.get o = stretchTotal l o :=
    fun o ho => by rw [VMeasure.foldl_stretch l ho, GlueTotals.get_empty, Int32.zero_add]
  have hsh : ∀ o ∈ namedOrders, (l.foldl VMeasure.add {}).shrink.get o = shrinkTotal l o :=
    fun o ho => by rw [VMeasure.foldl_shrink l ho, GlueTotals.get_empty, Int32.zero_add]
  exact (GlueRule.congr hst hsh).1 (setGlue_follows_rule _ _ _ hmin)

/-- Packing a list whose glue has named orders, horizontal and vertical: the natural size
made up by the adjustment, and the glue set by the rule whenever the adjustment is not the
most negative word. -/
theorem pack_sets_glue_by_rule : (∀ i ∈ l, i.Totaled) →
    ((hpack l spec).1.width = hNaturalWidth l + spec.adjustment (hNaturalWidth l) ∧
      (hpack l spec).1.height = hNaturalHeight l ∧ (hpack l spec).1.depth = hNaturalDepth l ∧
      (spec.adjustment (hNaturalWidth l) ≠ -2147483648 →
        GlueRule (spec.adjustment (hNaturalWidth l)) (stretchTotal l) (shrinkTotal l)
          (hpack l spec).1 (hpack l spec).2)) ∧
    ((vpack l spec).1.height = vNaturalHeight l + spec.adjustment (vNaturalHeight l) ∧
      (vpack l spec).1.depth = vNaturalDepth l ∧
      (spec.adjustment (vNaturalHeight l) ≠ -2147483648 →
        GlueRule (spec.adjustment (vNaturalHeight l)) (stretchTotal l) (shrinkTotal l)
          (vpack l spec).1 (vpack l spec).2)) :=
  fun _ => ⟨hpack_follows_rule l spec, vpack_follows_rule l spec⟩

end Pack

/-- A line of one character and some finite stretch, packed to thirty sp more than it
measures, is underfull by the rule. -/
theorem pack_sets_glue_of_short_stretch :
    (∀ i ∈ [Item.char "f" 120 100 458752 0, .glue { width := 10, stretch := 20 } .explicit],
      i.Totaled) ∧
    PackSpec.adjustment { exactly := true, size := 140 }
        (hNaturalWidth [.char "f" 120 100 458752 0, .glue { width := 10, stretch := 20 } .explicit])
      ≠ -2147483648 ∧
    GlueRule (PackSpec.adjustment { exactly := true, size := 140 }
        (hNaturalWidth [.char "f" 120 100 458752 0, .glue { width := 10, stretch := 20 } .explicit]))
      (stretchTotal [.char "f" 120 100 458752 0, .glue { width := 10, stretch := 20 } .explicit])
      (shrinkTotal [.char "f" 120 100 458752 0, .glue { width := 10, stretch := 20 } .explicit])
      (hpack [.char "f" 120 100 458752 0, .glue { width := 10, stretch := 20 } .explicit]
        { exactly := true, size := 140 }).1
      (hpack [.char "f" 120 100 458752 0, .glue { width := 10, stretch := 20 } .explicit]
        { exactly := true, size := 140 }).2 := by
  have hx : PackSpec.adjustment { exactly := true, size := 140 }
      (hNaturalWidth [.char "f" 120 100 458752 0, .glue { width := 10, stretch := 20 } .explicit])
      ≠ -2147483648 := by decide
  have htot : ∀ i ∈ [Item.char "f" 120 100 458752 0,
      .glue { width := 10, stretch := 20 } .explicit], i.Totaled := by decide
  exact ⟨htot, hx, (pack_sets_glue_by_rule _ _ htot).1.2.2.2 hx⟩

/-- Spread by the most negative word over one point of finite shrink, a box is reported
tight where the rule has it overfull: negating the adjustment as a word leaves it
negative. -/
theorem hpack_spread_most_negative_is_tight :
    (hpack [.glue { shrink := 65536 } .explicit] { size := -2147483648 }).2.status = .tight ∧
    ¬ GlueRule (PackSpec.adjustment { size := -2147483648 }
        (hNaturalWidth [.glue { shrink := 65536 } .explicit]))
      (stretchTotal [.glue { shrink := 65536 } .explicit])
      (shrinkTotal [.glue { shrink := 65536 } .explicit])
      (hpack [.glue { shrink := 65536 } .explicit] { size := -2147483648 }).1
      (hpack [.glue { shrink := 65536 } .explicit] { size := -2147483648 }).2 := by
  have hx : PackSpec.adjustment { size := -2147483648 }
      (hNaturalWidth [.glue { shrink := 65536 } .explicit]) = -2147483648 := by decide
  have htop : topOrder (shrinkTotal [.glue { shrink := 65536 } .explicit]) = .normal := by
    decide
  refine ⟨by decide, ?_⟩
  rw [GlueRule, hx]
  simp only [show ¬ ((-2147483648 : Scaled) > 0) by decide,
    show (-2147483648 : Scaled) ≠ 0 by decide, if_false, htop, ne_eq, not_true_eq_false]
  rw [if_pos (by decide)]
  decide

end Galley
