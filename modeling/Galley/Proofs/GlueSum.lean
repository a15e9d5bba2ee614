import Mathlib
import Galley.Proofs.DumpLoad

/-!
# The sum of two glues

`\advance` on a glue register adds the operand to the register's value with `Glue.add`.
TeX's rule for the sum of stretch components (and likewise of shrink components) is the
rule of the highest order: of the components that are not zero, those of the highest order
add up and keep that order, and a zero result, or no component at all, is zero of order
`normal`. `topSum` states that rule for any list of components, independently of how
`Glue.add` is written.

`Glue.add` follows the rule in every case but one: when the register's component is zero
and of a higher order than the operand's, the zero is kept, and normalising it makes the
result zero of order `normal`, so the operand's component is lost (`addComponent_eq`). The
operand's zero never wins that way, hence the sum is not symmetric: `0pt plus 0fil`
advanced by `0pt plus 5pt` is `0pt`, while `0pt plus 5pt` advanced by `0pt plus 0fil` is
`0pt plus 5pt` (`add_zero_fil_absorbs`). `add_sums_by_highest_order` puts both components
and the width together.

Orders are compared by rank, and the rule names the order of a rank with `Order.ofRank`, so
the statements are about orders that their rank names back (`Order.Written`), which are the
only ones a scanner or a snapshot produces.
-/

namespace Galley

namespace Order

theorem lt_iff_rank_lt {a b : Order} : a < b ↔ a.rank < b.rank := Iff.rfl

theorem Written.eq_of_rank_eq {a b : Order} (ha : a.Written) (hb : b.Written)
    (h : a.rank = b.rank) : a = b := by
  rw [← ha.2, ← hb.2, h]

end Order

namespace Glue

/-- The rule of the highest order for a list of stretch (or shrink) components: of the
components that are not zero, those whose order has the highest rank add up and take that
order; a zero sum, or no such component, is zero of order `normal`. -/
def topSum (cs : List (Scaled × Order)) : Scaled × Order :=
  let live := cs.filter (·.1 ≠ 0)
  let top := (live.map (·.2.rank)).foldr max 0
  let s := ((live.filter (·.2.rank = top)).map (·.1)).sum
  if s = 0 then (0, .normal) else (s, .ofRank top)

section Pair

variable {a b : Scaled × Order}

theorem topSum_zero_left (ha : a.1 = 0) (hb : b.2.Written) :
    topSum [a, b] = if b.1 = 0 then (0, .normal) else b := by
  by_cases hb0 : b.1 = 0
  · simp [topSum, ha, hb0]
  · simp [topSum, ha, hb0, hb.2]

theorem topSum_zero_right (hb : b.1 = 0) (ha : a.2.Written) :
    topSum [a, b] = if a.1 = 0 then (0, .normal) else a := by
  by_cases ha0 : a.1 = 0
  · simp [topSum, ha0, hb]
  · simp [topSum, ha0, hb, ha.2]

theorem topSum_same_rank (ha : a.1 ≠ 0) (hb : b.1 ≠ 0) (h : a.2.rank = b.2.rank)
    (hw : a.2.Written) :
    topSum [a, b] = if a.1 + b.1 = 0 then (0, .normal) else (a.1 + b.1, a.2) := by
  simp [topSum, ha, hb, ← h, hw.2]

/-- Of two non-zero components of different ranks, the one of higher rank is kept. -/
theorem topSum_lt_rank (ha : a.1 ≠ 0) (hb : b.1 ≠ 0) (h : a.2.rank < b.2.rank)
    (hw : b.2.Written) : topSum [a, b] = b := by
  have hne : a.2.rank ≠ b.2.rank := Nat.ne_of_lt h
  simp [topSum, ha, hb, Nat.max_eq_right h.le, hne, hw.2]

theorem topSum_gt_rank (ha : a.1 ≠ 0) (hb : b.1 ≠ 0) (h : b.2.rank < a.2.rank)
    (hw : a.2.Written) : topSum [a, b] = a := by
  have hne : b.2.rank ≠ a.2.rank := Nat.ne_of_lt h
  simp [topSum, ha, hb, Nat.max_eq_left h.le, hne, hw.2]

/-- The rule of the highest order for two components, case by case. -/
theorem topSum_pair (ha : a.2.Written) (hb : b.2.Written) :
    topSum [a, b] =
      if a.1 = 0 then (if b.1 = 0 then (0, .normal) else b)
      else if b.1 = 0 then a
      else if a.2.rank < b.2.rank then b
      else if b.2.rank < a.2.rank then a
      else if a.1 + b.1 = 0 then (0, .normal) else (a.1 + b.1, a.2) := by
  by_cases ha0 : a.1 = 0
  · simp [topSum_zero_left ha0 hb, ha0]
  · by_cases hb0 : b.1 = 0
    · simp [topSum_zero_right hb0 ha, ha0, hb0]
    · rcases lt_trichotomy a.2.rank b.2.rank with hlt | heq | hgt
      · simp [topSum_lt_rank ha0 hb0 hlt hb, ha0, hb0, hlt]
      · simp [topSum_same_rank ha0 hb0 heq ha, ha0, hb0, heq]
      · simp [topSum_gt_rank ha0 hb0 hgt ha, ha0, hb0, hgt, Nat.not_lt_of_gt hgt]

/-- One component of a glue sum: the rule of the highest order, except that a zero
component of the register of higher order than the operand's absorbs the operand's. -/
theorem addComponent_eq (ha : a.2.Written) (hb : b.2.Written) :
    addComponent a b = if a.1 = 0 ∧ b.2 < a.2 then (0, .normal) else topSum [a, b] := by
  rw [topSum_pair ha hb]
  simp only [addComponent, Order.lt_iff_rank_lt]
  -- the code compares orders for equality and by rank, the rule only by rank
  rcases lt_trichotomy a.2.rank b.2.rank with hlt | heq | hgt
  · have hne : a.2 ≠ b.2 := fun h => absurd (congrArg Order.rank h) (Nat.ne_of_lt hlt)
    by_cases ha0 : a.1 = 0 <;> by_cases hb0 : b.1 = 0 <;>
      simp [hne, hlt, Nat.not_lt_of_gt hlt, ha0, hb0]
  · have hab : a.2 = b.2 := ha.eq_of_rank_eq hb heq
    by_cases ha0 : a.1 = 0 <;> by_cases hb0 : b.1 = 0 <;>
      simp [hab, ha0, hb0, Prod.ext_iff]
  · have hne : a.2 ≠ b.2 := fun h => absurd (congrArg Order.rank h) (Nat.ne_of_gt hgt)
    by_cases ha0 : a.1 = 0 <;> by_cases hb0 : b.1 = 0 <;>
      simp [hne, hgt, Nat.not_lt_of_gt hgt, ha0, hb0]

end Pair

/-- The glue `\advance` forms: the widths add as words, and each of stretch and shrink
follows the rule of the highest order unless the register's component is zero and of a
higher order than the operand's, which leaves zero of order `normal`. -/
theorem add_sums_by_highest_order {a b : Glue}
    (has : a.stretchOrder.Written) (hah : a.shrinkOrder.Written)
    (hbs : b.stretchOrder.Written) (hbh : b.shrinkOrder.Written) :
    (a.add b).width = a.width + b.width ∧
    ((a.add b).stretch, (a.add b).stretchOrder) =
      (if a.stretch = 0 ∧ b.stretchOrder < a.stretchOrder then (0, .normal)
        else topSum [(a.stretch, a.stretchOrder), (b.stretch, b.stretchOrder)]) ∧
    ((a.add b).shrink, (a.add b).shrinkOrder) =
      (if a.shrink = 0 ∧ b.shrinkOrder < a.shrinkOrder then (0, .normal)
        else topSum [(a.shrink, a.shrinkOrder), (b.shrink, b.shrinkOrder)]) := by
  exact ⟨rfl, addComponent_eq has hbs, addComponent_eq hah hbh⟩

/-- Finite stretch added to infinite stretch keeps the infinite one, and shrink of one
order adds up. -/
theorem add_sums_fil_over_points :
    Order.fil.Written ∧ Order.normal.Written ∧
    ((fil.add { stretch := 327680, shrink := 65536 }).width = 0 ∧
    ((fil.add { stretch := 327680, shrink := 65536 }).stretch,
      (fil.add { stretch := 327680, shrink := 65536 }).stretchOrder) =
      (if fil.stretch = 0 ∧ Order.normal < fil.stretchOrder then (0, .normal)
        else topSum [(fil.stretch, fil.stretchOrder), (327680, .normal)]) ∧
    ((fil.add { stretch := 327680, shrink := 65536 }).shrink,
      (fil.add { stretch := 327680, shrink := 65536 }).shrinkOrder) =
      (if fil.shrink = 0 ∧ Order.normal < fil.shrinkOrder then (0, .normal)
        else topSum [(fil.shrink, fil.shrinkOrder), (65536, .normal)])) := by
  have hfil : Order.fil.Written := ⟨by decide, rfl⟩
  have hnormal : Order.normal.Written := ⟨by decide, rfl⟩
  exact ⟨hfil, hnormal, add_sums_by_highest_order hfil hnormal hnormal hnormal⟩

/-- A zero stretch of order `fil` in the register absorbs five points of finite stretch,
where the rule of the highest order keeps them, and the same two glues added the other
way round keep them. -/
theorem add_zero_fil_absorbs :
    ((({ stretchOrder := .fil } : Glue).add { stretch := 327680 }).stretch = 0) ∧
    topSum [(0, .fil), (327680, .normal)] = (327680, .normal) ∧
    (({ stretchOrder := .fil } : Glue).add { stretch := 327680 }) ≠
      (({ stretch := 327680 } : Glue).add { stretchOrder := .fil }) := by
  decide

end Glue

end Galley
