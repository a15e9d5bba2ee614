import Mathlib
import Galley.Engine.Assign

/-!
# Register arithmetic

`\advance`, `\multiply` and `\divide` read a register, an optional `by` and an operand, and
then store the result or refuse with "arithmetic overflow". `arithmetic_eq` separates the
reading from the arithmetic: the command is `arithmeticTarget`, then `arithmeticOperand`,
then `Equivalent.combine`, a pure function of the register's value and the operand whose
`none` is the refusal.

On a register whose value is in range, `combine` is the exact arithmetic `exactly`: every
word of the value is replaced by the sum, the product or the truncated quotient computed on
integers, and the command refuses exactly when one of these leaves the range of the
register's kind, or when it divides by zero. Glue advanced by glue is the exception: its sum
is `Glue.add` on 32-bit words with no range check, so a sum past `maxDimen` is stored.
-/

namespace Galley

/-- The exact result of an arithmetic command on integers: the sum for `\advance`, the
quotient truncated toward zero for `\divide`, and the product otherwise. -/
def Prim.exact (op : Prim) (x v : Int) : Int :=
  if op = .advance then x + v else if op = .divide then x.tdiv v else x * v

/-- The operand an arithmetic command reads: one word (an integer, or a dimension to advance
a dimension by), glue to advance glue by, or nothing when the register holds no number. -/
inductive Operand where
  | word (v : Int32)
  | glue (g : Glue)
  | none

namespace Equivalent

/-- The words arithmetic acts on: the integer, the dimension, or the width, stretch and shrink
of glue; none for what is no number. -/
def words : Equivalent → List Int32
  | .int x => [x]
  | .dimen d => [d]
  | .glue g => [g.width, g.stretch, g.shrink]
  | _ => []

/-- The largest magnitude of a word of this kind: `2^31 - 1` for an integer, `maxDimen` for a
dimension and for each word of glue. -/
def limit : Equivalent → Nat
  | .int _ => 2147483647
  | _ => 1073741823

/-- A number each of whose words is within the limit of its kind. -/
def InRange (x : Equivalent) : Prop :=
  x.words ≠ [] ∧ ∀ w ∈ x.words, w.toInt.natAbs ≤ x.limit

instance : DecidablePred InRange := fun _ => inferInstanceAs (Decidable (_ ∧ _))

/-- `x` with each word `w` replaced by `f w` cut to 32 bits; what is no number becomes
`absent`. -/
def mapWords (f : Int → Int) : Equivalent → Equivalent
  | .int x => .int (Int32.ofInt (f x.toInt))
  | .dimen d => .dimen (Int32.ofInt (f d.toInt))
  | .glue g => .glue
      { g with
        width := Int32.ofInt (f g.width.toInt)
        stretch := Int32.ofInt (f g.stretch.toInt)
        shrink := Int32.ofInt (f g.shrink.toInt) }
  | _ => .absent

/-- What arithmetic by `op` with the value `v` should leave in a register holding `x`: every
word replaced by the exact result of `op` on it and `v`; none when one of these results leaves
the range of `x`'s kind, or when dividing by zero. -/
def exactly (op : Prim) (x : Equivalent) (v : Int) : Option Equivalent :=
  if op = .divide ∧ v = 0 then none
  else if x.words.all fun w => (op.exact w.toInt v).natAbs ≤ x.limit then
    some (x.mapWords (op.exact · v))
  else none

theorem toInt_ofInt_of_natAbs_le {r : Int} {limit : Nat} (h : r.natAbs ≤ limit)
    (hlimit : limit ≤ 2147483647) : (Int32.ofInt r).toInt = r :=
  Int32.toInt_ofInt_of_le (by omega) (by omega)

theorem limit_le (x : Equivalent) : x.limit ≤ 2147483647 := by
  cases x <;> simp [limit]

/-- `exactly` keeps the exact results: they lie within the limit, where cutting them to 32 bits
changes nothing. -/
theorem words_of_exactly {op : Prim} {x w : Equivalent} {v : Int} (h : x.exactly op v = some w) :
    w.words.map Int32.toInt = x.words.map (fun a => op.exact a.toInt v) ∧
      ∀ a ∈ w.words, a.toInt.natAbs ≤ x.limit := by
  unfold exactly at h
  split_ifs at h with hzero hfit
  obtain rfl := Option.some.inj h.symm
  simp only [List.all_eq_true, decide_eq_true_eq] at hfit
  have hkept : ∀ a ∈ x.words, (Int32.ofInt (op.exact a.toInt v)).toInt = op.exact a.toInt v :=
    fun a ha => toInt_ofInt_of_natAbs_le (hfit a ha) x.limit_le
  cases x <;> simp_all [words, mapWords, limit]

/-- What an arithmetic command by `op` stores in a register holding `cur`, as the command
computes it: sums checked against the limit of the kind, products checked word by word,
quotients unchecked, glue added to glue by `Glue.add`; `none` when it refuses. -/
def combine (op : Prim) (cur : Equivalent) : Operand → Option Equivalent
  | .word v =>
    if op = .advance then
      match cur with
      | .int x =>
        let s := x.toInt + v.toInt
        if s > 2147483647 ∨ s < -2147483647 then none else some (.int (Int32.ofInt s))
      | .dimen x =>
        let s := x.toInt + v.toInt
        if s > 1073741823 ∨ s < -1073741823 then none else some (.dimen (Int32.ofInt s))
      | _ => some .absent
    else
      let divide := op = .divide
      if divide ∧ v = 0 then none
      else
        match cur with
        | .int x =>
          let (p, ok) := EngineM.scaleWord divide x.toInt v.toInt 2147483647
          if !ok then none else some (.int (Int32.ofInt p))
        | .dimen x =>
          let (p, ok) := EngineM.scaleWord divide x.toInt v.toInt 1073741823
          if !ok then none else some (.dimen (Int32.ofInt p))
        | .glue x =>
          let (w, ok1) := EngineM.scaleWord divide x.width.toInt v.toInt 1073741823
          if !ok1 then none
          else
            let (s, ok2) := EngineM.scaleWord divide x.stretch.toInt v.toInt 1073741823
            if !ok2 then none
            else
              let (h, ok3) := EngineM.scaleWord divide x.shrink.toInt v.toInt 1073741823
              if !ok3 then none
              else
                some (.glue { x with width := Int32.ofInt w, stretch := Int32.ofInt s,
                                     shrink := Int32.ofInt h })
        | _ => some .absent
  | .glue g =>
    match cur with
    | .glue x => some (.glue (x.add g))
    | _ => some .absent
  | .none => some .absent

/-- On a word within its limit the command's product or quotient is the exact one, and its
check passes exactly when the exact result is within the limit: a quotient is never larger
than the word it divides. -/
theorem scaleWord_eq_exact {op : Prim} (hop : op ≠ .advance) {x : Int} (v : Int) {limit : Nat}
    (hx : x.natAbs ≤ limit) :
    EngineM.scaleWord (decide (op = .divide)) x v limit =
      (op.exact x v, decide ((op.exact x v).natAbs ≤ limit)) := by
  by_cases hdiv : op = .divide
  · simp [EngineM.scaleWord, Prim.exact, hdiv]
    exact (Nat.div_le_self _ _).trans hx
  · simp only [EngineM.scaleWord, Prim.exact, hop, hdiv, decide_false, if_false,
      Bool.false_eq_true, Prod.mk.injEq, true_and]
    apply decide_eq_decide.mpr
    omega

theorem ite_sum_check {α : Type} (s : Int) (limit : Nat) (a : α) :
    (if (limit : Int) < s ∨ s < -limit then none else some a) =
      if s.natAbs ≤ limit then some a else none := by
  by_cases hfit : s.natAbs ≤ limit
  · rw [if_neg (by omega), if_pos hfit]
  · rw [if_pos (by omega), if_neg hfit]

theorem combine_eq_exactly {op : Prim} {cur : Equivalent} (v : Int32) (hcur : cur.InRange)
    (hglue : op = .advance → ∀ g, cur ≠ .glue g) :
    cur.combine op (.word v) = cur.exactly op v.toInt := by
  obtain ⟨hnum, hwords⟩ := hcur
  by_cases hop : op = .advance
  · subst hop
    cases cur with
    | int x =>
      simp [combine, exactly, Prim.exact, words, limit, mapWords]
      exact ite_sum_check _ 2147483647 _
    | dimen x =>
      simp [combine, exactly, Prim.exact, words, limit, mapWords]
      exact ite_sum_check _ 1073741823 _
    | glue g => exact absurd rfl (hglue rfl g)
    | _ => simp [words] at hnum
  · have hzero : v.toInt = 0 ↔ v = 0 := Int32.toInt_inj (y := 0)
    have hword : ∀ w ∈ cur.words,
        EngineM.scaleWord (decide (op = .divide)) w.toInt v.toInt cur.limit =
          (op.exact w.toInt v.toInt, decide ((op.exact w.toInt v.toInt).natAbs ≤ cur.limit)) :=
      fun w hw => scaleWord_eq_exact hop v.toInt (hwords w hw)
    cases cur with
    | int x =>
      have hs := hword x (by simp [words])
      simp only [limit, Nat.cast_ofNat] at hs
      simp only [combine, exactly, hop, if_false, hzero, hs, words, limit, mapWords, List.all_cons,
        List.all_nil, Bool.and_true]
      by_cases hfit : (op.exact x.toInt v.toInt).natAbs ≤ 2147483647 <;> simp [hfit]
    | dimen x =>
      have hs := hword x (by simp [words])
      simp only [limit, Nat.cast_ofNat] at hs
      simp only [combine, exactly, hop, if_false, hzero, hs, words, limit, mapWords, List.all_cons,
        List.all_nil, Bool.and_true]
      by_cases hfit : (op.exact x.toInt v.toInt).natAbs ≤ 1073741823 <;> simp [hfit]
    | glue g =>
      have hw := hword g.width (by simp [words])
      have hst := hword g.stretch (by simp [words])
      have hsh := hword g.shrink (by simp [words])
      simp only [limit, Nat.cast_ofNat] at hw hst hsh
      simp only [combine, exactly, hop, if_false, hzero, hw, hst, hsh, words, limit, mapWords,
        List.all_cons, List.all_nil, Bool.and_true]
      congr 1
      split_ifs <;> simp_all
    | _ => simp [words] at hnum

end Equivalent

namespace EngineM

/-- The register an arithmetic command `c` acts on, with the optional `by` after it read. -/
def arithmeticTarget (n : Nat) (c : Cmd) : EngineM Key := do
  let some r ← getXNonBlankNonRelax n | runaway c.tok
  let k ← registerOf n r
  let _ ← scanKeyword n "by"
  return k

/-- Reads the operand of `op` on a register holding `cur`: for `\advance` a value of
`cur`'s kind, nothing when `cur` is no number; an integer otherwise. -/
def arithmeticOperand (n : Nat) (op : Prim) (cur : Equivalent) : EngineM Operand :=
  if op = .advance then
    match cur with
    | .int _ => Operand.word <$> scanInt n
    | .dimen _ => Operand.word <$> scanDimen n
    | .glue _ => Operand.glue <$> scanGlue n
    | _ => pure .none
  else Operand.word <$> scanInt n

theorem fail_bind {α β : Type} (k : ErrorKind) (t : Option Token) (m : String)
    (f : α → EngineM β) : (fail k t m >>= f) = fail k t m := by
  simp only [fail, bind_assoc]
  refine congrArg (get >>= ·) (funext fun e => ?_)
  rfl

theorem arithmetic_eq (n : Nat) (c : Cmd) (op : Prim) (global : Bool) :
    arithmetic n c op global = (do
      let k ← arithmeticTarget n c
      let cur := (← get).get k
      let v ← arithmeticOperand n op cur
      (cur.combine op v).elim (overflowAt c.tok) fun w => assign k w global) := by
  simp only [arithmetic, arithmeticTarget, bind_assoc]
  refine congrArg (getXNonBlankNonRelax n >>= ·) (funext fun r => ?_)
  cases r with
  | none => exact (fail_bind _ _ _ _).symm
  | some r =>
    simp only [bind_assoc, pure_bind]
    refine congrArg (registerOf n r >>= ·) (funext fun k => ?_)
    refine congrArg (scanKeyword n "by" >>= ·) (funext fun _ => ?_)
    refine congrArg (get >>= ·) (funext fun e => ?_)
    generalize e.get k = cur
    by_cases hop : op = .advance
    · subst hop
      cases cur <;> simp only [if_true, arithmeticOperand, bind_map_left, pure_bind,
        Equivalent.combine, Option.elim_some, overflowAt, fail_bind]
      all_goals refine congrArg (_ >>= ·) (funext fun v => ?_)
      all_goals split_ifs <;> rfl
    · simp only [hop, if_false, arithmeticOperand, bind_map_left]
      refine congrArg (scanInt n >>= ·) (funext fun v => ?_)
      cases cur <;> simp only [Equivalent.combine, hop, if_false, overflowAt, fail_bind] <;>
        split_ifs <;> rfl

/-- A refusal changes nothing: it answers a syntax error at the command, "arithmetic
overflow", and leaves the engine as it was. -/
theorem overflowAt_run {α : Type} (t : Token) (e : Engine) :
    (overflowAt t : EngineM α).run.run e =
      (.error ⟨.syntaxError, some t, e.mode, e.table.depth, e.line, "arithmetic overflow"⟩, e) :=
  rfl

/-- An arithmetic command reads its register and its operand, then stores what `combine`
gives or refuses. On a register holding a number in range, other than glue advanced by glue,
that is the exact arithmetic of `exactly`: the exact result is stored when all its words are in
range, and the command refuses otherwise; dividing by zero is refused whatever the register
holds. A refusal leaves the engine as the operand left it. -/
theorem arithmetic_exact_or_refused (n : Nat) (c : Cmd) (op : Prim) (global : Bool) :
    arithmetic n c op global = (do
        let k ← arithmeticTarget n c
        let cur := (← get).get k
        let v ← arithmeticOperand n op cur
        (cur.combine op v).elim (overflowAt c.tok) fun w => assign k w global) ∧
      (∀ (cur : Equivalent) (v : Int32), cur.InRange → (op = .advance → ∀ g, cur ≠ .glue g) →
        cur.combine op (.word v) = cur.exactly op v.toInt) ∧
      (∀ cur : Equivalent, cur.combine .divide (.word 0) = none) ∧
      ∀ e : Engine, (overflowAt c.tok : EngineM Unit).run.run e =
        (.error ⟨.syntaxError, some c.tok, e.mode, e.table.depth, e.line, "arithmetic overflow"⟩,
          e) := by
  refine ⟨arithmetic_eq n c op global, fun cur v hcur hglue => ?_, fun cur => ?_,
    overflowAt_run c.tok⟩
  · exact Equivalent.combine_eq_exactly v hcur hglue
  · simp [Equivalent.combine]

/-- Halving `16383pt` is exact. -/
theorem dimen_halved_exactly :
    (Equivalent.dimen 1073676288).combine .divide (.word 2) = some (.dimen 536838144) := by
  have hrange : (Equivalent.dimen 1073676288).InRange := by
    simp [Equivalent.InRange, Equivalent.words, Equivalent.limit]
  rw [(arithmetic_exact_or_refused 0 default .divide false).2.1 (.dimen 1073676288) 2 hrange
    (fun h => absurd h (by decide))]
  simp [Equivalent.exactly, Prim.exact, Equivalent.words, Equivalent.limit, Equivalent.mapWords]
  decide

/-- Glue advanced by glue is never refused: `16383pt` advanced by `16383pt` is refused in a
dimension register, but stored as `32766pt`, out of range, in a glue register. -/
theorem advance_glue_unchecked :
    (Equivalent.dimen 1073676288).combine .advance (.word 1073676288) = none ∧
      (Equivalent.glue (Glue.fixed 1073676288)).InRange ∧
      (Equivalent.glue (Glue.fixed 1073676288)).combine .advance (.glue (Glue.fixed 1073676288)) =
        some (.glue (Glue.fixed 2147352576)) ∧
      ¬ (Equivalent.glue (Glue.fixed 2147352576)).InRange := by
  refine ⟨?_, ?_, ?_, ?_⟩
  · simp [Equivalent.combine]
  · simp [Equivalent.InRange, Equivalent.words, Equivalent.limit, Glue.fixed]
  · simp [Equivalent.combine, Glue.add, Glue.addComponent, Glue.fixed]
  · simp [Equivalent.InRange, Equivalent.words, Equivalent.limit, Glue.fixed]

end EngineM

end Galley
