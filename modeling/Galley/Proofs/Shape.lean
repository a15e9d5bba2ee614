import Mathlib
import Galley.Proofs.Branches
import Galley.Proofs.ScopeSnapshots

/-!
# What reading, expanding and scanning leave alone

Main control keeps two stacks side by side: the nest of modes and the save stack of the
table of equivalents. Their *shape* is the list of modes of the nest and the list of what
each open group was opened for, both innermost first. Only a few operations change it:
`openGroup` and `closeGroup` push and pop a group, `pushNest` and `popNest` a mode, and
`newParagraph` and `endParagraph` are built from the latter two. Everything else the engine
does while reading a command leaves the shape alone, whether it returns or fails: reading
tokens, expanding macros, conditionals and the token-producing primitives, scanning
numbers, dimensions, glue, keywords and token lists, assigning, and appending to the
innermost list.

The statements are Hoare triples of `Std.Do` over `EngineM`: `Keeps S x` says that `x`,
started with shape `S`, ends with shape `S` on both of its exits. Loops are covered once by
`forIn_range_keeps` and `forIn_list_keeps`, so that `mvcgen` needs no invariant for any of
them. The expansion family is mutually recursive on a depth budget; `keepsAtBudget` proves
it for every budget by induction on it, each function from the specs of the functions it
calls one budget lower.
-/

namespace Galley

open Std.Do

set_option mvcgen.warning false

/-- The modes of the nest and what each open group was opened for, innermost first. -/
def Engine.shape (e : Engine) : List Mode × List Group :=
  (e.nest.map (·.mode), e.table.frames.map (·.info))

theorem Engine.mode_eq_shape (e : Engine) : e.mode = (e.shape.1.head?).getD .vertical := by
  simp [Engine.mode, Engine.shape]

theorem Engine.top_eq_shape (e : Engine) : e.table.top? = e.shape.2.head? := by
  simp [Scope.Table.top?, Engine.shape]

theorem Scope.Table.assign_infos {κ ν ι : Type} [BEq κ] [Hashable κ] (t : Scope.Table κ ν ι)
    (k : κ) (v : ν) (global : Bool) :
    (t.assign k v global).2.frames.map (·.info) = t.frames.map (·.info) := by
  unfold Scope.Table.assign
  cases global
  · simp only [Bool.false_eq_true, ↓reduceIte]
    split
    · simp_all
    · split <;> simp_all
  · rfl

/-- Setting a value without logging it changes no group. -/
@[simp] theorem Scope.Table.poke_frames {κ ν ι : Type} [BEq κ] [Hashable κ] (t : Scope.Table κ ν ι)
    (k : κ) (v : ν) : (t.poke k v).frames = t.frames := rfl

/-- Closing a group pops the innermost record of what a group was opened for, and only it. -/
theorem Scope.Table.closeGroup_infos {κ ν ι : Type} [DecidableEq κ] [Hashable κ]
    {t t' : Scope.Table κ ν ι} {info : ι} {restored : List (κ × ν)}
    (h : t.closeGroup = some (info, restored, t')) :
    t.frames.map (·.info) = info :: t'.frames.map (·.info) := by
  unfold Scope.Table.closeGroup at h
  split at h
  · cases h
  · next f fs hfr =>
    simp only [Option.some.injEq, Prod.mk.injEq] at h
    obtain ⟨rfl, -, rfl⟩ := h
    simp [hfr]

namespace EngineM

/-- The postcondition that the shape is `S`, on return and on failure. -/
abbrev keepsPost {α : Type} (S : List Mode × List Group) :
    PostCond α (.except EngineError (.arg Engine .pure)) :=
  post⟨fun _ e => ⌜e.shape = S⌝, fun _ e => ⌜e.shape = S⌝⟩

/-- `x` leaves the shape `S` alone, whether it returns or fails. -/
abbrev Keeps {α : Type} (S : List Mode × List Group) (x : EngineM α) : Prop :=
  ⦃fun e => ⌜e.shape = S⌝⦄ x ⦃keepsPost S⦄

/-- A loop over a list whose body keeps the shape keeps it. -/
@[spec high] theorem forIn_list_keeps {α β : Type} (S : List Mode × List Group) (xs : List α)
    (init : β) (f : α → β → EngineM (ForInStep β)) (h : ∀ a b, Keeps S (f a b)) :
    Keeps S (forIn xs init f) := by
  -- the shape is the loop's invariant, whether the body goes on or stops
  refine @Spec.forIn_list_const_inv _ _ _ _ _ _ xs init f (keepsPost S) fun a b => ?_
  refine Triple.entails_wp_of_post (h a b)
    (PostCond.entails.mk (fun r => ?_) ExceptConds.entails.rfl)
  cases r <;> exact SPred.entails.rfl

/-- A loop over a range whose body keeps the shape keeps it. -/
@[spec high] theorem forIn_range_keeps {β : Type} (S : List Mode × List Group)
    (r : Std.Legacy.Range) (init : β) (f : Nat → β → EngineM (ForInStep β))
    (h : ∀ i b, Keeps S (f i b)) : Keeps S (forIn r init f) := by
  rw [Std.Legacy.Range.forIn_eq_forIn_range']
  exact forIn_list_keeps S _ init f h

/-! ### Reading and putting back tokens -/

section Input

variable (S : List Mode × List Group)

@[spec] theorem fail_keeps {α : Type} (k : ErrorKind) (t : Option Token) (m : String) :
    Keeps S (fail k t m : EngineM α) := by
  unfold fail; mvcgen

@[spec high] theorem emit_keeps (ev : Event) : Keeps S (emit ev) := by
  unfold emit
  mvcgen
  simp +zetaDelta only
  split <;> simp_all [Engine.shape]

@[spec] theorem next_keeps : Keeps S next := by
  unfold next; mvcgen

@[spec high] theorem meaningOf_keeps (t : Token) : Keeps S (meaningOf t) := by
  unfold meaningOf; mvcgen

@[spec] theorem back_keeps (t : Token) (frozen : Bool) : Keeps S (back t frozen) := by
  unfold back; mvcgen

@[spec] theorem backCmd_keeps (c : Cmd) : Keeps S (backCmd c) := by
  unfold backCmd; mvcgen

@[spec] theorem backList_keeps (l : List Token) : Keeps S (backList l) := by
  unfold backList; mvcgen

@[spec] theorem push_keeps (l : List Token) (t : Token) : Keeps S (push l t) := by
  unfold push; mvcgen; simp_all [Engine.shape]

@[spec] theorem nextNonBlank_keeps : Keeps S nextNonBlank := by
  unfold nextNonBlank; mvcgen; all_goals simp_all

@[spec] theorem assign_keeps (k : Key) (v : Equivalent) (global : Bool) :
    Keeps S (assign k v global) := by
  unfold assign
  mvcgen
  simp_all [Engine.shape, Scope.Table.assign_infos]

end Input

/-! ### Macros and the skipping of conditionals -/

section Macros

variable (S : List Mode × List Group)

@[spec] theorem runaway_keeps {α : Type} (t : Token) : Keeps S (runaway t : EngineM α) := by
  unfold runaway; mvcgen

@[spec] theorem parInArgument_keeps {α : Type} (t : Token) :
    Keeps S (parInArgument t : EngineM α) := by
  unfold parInArgument; mvcgen

@[spec] theorem undelimited_keeps (t : Token) (long : Bool) : Keeps S (undelimited t long) := by
  unfold undelimited; mvcgen; all_goals simp_all

@[spec] theorem delimited_keeps (t : Token) (delim : List Token) (long : Bool) :
    Keeps S (delimited t delim long) := by
  unfold delimited; mvcgen; all_goals simp_all

@[spec] theorem macroCall_keeps (t : Token) (m : Macro) : Keeps S (macroCall t m) := by
  unfold macroCall; mvcgen; all_goals simp_all

@[spec] theorem passText_keeps (t : Token) : Keeps S (passText t) := by
  unfold passText; mvcgen; all_goals simp_all

@[spec] theorem condEnd_keeps (t : Token) (op : Prim) : Keeps S (condEnd t op) := by
  unfold condEnd; mvcgen; all_goals simp_all +zetaDelta [Engine.shape]

@[spec] theorem tooDeep_keeps {α : Type} : Keeps S (tooDeep : EngineM α) := by
  unfold tooDeep; mvcgen

@[spec] theorem missingNumber_keeps {α : Type} : Keeps S (missingNumber : EngineM α) := by
  unfold missingNumber; mvcgen

@[spec] theorem notNumber_keeps {α : Type} (c : Cmd) : Keeps S (notNumber c : EngineM α) := by
  unfold notNumber; mvcgen

@[spec] theorem printToken_keeps (t : Token) : Keeps S (printToken t) := by
  unfold printToken; mvcgen

@[spec] theorem setCondLimit_keeps (idx : Nat) (l : CondLimit) : Keeps S (setCondLimit idx l) := by
  unfold setCondLimit; mvcgen

@[spec] theorem truncateConds_keeps (idx : Nat) : Keeps S (truncateConds idx) := by
  unfold truncateConds; mvcgen

@[spec] theorem attach_keeps (whole frac : Int32) : Keeps S (attach whole frac) := by
  unfold attach; mvcgen; all_goals simp_all

end Macros

/-! ### The expansion family -/

/-- Every function of the expansion family, at budget `n`, keeps the shape. -/
structure KeepsAtBudget (n : Nat) : Prop where
  getX : ∀ S, Keeps S (getX n)
  expand : ∀ S t d, Keeps S (expand n t d)
  expandPrimitive : ∀ S t op, Keeps S (expandPrimitive n t op)
  conditional : ∀ S t op, Keeps S (conditional n t op)
  test : ∀ S t op, Keeps S (test n t op)
  getXNonBlank : ∀ S, Keeps S (getXNonBlank n)
  scanRelation : ∀ S t, Keeps S (scanRelation n t)
  scanSigns : ∀ S, Keeps S (scanSigns n)
  scanInt : ∀ S, Keeps S (scanInt n)
  scanIntAfter : ∀ S c, Keeps S (scanIntAfter n c)
  scanInternal : ∀ S c, Keeps S (scanInternal n c)
  scanRegisterNum : ∀ S t, Keeps S (scanRegisterNum n t)
  scanCharNum : ∀ S t, Keeps S (scanCharNum n t)
  skipOptionalSpace : ∀ S, Keeps S (skipOptionalSpace n)
  scanDimenOrder : ∀ S fil, Keeps S (scanDimenOrder n fil)
  scanDimenAfter : ∀ S c neg fil, Keeps S (scanDimenAfter n c neg fil)
  scanDecimal : ∀ S c, Keeps S (scanDecimal n c)
  scanUnits : ∀ S whole frac fil, Keeps S (scanUnits n whole frac fil)
  scanKeyword : ∀ S kw, Keeps S (scanKeyword n kw)
  theToks : ∀ S, Keeps S (theToks n)

theorem keepsAtBudget_zero : KeepsAtBudget 0 where
  getX S := by rw [EngineM.getX]; exact tooDeep_keeps S
  expand S _ _ := by rw [EngineM.expand]; exact tooDeep_keeps S
  expandPrimitive S _ _ := by rw [EngineM.expandPrimitive]; exact tooDeep_keeps S
  conditional S _ _ := by rw [EngineM.conditional]; exact tooDeep_keeps S
  test S _ _ := by rw [EngineM.test]; exact tooDeep_keeps S
  getXNonBlank S := by rw [EngineM.getXNonBlank]; exact tooDeep_keeps S
  scanRelation S _ := by rw [EngineM.scanRelation]; exact tooDeep_keeps S
  scanSigns S := by rw [EngineM.scanSigns]; exact tooDeep_keeps S
  scanInt S := by rw [EngineM.scanInt]; exact tooDeep_keeps S
  scanIntAfter S _ := by rw [EngineM.scanIntAfter]; exact tooDeep_keeps S
  scanInternal S _ := by rw [EngineM.scanInternal]; exact tooDeep_keeps S
  scanRegisterNum S _ := by rw [EngineM.scanRegisterNum]; exact tooDeep_keeps S
  scanCharNum S _ := by rw [EngineM.scanCharNum]; exact tooDeep_keeps S
  skipOptionalSpace S := by rw [EngineM.skipOptionalSpace]; exact tooDeep_keeps S
  scanDimenOrder S _ := by rw [EngineM.scanDimenOrder]; exact tooDeep_keeps S
  scanDimenAfter S _ _ _ := by rw [EngineM.scanDimenAfter]; exact tooDeep_keeps S
  scanDecimal S _ := by rw [EngineM.scanDecimal]; exact tooDeep_keeps S
  scanUnits S _ _ _ := by rw [EngineM.scanUnits]; exact tooDeep_keeps S
  scanKeyword S _ := by rw [EngineM.scanKeyword]; exact tooDeep_keeps S
  theToks S := by rw [EngineM.theToks]; exact tooDeep_keeps S

theorem KeepsAtBudget.getX_succ {n : Nat} (h : KeepsAtBudget n) (S : List Mode × List Group) :
    Keeps S (EngineM.getX (n + 1)) := by
  have hexpand := h.expand
  rw [EngineM.getX.eq_def]
  mvcgen [hexpand]
  all_goals grind [Engine.shape]

theorem KeepsAtBudget.expand_succ {n : Nat} (h : KeepsAtBudget n) (S : List Mode × List Group)
    (t : Token) (d : Meaning) :
    Keeps S (EngineM.expand (n + 1) t d) := by
  have hconditional := h.conditional
  have hexpandPrimitive := h.expandPrimitive
  rw [EngineM.expand.eq_def]
  mvcgen [hconditional, hexpandPrimitive]
  all_goals grind [Engine.shape]

theorem KeepsAtBudget.expandPrimitive_succ {n : Nat} (h : KeepsAtBudget n) (S : List Mode × List Group)
    (t : Token) (op : Prim) :
    Keeps S (EngineM.expandPrimitive (n + 1) t op) := by
  have hgetX := h.getX
  have hexpand := h.expand
  have hscanInt := h.scanInt
  have htheToks := h.theToks
  rw [EngineM.expandPrimitive.eq_def]
  mvcgen [hgetX, hexpand, hscanInt, htheToks]
  all_goals grind [Engine.shape]

theorem KeepsAtBudget.conditional_succ {n : Nat} (h : KeepsAtBudget n) (S : List Mode × List Group)
    (t : Token) (op : Prim) :
    Keeps S (EngineM.conditional (n + 1) t op) := by
  have hscanInt := h.scanInt
  have htest := h.test
  rw [EngineM.conditional.eq_def]
  mvcgen [hscanInt, htest]
  all_goals grind [Engine.shape]

theorem KeepsAtBudget.test_succ {n : Nat} (h : KeepsAtBudget n) (S : List Mode × List Group)
    (t : Token) (op : Prim) :
    Keeps S (EngineM.test (n + 1) t op) := by
  have hgetX := h.getX
  have hscanInt := h.scanInt
  have hscanRelation := h.scanRelation
  have hscanDimenOrder := h.scanDimenOrder
  have hscanRegisterNum := h.scanRegisterNum
  rw [EngineM.test.eq_def]
  mvcgen [hgetX, hscanInt, hscanRelation, hscanDimenOrder, hscanRegisterNum]
  all_goals grind [Engine.shape]

theorem KeepsAtBudget.getXNonBlank_succ {n : Nat} (h : KeepsAtBudget n) (S : List Mode × List Group) :
    Keeps S (EngineM.getXNonBlank (n + 1)) := by
  have hgetX := h.getX
  rw [EngineM.getXNonBlank.eq_def]
  mvcgen [hgetX]
  all_goals grind [Engine.shape]

theorem KeepsAtBudget.scanRelation_succ {n : Nat} (h : KeepsAtBudget n) (S : List Mode × List Group)
    (t : Token) :
    Keeps S (EngineM.scanRelation (n + 1) t) := by
  have hgetXNonBlank := h.getXNonBlank
  rw [EngineM.scanRelation.eq_def]
  mvcgen [hgetXNonBlank]
  all_goals grind [Engine.shape]

theorem KeepsAtBudget.scanSigns_succ {n : Nat} (h : KeepsAtBudget n) (S : List Mode × List Group) :
    Keeps S (EngineM.scanSigns (n + 1)) := by
  have hgetX := h.getX
  rw [EngineM.scanSigns.eq_def]
  mvcgen [hgetX]
  all_goals grind [Engine.shape]

theorem KeepsAtBudget.scanInt_succ {n : Nat} (h : KeepsAtBudget n) (S : List Mode × List Group) :
    Keeps S (EngineM.scanInt (n + 1)) := by
  have hscanSigns := h.scanSigns
  have hscanIntAfter := h.scanIntAfter
  rw [EngineM.scanInt.eq_def]
  mvcgen [hscanSigns, hscanIntAfter]
  all_goals grind [Engine.shape]

theorem KeepsAtBudget.scanIntAfter_succ {n : Nat} (h : KeepsAtBudget n) (S : List Mode × List Group)
    (c : Cmd) :
    Keeps S (EngineM.scanIntAfter (n + 1) c) := by
  have hgetX := h.getX
  have hskipOptionalSpace := h.skipOptionalSpace
  have hscanInternal := h.scanInternal
  rw [EngineM.scanIntAfter.eq_def]
  mvcgen [hgetX, hskipOptionalSpace, hscanInternal]
  all_goals grind [Engine.shape]

theorem KeepsAtBudget.scanInternal_succ {n : Nat} (h : KeepsAtBudget n) (S : List Mode × List Group)
    (c : Cmd) :
    Keeps S (EngineM.scanInternal (n + 1) c) := by
  have hscanRegisterNum := h.scanRegisterNum
  have hscanCharNum := h.scanCharNum
  rw [EngineM.scanInternal.eq_def]
  mvcgen [hscanRegisterNum, hscanCharNum]
  all_goals grind [Engine.shape]

theorem KeepsAtBudget.scanRegisterNum_succ {n : Nat} (h : KeepsAtBudget n) (S : List Mode × List Group)
    (t : Token) :
    Keeps S (EngineM.scanRegisterNum (n + 1) t) := by
  have hscanInt := h.scanInt
  rw [EngineM.scanRegisterNum.eq_def]
  mvcgen [hscanInt]
  all_goals grind [Engine.shape]

theorem KeepsAtBudget.scanCharNum_succ {n : Nat} (h : KeepsAtBudget n) (S : List Mode × List Group)
    (t : Token) :
    Keeps S (EngineM.scanCharNum (n + 1) t) := by
  have hscanInt := h.scanInt
  rw [EngineM.scanCharNum.eq_def]
  mvcgen [hscanInt]
  all_goals grind [Engine.shape]

theorem KeepsAtBudget.skipOptionalSpace_succ {n : Nat} (h : KeepsAtBudget n) (S : List Mode × List Group) :
    Keeps S (EngineM.skipOptionalSpace (n + 1)) := by
  have hgetX := h.getX
  rw [EngineM.skipOptionalSpace.eq_def]
  mvcgen [hgetX]
  all_goals grind [Engine.shape]

theorem KeepsAtBudget.scanDimenOrder_succ {n : Nat} (h : KeepsAtBudget n) (S : List Mode × List Group)
    (fil : Bool) :
    Keeps S (EngineM.scanDimenOrder (n + 1) fil) := by
  have hscanSigns := h.scanSigns
  have hscanDimenAfter := h.scanDimenAfter
  rw [EngineM.scanDimenOrder.eq_def]
  mvcgen [hscanSigns, hscanDimenAfter]
  all_goals grind [Engine.shape]

theorem KeepsAtBudget.scanDimenAfter_succ {n : Nat} (h : KeepsAtBudget n) (S : List Mode × List Group)
    (c : Cmd) (neg fil : Bool) :
    Keeps S (EngineM.scanDimenAfter (n + 1) c neg fil) := by
  have hscanInternal := h.scanInternal
  have hscanIntAfter := h.scanIntAfter
  have hscanDecimal := h.scanDecimal
  have hscanUnits := h.scanUnits
  rw [EngineM.scanDimenAfter.eq_def]
  mvcgen [hscanInternal, hscanIntAfter, hscanDecimal, hscanUnits]
  all_goals grind [Engine.shape]

theorem KeepsAtBudget.scanDecimal_succ {n : Nat} (h : KeepsAtBudget n) (S : List Mode × List Group)
    (c : Cmd) :
    Keeps S (EngineM.scanDecimal (n + 1) c) := by
  have hgetX := h.getX
  rw [EngineM.scanDecimal.eq_def]
  mvcgen [hgetX]
  all_goals grind [Engine.shape]

theorem KeepsAtBudget.scanUnits_succ {n : Nat} (h : KeepsAtBudget n) (S : List Mode × List Group)
    (whole frac : Int32) (fil : Bool) :
    Keeps S (EngineM.scanUnits (n + 1) whole frac fil) := by
  have hscanKeyword := h.scanKeyword
  have hskipOptionalSpace := h.skipOptionalSpace
  have hgetXNonBlank := h.getXNonBlank
  have hscanInternal := h.scanInternal
  rw [EngineM.scanUnits.eq_def]
  mvcgen -trivial [hscanKeyword, hskipOptionalSpace, hgetXNonBlank, hscanInternal]
  all_goals grind [Engine.shape]

theorem KeepsAtBudget.scanKeyword_succ {n : Nat} (h : KeepsAtBudget n) (S : List Mode × List Group)
    (kw : String) :
    Keeps S (EngineM.scanKeyword (n + 1) kw) := by
  have hgetX := h.getX
  rw [EngineM.scanKeyword.eq_def]
  mvcgen [hgetX]
  all_goals grind [Engine.shape]

theorem KeepsAtBudget.theToks_succ {n : Nat} (h : KeepsAtBudget n) (S : List Mode × List Group) :
    Keeps S (EngineM.theToks (n + 1)) := by
  have hgetX := h.getX
  have hscanInternal := h.scanInternal
  rw [EngineM.theToks.eq_def]
  mvcgen [hgetX, hscanInternal]
  all_goals grind [Engine.shape]

theorem KeepsAtBudget.succ {n : Nat} (h : KeepsAtBudget n) : KeepsAtBudget (n + 1) where
  getX := h.getX_succ
  expand := h.expand_succ
  expandPrimitive := h.expandPrimitive_succ
  conditional := h.conditional_succ
  test := h.test_succ
  getXNonBlank := h.getXNonBlank_succ
  scanRelation := h.scanRelation_succ
  scanSigns := h.scanSigns_succ
  scanInt := h.scanInt_succ
  scanIntAfter := h.scanIntAfter_succ
  scanInternal := h.scanInternal_succ
  scanRegisterNum := h.scanRegisterNum_succ
  scanCharNum := h.scanCharNum_succ
  skipOptionalSpace := h.skipOptionalSpace_succ
  scanDimenOrder := h.scanDimenOrder_succ
  scanDimenAfter := h.scanDimenAfter_succ
  scanDecimal := h.scanDecimal_succ
  scanUnits := h.scanUnits_succ
  scanKeyword := h.scanKeyword_succ
  theToks := h.theToks_succ

/-- The expansion family keeps the shape at every budget. -/
theorem keepsAtBudget (n : Nat) : KeepsAtBudget n := by
  induction n with
  | zero => exact keepsAtBudget_zero
  | succ n ih => exact ih.succ

section Scanning

variable (S : List Mode × List Group)

@[spec] theorem getX_keeps (n : Nat) : Keeps S (getX n) := (keepsAtBudget n).getX S

@[spec] theorem getXNonBlank_keeps (n : Nat) : Keeps S (getXNonBlank n) :=
  (keepsAtBudget n).getXNonBlank S

@[spec] theorem scanSigns_keeps (n : Nat) : Keeps S (scanSigns n) := (keepsAtBudget n).scanSigns S

@[spec] theorem scanInt_keeps (n : Nat) : Keeps S (scanInt n) := (keepsAtBudget n).scanInt S

@[spec] theorem scanInternal_keeps (n : Nat) (c : Cmd) : Keeps S (scanInternal n c) :=
  (keepsAtBudget n).scanInternal S c

@[spec] theorem scanRegisterNum_keeps (n : Nat) (t : Token) : Keeps S (scanRegisterNum n t) :=
  (keepsAtBudget n).scanRegisterNum S t

@[spec] theorem scanCharNum_keeps (n : Nat) (t : Token) : Keeps S (scanCharNum n t) :=
  (keepsAtBudget n).scanCharNum S t

@[spec] theorem scanDimenOrder_keeps (n : Nat) (fil : Bool) : Keeps S (scanDimenOrder n fil) :=
  (keepsAtBudget n).scanDimenOrder S fil

@[spec] theorem scanDimenAfter_keeps (n : Nat) (c : Cmd) (neg fil : Bool) :
    Keeps S (scanDimenAfter n c neg fil) :=
  (keepsAtBudget n).scanDimenAfter S c neg fil

@[spec] theorem scanKeyword_keeps (n : Nat) (kw : String) : Keeps S (scanKeyword n kw) :=
  (keepsAtBudget n).scanKeyword S kw

@[spec] theorem theToks_keeps (n : Nat) : Keeps S (theToks n) := (keepsAtBudget n).theToks S

@[spec] theorem expand_keeps (n : Nat) (t : Token) (d : Meaning) : Keeps S (expand n t d) :=
  (keepsAtBudget n).expand S t d

@[spec] theorem scanDimen_keeps (n : Nat) : Keeps S (scanDimen n) := by
  unfold scanDimen; mvcgen; all_goals grind

@[spec] theorem scanGlue_keeps (n : Nat) : Keeps S (scanGlue n) := by
  unfold scanGlue; mvcgen; all_goals grind

@[spec] theorem getXNonBlankNonRelax_keeps (n : Nat) : Keeps S (getXNonBlankNonRelax n) := by
  unfold getXNonBlankNonRelax; mvcgen; all_goals grind

@[spec] theorem scanOptionalEquals_keeps (n : Nat) : Keeps S (scanOptionalEquals n) := by
  unfold scanOptionalEquals; mvcgen; all_goals grind

@[spec] theorem scanLeftBrace_keeps (n : Nat) (t : Token) : Keeps S (scanLeftBrace n t) := by
  unfold scanLeftBrace; mvcgen; all_goals grind

@[spec] theorem runawayDefinition_keeps {α : Type} (t : Token) :
    Keeps S (runawayDefinition t : EngineM α) := by
  unfold runawayDefinition; mvcgen

@[spec] theorem scanToks_keeps (n : Nat) (t : Token) (expand : Bool) :
    Keeps S (scanToks n t expand) := by
  unfold scanToks; mvcgen; all_goals grind

@[spec] theorem getRToken_keeps (t : Token) : Keeps S (getRToken t) := by
  unfold getRToken; mvcgen; all_goals grind

@[spec] theorem scanMacro_keeps (n : Nat) (name : Token) (expand : Bool) :
    Keeps S (scanMacro n name expand) := by
  unfold scanMacro; mvcgen; all_goals grind

@[spec] theorem assignValue_keeps (n : Nat) (c : Cmd) (k : Key) (global : Bool) :
    Keeps S (assignValue n c k global) := by
  unfold assignValue; mvcgen; all_goals grind

@[spec] theorem registerOf_keeps (n : Nat) (c : Cmd) : Keeps S (registerOf n c) := by
  unfold registerOf; mvcgen; all_goals grind

@[spec] theorem overflowAt_keeps {α : Type} (t : Token) : Keeps S (overflowAt t : EngineM α) := by
  unfold overflowAt; mvcgen

@[spec] theorem arithmetic_keeps (n : Nat) (c : Cmd) (op : Prim) (global : Bool) :
    Keeps S (arithmetic n c op global) := by
  unfold arithmetic; mvcgen; all_goals grind

@[spec] theorem scanFileName_keeps (n : Nat) (t : Token) : Keeps S (scanFileName n t) := by
  unfold scanFileName; mvcgen; all_goals grind

@[spec] theorem newFont_keeps (n : Nat) (c : Cmd) (global : Bool) : Keeps S (newFont n c global) := by
  unfold newFont; mvcgen; all_goals grind

@[spec] theorem scanRuleSpec_keeps (n : Nat) (vertical : Bool) : Keeps S (scanRuleSpec n vertical) := by
  unfold scanRuleSpec; mvcgen; all_goals grind

end Scanning

/-! ### Building lists -/

section Lists

variable (S : List Mode × List Group)

@[spec] theorem modifyCur_keeps (f : Frame → Frame) (hf : ∀ fr, (f fr).mode = fr.mode) :
    Keeps S (modifyCur f) := by
  unfold modifyCur
  mvcgen
  rename_i e he _
  rw [← he]
  simp +zetaDelta only [Engine.shape]
  split <;> simp_all

@[spec] theorem appendItem_keeps (it : Item) : Keeps S (appendItem it) := by
  unfold appendItem; mvcgen [modifyCur_keeps]; simp

@[spec] theorem packed_keeps (b : Box) (r : PackReport) : Keeps S (packed b r) := by
  unfold packed; mvcgen

@[spec] theorem appendToVList_keeps (b : Box) : Keeps S (appendToVList b) := by
  unfold appendToVList; mvcgen [modifyCur_keeps]; all_goals grind

@[spec] theorem appendChar_keeps (r : Nat) : Keeps S (appendChar r) := by
  unfold appendChar; mvcgen [modifyCur_keeps]; all_goals grind

@[spec] theorem appendSpace_keeps : Keeps S appendSpace := by
  unfold appendSpace; mvcgen; all_goals grind

@[spec] theorem boxEnd_keeps (target : BoxTarget) (b : Option Box) : Keeps S (boxEnd target b) := by
  unfold boxEnd; mvcgen [modifyCur_keeps]; all_goals grind

end Lists

/-! ### What changes the shape -/

section Changes

variable (S : List Mode × List Group)

@[spec] theorem openGroup_shape (g : Group) :
    ⦃fun e => ⌜e.shape = S⌝⦄ openGroup g ⦃⇓? _ e => ⌜e.shape = (S.1, g :: S.2)⌝⦄ := by
  unfold openGroup; mvcgen; grind [Engine.shape, Scope.Table.openGroup]

@[spec] theorem closeGroup_shape :
    ⦃fun e => ⌜e.shape = S⌝⦄ closeGroup
      ⦃⇓? r e => ⌜r = S.2.head? ∧ e.shape = (S.1, S.2.tail)⌝⦄ := by
  unfold closeGroup
  mvcgen
  all_goals grind [Engine.shape, → Scope.Table.closeGroup_infos, Scope.Table.closeGroup_eq_none_iff,
    Scope.Table.depth]

@[spec] theorem pushNest_shape (m : Mode) :
    ⦃fun e => ⌜e.shape = S⌝⦄ pushNest m ⦃⇓? _ e => ⌜e.shape = (m :: S.1, S.2)⌝⦄ := by
  unfold pushNest; mvcgen; all_goals grind [Engine.shape]

@[spec] theorem popNest_shape :
    ⦃fun e => ⌜e.shape = S⌝⦄ popNest
      ⦃⇓? f e => ⌜(∀ m ∈ S.1.head?, f.mode = m) ∧ e.shape = (S.1.tail, S.2)⌝⦄ := by
  unfold popNest; mvcgen; all_goals grind [Engine.shape]

@[spec] theorem newParagraph_shape (indent : Bool) :
    ⦃fun e => ⌜e.shape = S⌝⦄ newParagraph indent
      ⦃⇓? _ e => ⌜e.shape = (.horizontal :: S.1, S.2)⌝⦄ := by
  unfold newParagraph; mvcgen; all_goals grind

@[spec] theorem endParagraph_shape :
    ⦃fun e => ⌜e.shape = S⌝⦄ endParagraph ⦃⇓? _ e => ⌜e.shape = (S.1.tail, S.2)⌝⦄ := by
  unfold endParagraph; mvcgen; all_goals grind

end Changes

end EngineM

end Galley
