import Mathlib
import Galley.Proofs.Keywords

/-!
# What expansion leaves of the nest and of the pending lists

Reading, expanding and scanning change the stack of pending token lists and nothing of the
nest of modes: no function of the expansion family builds a list or changes a frame. The
stack changes in two ways only. `next` reads the first token of the innermost list that has
one, and drops the list as soon as it has read its last token; `back`, `backCmd`,
`backList` and `push` put a list in front, never an empty one.

So a property of single pending lists that reading a token keeps, and that every non-empty
list has when it is put in front (`SourceInvariant`), holds of every pending list after each
of these functions whenever it held before. `Steady N J x` says that `x`, started with the
nest `N` and every pending list holding `J`, ends so on both of its exits. Two invariants
are used: `SourceInvariant.any`, which says nothing and leaves the nest alone, and
`SourceInvariant.unread`, that a list has a token left.

As in `Galley.Proofs.Shape`, the expansion family is covered at every budget by induction
on the budget. The specs are local to this module and taken up again where they are used.
-/

namespace Galley

open Std.Do

set_option mvcgen.warning false

/-- A property of single pending lists that reading a token off the front keeps while
tokens are left, and that every list put in front of the input has when it is not empty. -/
structure SourceInvariant where
  /-- The pending lists the property allows. -/
  holds : Source → Prop
  tail : ∀ s t ts, holds s → s.toks = t :: ts → ts ≠ [] → holds { s with toks := ts }
  put : ∀ l frozen, l ≠ [] → holds { toks := l, frozen }

/-- The property every pending list has. -/
def SourceInvariant.any : SourceInvariant where
  holds _ := True
  tail _ _ _ _ _ _ := trivial
  put _ _ _ := trivial

/-- A pending list has a token left. -/
def SourceInvariant.unread : SourceInvariant where
  holds s := s.toks ≠ []
  tail _ _ _ _ _ hts := hts
  put _ _ hl := hl

/-- The engine has the nest `N`, and each of its pending lists holds `J`. -/
def Engine.Steady (N : List Frame) (J : SourceInvariant) (e : Engine) : Prop :=
  e.nest = N ∧ ∀ s ∈ e.inputs, J.holds s

namespace Engine.Steady

variable {N : List Frame} {J : SourceInvariant} {e : Engine}

/-- Reading the first token of the innermost list that has one keeps the engine steady. -/
theorem read (h : e.Steady N J) {s : Source} {rest : List Source} {t : Token} {ts : List Token}
    (hd : e.inputs.dropWhile (·.toks.isEmpty) = s :: rest) (hs : s.toks = t :: ts) :
    Engine.Steady N J
      { e with inputs := if ts.isEmpty then rest else { s with toks := ts } :: rest, last := some t } := by
  have hsuf := List.dropWhile_suffix (fun s : Source => s.toks.isEmpty) (l := e.inputs)
  rw [hd] at hsuf
  have hmem : ∀ s' ∈ s :: rest, J.holds s' := fun s' hs' => h.2 s' (hsuf.subset hs')
  refine ⟨h.1, ?_⟩
  split
  · exact fun s' hs' => hmem s' (List.mem_cons_of_mem s hs')
  · next hts =>
    intro s' hs'
    rcases List.mem_cons.1 hs' with rfl | hs'
    · exact J.tail s t ts (hmem s List.mem_cons_self) hs (by simpa using hts)
    · exact hmem s' (List.mem_cons_of_mem s hs')

theorem cons (h : e.Steady N J) {l : List Token} (frozen : Bool) (hl : l ≠ []) :
    Engine.Steady N J { e with inputs := { toks := l, frozen } :: e.inputs } := by
  refine ⟨h.1, fun s hs => ?_⟩
  rcases List.mem_cons.1 hs with rfl | hs
  · exact J.put l frozen hl
  · exact h.2 s hs

end Engine.Steady

namespace EngineM

/-- The postcondition that the engine is steady, on return and on failure. -/
abbrev steadyPost {α : Type} (N : List Frame) (J : SourceInvariant) :
    PostCond α (.except EngineError (.arg Engine .pure)) :=
  post⟨fun _ e => ⌜e.Steady N J⌝, fun _ e => ⌜e.Steady N J⌝⟩

/-- `x` keeps the nest `N` and the invariant `J` of the pending lists, whether it returns or
fails. -/
abbrev Steady {α : Type} (N : List Frame) (J : SourceInvariant) (x : EngineM α) : Prop :=
  ⦃fun e => ⌜e.Steady N J⌝⦄ x ⦃steadyPost N J⦄

variable {N : List Frame} {J : SourceInvariant}

/-- A loop over a list whose body keeps the engine steady keeps it. -/
@[local spec 20000] theorem forIn_list_steady {α β : Type} (xs : List α) (init : β)
    (f : α → β → EngineM (ForInStep β)) (h : ∀ a b, Steady N J (f a b)) :
    Steady N J (forIn xs init f) := by
  refine @Spec.forIn_list_const_inv _ _ _ _ _ _ xs init f (steadyPost N J) fun a b => ?_
  refine Triple.entails_wp_of_post (h a b)
    (PostCond.entails.mk (fun r => ?_) ExceptConds.entails.rfl)
  cases r <;> exact SPred.entails.rfl

/-- A loop over a range whose body keeps the engine steady keeps it. -/
@[local spec 20000] theorem forIn_range_steady {β : Type} (r : Std.Legacy.Range) (init : β)
    (f : Nat → β → EngineM (ForInStep β)) (h : ∀ i b, Steady N J (f i b)) :
    Steady N J (forIn r init f) := by
  rw [Std.Legacy.Range.forIn_eq_forIn_range']
  exact forIn_list_steady _ init f h

/-! ### Reading and putting back tokens -/

@[local spec 20000] theorem fail_steady {α : Type} (k : ErrorKind) (t : Option Token) (m : String) :
    Steady N J (fail k t m : EngineM α) := by
  unfold fail; mvcgen

@[local spec 20000] theorem emit_steady (ev : Event) : Steady N J (emit ev) := by
  unfold emit
  mvcgen
  simp +zetaDelta only
  split <;> simp_all [Engine.Steady]

@[local spec 20000] theorem next_steady : Steady N J next := by
  unfold next
  mvcgen
  rename_i e h s rest hd t ts hs
  exact h.read hd hs

@[local spec 20000] theorem meaningOf_steady (t : Token) : Steady N J (meaningOf t) := by
  unfold meaningOf; mvcgen

@[local spec 20000] theorem back_steady (t : Token) (frozen : Bool) : Steady N J (back t frozen) := by
  unfold back
  mvcgen
  exact Engine.Steady.cons ‹_› frozen (List.cons_ne_nil t [])

@[local spec 20000] theorem backCmd_steady (c : Cmd) : Steady N J (backCmd c) := by
  unfold backCmd; mvcgen

@[local spec 20000] theorem backList_steady (l : List Token) : Steady N J (backList l) := by
  unfold backList
  mvcgen
  exact Engine.Steady.cons ‹_› false (by simpa using ‹¬l.isEmpty = true›)

@[local spec 20000] theorem push_steady (l : List Token) (t : Token) : Steady N J (push l t) := by
  unfold push
  mvcgen
  case vc3 =>
    rename_i hl e h _ _ _ _ _
    exact h.cons false (by simpa using hl)
  case vc4 =>
    rename_i hl e h _ _
    exact h.cons false (by simpa using hl)

@[local spec 20000] theorem nextNonBlank_steady : Steady N J nextNonBlank := by
  unfold nextNonBlank; mvcgen

@[local spec 20000] theorem assign_steady (k : Key) (v : Equivalent) (global : Bool) :
    Steady N J (assign k v global) := by
  unfold assign; mvcgen

/-! ### Macros and the skipping of conditionals -/

@[local spec 20000] theorem runaway_steady {α : Type} (t : Token) :
    Steady N J (runaway t : EngineM α) := by
  unfold runaway; mvcgen

@[local spec 20000] theorem parInArgument_steady {α : Type} (t : Token) :
    Steady N J (parInArgument t : EngineM α) := by
  unfold parInArgument; mvcgen

@[local spec 20000] theorem undelimited_steady (t : Token) (long : Bool) :
    Steady N J (undelimited t long) := by
  unfold undelimited; mvcgen

@[local spec 20000] theorem delimited_steady (t : Token) (delim : List Token) (long : Bool) :
    Steady N J (delimited t delim long) := by
  unfold delimited; mvcgen

@[local spec 20000] theorem macroCall_steady (t : Token) (m : Macro) : Steady N J (macroCall t m) := by
  unfold macroCall; mvcgen

@[local spec 20000] theorem passText_steady (t : Token) : Steady N J (passText t) := by
  unfold passText; mvcgen

@[local spec 20000] theorem condEnd_steady (t : Token) (op : Prim) : Steady N J (condEnd t op) := by
  unfold condEnd; mvcgen

@[local spec 20000] theorem tooDeep_steady {α : Type} : Steady N J (tooDeep : EngineM α) := by
  unfold tooDeep; mvcgen

@[local spec 20000] theorem missingNumber_steady {α : Type} : Steady N J (missingNumber : EngineM α) := by
  unfold missingNumber; mvcgen

@[local spec 20000] theorem notNumber_steady {α : Type} (c : Cmd) :
    Steady N J (notNumber c : EngineM α) := by
  unfold notNumber; mvcgen

@[local spec 20000] theorem printToken_steady (t : Token) : Steady N J (printToken t) := by
  unfold printToken; mvcgen

@[local spec 20000] theorem setCondLimit_steady (idx : Nat) (l : CondLimit) :
    Steady N J (setCondLimit idx l) := by
  unfold setCondLimit; mvcgen

@[local spec 20000] theorem truncateConds_steady (idx : Nat) : Steady N J (truncateConds idx) := by
  unfold truncateConds; mvcgen

@[local spec 20000] theorem attach_steady (whole frac : Int32) : Steady N J (attach whole frac) := by
  unfold attach; mvcgen

/-! ### The expansion family -/

/-- Every function of the expansion family, at budget `n`, keeps the engine steady. -/
structure SteadyAtBudget (N : List Frame) (J : SourceInvariant) (n : Nat) : Prop where
  getX : Steady N J (getX n)
  expand : ∀ t d, Steady N J (expand n t d)
  expandPrimitive : ∀ t op, Steady N J (expandPrimitive n t op)
  conditional : ∀ t op, Steady N J (conditional n t op)
  test : ∀ t op, Steady N J (test n t op)
  getXNonBlank : Steady N J (getXNonBlank n)
  scanRelation : ∀ t, Steady N J (scanRelation n t)
  scanSigns : Steady N J (scanSigns n)
  scanInt : Steady N J (scanInt n)
  scanIntAfter : ∀ c, Steady N J (scanIntAfter n c)
  scanInternal : ∀ c, Steady N J (scanInternal n c)
  scanRegisterNum : ∀ t, Steady N J (scanRegisterNum n t)
  scanCharNum : ∀ t, Steady N J (scanCharNum n t)
  skipOptionalSpace : Steady N J (skipOptionalSpace n)
  scanDimenOrder : ∀ fil, Steady N J (scanDimenOrder n fil)
  scanDimenAfter : ∀ c neg fil, Steady N J (scanDimenAfter n c neg fil)
  scanDecimal : ∀ c, Steady N J (scanDecimal n c)
  scanUnits : ∀ whole frac fil, Steady N J (scanUnits n whole frac fil)
  scanKeyword : ∀ kw, Steady N J (scanKeyword n kw)
  theToks : Steady N J (theToks n)

theorem steadyAtBudget_zero : SteadyAtBudget N J 0 where
  getX := by rw [EngineM.getX]; exact tooDeep_steady
  expand _ _ := by rw [EngineM.expand]; exact tooDeep_steady
  expandPrimitive _ _ := by rw [EngineM.expandPrimitive]; exact tooDeep_steady
  conditional _ _ := by rw [EngineM.conditional]; exact tooDeep_steady
  test _ _ := by rw [EngineM.test]; exact tooDeep_steady
  getXNonBlank := by rw [EngineM.getXNonBlank]; exact tooDeep_steady
  scanRelation _ := by rw [EngineM.scanRelation]; exact tooDeep_steady
  scanSigns := by rw [EngineM.scanSigns]; exact tooDeep_steady
  scanInt := by rw [EngineM.scanInt]; exact tooDeep_steady
  scanIntAfter _ := by rw [EngineM.scanIntAfter]; exact tooDeep_steady
  scanInternal _ := by rw [EngineM.scanInternal]; exact tooDeep_steady
  scanRegisterNum _ := by rw [EngineM.scanRegisterNum]; exact tooDeep_steady
  scanCharNum _ := by rw [EngineM.scanCharNum]; exact tooDeep_steady
  skipOptionalSpace := by rw [EngineM.skipOptionalSpace]; exact tooDeep_steady
  scanDimenOrder _ := by rw [EngineM.scanDimenOrder]; exact tooDeep_steady
  scanDimenAfter _ _ _ := by rw [EngineM.scanDimenAfter]; exact tooDeep_steady
  scanDecimal _ := by rw [EngineM.scanDecimal]; exact tooDeep_steady
  scanUnits _ _ _ := by rw [EngineM.scanUnits]; exact tooDeep_steady
  scanKeyword _ := by rw [EngineM.scanKeyword]; exact tooDeep_steady
  theToks := by rw [EngineM.theToks]; exact tooDeep_steady

namespace SteadyAtBudget

variable {n : Nat} (h : SteadyAtBudget N J n)
include h

theorem getX_succ : Steady N J (EngineM.getX (n + 1)) := by
  have hexpand := h.expand
  rw [EngineM.getX.eq_def]
  mvcgen [hexpand, -expand_keeps]

theorem expand_succ (t : Token) (d : Meaning) : Steady N J (EngineM.expand (n + 1) t d) := by
  have hconditional := h.conditional
  have hexpandPrimitive := h.expandPrimitive
  rw [EngineM.expand.eq_def]
  mvcgen [hconditional, hexpandPrimitive]

theorem expandPrimitive_succ (t : Token) (op : Prim) :
    Steady N J (EngineM.expandPrimitive (n + 1) t op) := by
  have hgetX := h.getX
  have hexpand := h.expand
  have hscanInt := h.scanInt
  have htheToks := h.theToks
  rw [EngineM.expandPrimitive.eq_def]
  mvcgen [hgetX, hexpand, hscanInt, htheToks, -getX_keeps, -expand_keeps, -scanInt_keeps,
    -theToks_keeps]

theorem conditional_succ (t : Token) (op : Prim) :
    Steady N J (EngineM.conditional (n + 1) t op) := by
  have hscanInt := h.scanInt
  have htest := h.test
  rw [EngineM.conditional.eq_def]
  mvcgen [hscanInt, htest, -scanInt_keeps]

theorem test_succ (t : Token) (op : Prim) : Steady N J (EngineM.test (n + 1) t op) := by
  have hgetX := h.getX
  have hscanInt := h.scanInt
  have hscanRelation := h.scanRelation
  have hscanDimenOrder := h.scanDimenOrder
  have hscanRegisterNum := h.scanRegisterNum
  rw [EngineM.test.eq_def]
  mvcgen [hgetX, hscanInt, hscanRelation, hscanDimenOrder, hscanRegisterNum, -getX_keeps,
    -scanInt_keeps, -scanDimenOrder_keeps, -scanRegisterNum_keeps]

theorem getXNonBlank_succ : Steady N J (EngineM.getXNonBlank (n + 1)) := by
  have hgetX := h.getX
  rw [EngineM.getXNonBlank.eq_def]
  mvcgen [hgetX, -getX_keeps]

theorem scanRelation_succ (t : Token) : Steady N J (EngineM.scanRelation (n + 1) t) := by
  have hgetXNonBlank := h.getXNonBlank
  rw [EngineM.scanRelation.eq_def]
  mvcgen [hgetXNonBlank, -getXNonBlank_keeps]

theorem scanSigns_succ : Steady N J (EngineM.scanSigns (n + 1)) := by
  have hgetX := h.getX
  rw [EngineM.scanSigns.eq_def]
  mvcgen [hgetX, -getX_keeps]

theorem scanInt_succ : Steady N J (EngineM.scanInt (n + 1)) := by
  have hscanSigns := h.scanSigns
  have hscanIntAfter := h.scanIntAfter
  rw [EngineM.scanInt.eq_def]
  mvcgen [hscanSigns, hscanIntAfter, -scanSigns_keeps]

theorem scanIntAfter_succ (c : Cmd) : Steady N J (EngineM.scanIntAfter (n + 1) c) := by
  have hgetX := h.getX
  have hskipOptionalSpace := h.skipOptionalSpace
  have hscanInternal := h.scanInternal
  rw [EngineM.scanIntAfter.eq_def]
  mvcgen [hgetX, hskipOptionalSpace, hscanInternal, -getX_keeps, -scanInternal_keeps]

theorem scanInternal_succ (c : Cmd) : Steady N J (EngineM.scanInternal (n + 1) c) := by
  have hscanRegisterNum := h.scanRegisterNum
  have hscanCharNum := h.scanCharNum
  rw [EngineM.scanInternal.eq_def]
  mvcgen [hscanRegisterNum, hscanCharNum, -scanRegisterNum_keeps, -scanCharNum_keeps]

theorem scanRegisterNum_succ (t : Token) : Steady N J (EngineM.scanRegisterNum (n + 1) t) := by
  have hscanInt := h.scanInt
  rw [EngineM.scanRegisterNum.eq_def]
  mvcgen [hscanInt, -scanInt_keeps]

theorem scanCharNum_succ (t : Token) : Steady N J (EngineM.scanCharNum (n + 1) t) := by
  have hscanInt := h.scanInt
  rw [EngineM.scanCharNum.eq_def]
  mvcgen [hscanInt, -scanInt_keeps]

theorem skipOptionalSpace_succ : Steady N J (EngineM.skipOptionalSpace (n + 1)) := by
  have hgetX := h.getX
  rw [EngineM.skipOptionalSpace.eq_def]
  mvcgen [hgetX, -getX_keeps]

theorem scanDimenOrder_succ (fil : Bool) : Steady N J (EngineM.scanDimenOrder (n + 1) fil) := by
  have hscanSigns := h.scanSigns
  have hscanDimenAfter := h.scanDimenAfter
  rw [EngineM.scanDimenOrder.eq_def]
  mvcgen [hscanSigns, hscanDimenAfter, -scanSigns_keeps, -scanDimenAfter_keeps]

theorem scanDimenAfter_succ (c : Cmd) (neg fil : Bool) :
    Steady N J (EngineM.scanDimenAfter (n + 1) c neg fil) := by
  have hscanInternal := h.scanInternal
  have hscanIntAfter := h.scanIntAfter
  have hscanDecimal := h.scanDecimal
  have hscanUnits := h.scanUnits
  rw [EngineM.scanDimenAfter.eq_def]
  mvcgen [hscanInternal, hscanIntAfter, hscanDecimal, hscanUnits, -scanInternal_keeps]

theorem scanDecimal_succ (c : Cmd) : Steady N J (EngineM.scanDecimal (n + 1) c) := by
  have hgetX := h.getX
  rw [EngineM.scanDecimal.eq_def]
  mvcgen [hgetX, -getX_keeps]

theorem scanUnits_succ (whole frac : Int32) (fil : Bool) :
    Steady N J (EngineM.scanUnits (n + 1) whole frac fil) := by
  have hscanKeyword := h.scanKeyword
  have hskipOptionalSpace := h.skipOptionalSpace
  have hgetXNonBlank := h.getXNonBlank
  have hscanInternal := h.scanInternal
  rw [EngineM.scanUnits.eq_def]
  mvcgen -trivial [hscanKeyword, hskipOptionalSpace, hgetXNonBlank, hscanInternal,
    -scanKeyword_keeps, -getXNonBlank_keeps, -scanInternal_keeps]
  all_goals assumption

theorem scanKeyword_succ (kw : String) : Steady N J (EngineM.scanKeyword (n + 1) kw) := by
  have hgetX := h.getX
  rw [EngineM.scanKeyword.eq_def]
  mvcgen [hgetX, -getX_keeps]

theorem theToks_succ : Steady N J (EngineM.theToks (n + 1)) := by
  have hgetX := h.getX
  have hscanInternal := h.scanInternal
  rw [EngineM.theToks.eq_def]
  mvcgen [hgetX, hscanInternal, -getX_keeps, -scanInternal_keeps]

theorem succ : SteadyAtBudget N J (n + 1) where
  getX := h.getX_succ
  expand := h.expand_succ
  expandPrimitive := h.expandPrimitive_succ
  conditional := h.conditional_succ
  test := h.test_succ
  getXNonBlank := h.getXNonBlank_succ
  scanRelation := h.scanRelation_succ
  scanSigns := h.scanSigns_succ
  scanInt := h.scanInt_succ
  scanIntAfter := h.scanIntAfter_succ
  scanInternal := h.scanInternal_succ
  scanRegisterNum := h.scanRegisterNum_succ
  scanCharNum := h.scanCharNum_succ
  skipOptionalSpace := h.skipOptionalSpace_succ
  scanDimenOrder := h.scanDimenOrder_succ
  scanDimenAfter := h.scanDimenAfter_succ
  scanDecimal := h.scanDecimal_succ
  scanUnits := h.scanUnits_succ
  scanKeyword := h.scanKeyword_succ
  theToks := h.theToks_succ

end SteadyAtBudget

/-- The expansion family keeps the engine steady at every budget. -/
theorem steadyAtBudget (n : Nat) : SteadyAtBudget N J n := by
  induction n with
  | zero => exact steadyAtBudget_zero
  | succ n ih => exact ih.succ

/-! ### Scanning -/

section Scanning

variable (N J)

@[local spec 20000] theorem getX_steady (n : Nat) : Steady N J (getX n) := (steadyAtBudget n).getX

@[local spec 20000] theorem getXNonBlank_steady (n : Nat) : Steady N J (getXNonBlank n) :=
  (steadyAtBudget n).getXNonBlank

@[local spec 20000] theorem scanSigns_steady (n : Nat) : Steady N J (scanSigns n) :=
  (steadyAtBudget n).scanSigns

@[local spec 20000] theorem scanInt_steady (n : Nat) : Steady N J (scanInt n) :=
  (steadyAtBudget n).scanInt

@[local spec 20000] theorem scanInternal_steady (n : Nat) (c : Cmd) : Steady N J (scanInternal n c) :=
  (steadyAtBudget n).scanInternal c

@[local spec 20000] theorem scanRegisterNum_steady (n : Nat) (t : Token) :
    Steady N J (scanRegisterNum n t) :=
  (steadyAtBudget n).scanRegisterNum t

@[local spec 20000] theorem scanCharNum_steady (n : Nat) (t : Token) : Steady N J (scanCharNum n t) :=
  (steadyAtBudget n).scanCharNum t

@[local spec 20000] theorem scanDimenOrder_steady (n : Nat) (fil : Bool) :
    Steady N J (scanDimenOrder n fil) :=
  (steadyAtBudget n).scanDimenOrder fil

@[local spec 20000] theorem scanDimenAfter_steady (n : Nat) (c : Cmd) (neg fil : Bool) :
    Steady N J (scanDimenAfter n c neg fil) :=
  (steadyAtBudget n).scanDimenAfter c neg fil

@[local spec 20000] theorem scanKeyword_steady (n : Nat) (kw : String) :
    Steady N J (scanKeyword n kw) :=
  (steadyAtBudget n).scanKeyword kw

@[local spec 20000] theorem theToks_steady (n : Nat) : Steady N J (theToks n) :=
  (steadyAtBudget n).theToks

@[local spec 20000] theorem expand_steady (n : Nat) (t : Token) (d : Meaning) :
    Steady N J (expand n t d) :=
  (steadyAtBudget n).expand t d

@[local spec 20000] theorem scanDimen_steady (n : Nat) : Steady N J (scanDimen n) := by
  unfold scanDimen; mvcgen

@[local spec 20000] theorem scanGlue_steady (n : Nat) : Steady N J (scanGlue n) := by
  unfold scanGlue; mvcgen

@[local spec 20000] theorem getXNonBlankNonRelax_steady (n : Nat) :
    Steady N J (getXNonBlankNonRelax n) := by
  unfold getXNonBlankNonRelax; mvcgen

@[local spec 20000] theorem scanOptionalEquals_steady (n : Nat) : Steady N J (scanOptionalEquals n) := by
  unfold scanOptionalEquals; mvcgen

@[local spec 20000] theorem scanLeftBrace_steady (n : Nat) (t : Token) :
    Steady N J (scanLeftBrace n t) := by
  unfold scanLeftBrace; mvcgen

@[local spec 20000] theorem runawayDefinition_steady {α : Type} (t : Token) :
    Steady N J (runawayDefinition t : EngineM α) := by
  unfold runawayDefinition; mvcgen

@[local spec 20000] theorem scanToks_steady (n : Nat) (t : Token) (expand : Bool) :
    Steady N J (scanToks n t expand) := by
  unfold scanToks; mvcgen

@[local spec 20000] theorem getRToken_steady (t : Token) : Steady N J (getRToken t) := by
  unfold getRToken; mvcgen

@[local spec 20000] theorem scanMacro_steady (n : Nat) (name : Token) (expand : Bool) :
    Steady N J (scanMacro n name expand) := by
  unfold scanMacro; mvcgen

@[local spec 20000] theorem assignValue_steady (n : Nat) (c : Cmd) (k : Key) (global : Bool) :
    Steady N J (assignValue n c k global) := by
  unfold assignValue; mvcgen

@[local spec 20000] theorem registerOf_steady (n : Nat) (c : Cmd) : Steady N J (registerOf n c) := by
  unfold registerOf; mvcgen

@[local spec 20000] theorem overflowAt_steady {α : Type} (t : Token) :
    Steady N J (overflowAt t : EngineM α) := by
  unfold overflowAt; mvcgen

@[local spec 20000] theorem arithmetic_steady (n : Nat) (c : Cmd) (op : Prim) (global : Bool) :
    Steady N J (arithmetic n c op global) := by
  unfold arithmetic; mvcgen

@[local spec 20000] theorem scanFileName_steady (n : Nat) (t : Token) : Steady N J (scanFileName n t) := by
  unfold scanFileName; mvcgen

@[local spec 20000] theorem newFont_steady (n : Nat) (c : Cmd) (global : Bool) :
    Steady N J (newFont n c global) := by
  unfold newFont; mvcgen

@[local spec 20000] theorem scanRuleSpec_steady (n : Nat) (vertical : Bool) :
    Steady N J (scanRuleSpec n vertical) := by
  unfold scanRuleSpec; mvcgen

end Scanning

end EngineM

end Galley
