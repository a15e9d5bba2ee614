import Mathlib
import Galley.Proofs.TailCalls

/-!
# Every space factor is positive

Each frame of the nest carries a space factor, by which `appendSpace` divides the shrink of
interword glue. Only three functions write frames: `pushNest` starts a frame at 1000,
`popNest` drops one, and `modifyCur` changes the innermost one by a function its caller
gives (`Frame.KeepsFactor` says that function keeps a positive factor positive). A box, a
rule or an indent set the factor to 1000; a character sets it by the four-way rule of
`appendChar`, which takes the character's `\sfcode` only when it is positive; and
`\spacefactor` assigns a value it has checked to lie in `1..32767`, after a `fail` that never
returns. Every other change leaves the factor of a frame alone.

So every function of the engine keeps every frame's factor positive, on both of its exits,
and so does a run: every engine reached by processing texts and loading snapshots has a
positive factor in each frame, whatever the snapshots hold, since loading touches only the
table, where an `\sfcode` may be any word. The divisor `appendSpace` reads is never zero.
-/

namespace Galley

open Std.Do

set_option mvcgen.warning false

/-- A frame whose space factor is at least 1. -/
def Frame.FactorPositive (f : Frame) : Prop := 0 < f.spaceFactor

/-- Every frame of the nest has a space factor of at least 1. -/
def Engine.FactorsPositive (e : Engine) : Prop := ∀ f ∈ e.nest, f.FactorPositive

/-- The factor a character leaves: 1000 for an `\sfcode` of 1000, the code when it is in
`1..999`, the factor as it was for a code that is not positive, 1000 for a code above 1000
after a factor below 1000, and the code otherwise. Each of them is positive. -/
theorem factor_after_char_pos {sf cur : Int32} (hcur : 0 < cur) :
    0 < (if sf = 1000 then 1000 else if sf < 1000 then (if sf > 0 then sf else cur)
      else if cur < 1000 then 1000 else sf) := by
  split_ifs with h1 h2 h3 h4
  · decide
  · exact h3
  · exact hcur
  · decide
  · rw [Int32.lt_iff_toInt_lt] at h2 ⊢
    have : sf.toInt ≠ 1000 := fun h => h1 (Int32.toInt_inj.mp (by simpa using h))
    simp only [Int32.reduceToInt, not_lt, gt_iff_lt] at h2 ⊢
    omega

theorem factor_of_checked {v : Int32} (h : ¬(v ≤ 0 ∨ v > 32767)) : 0 < v := by
  rw [not_or, Int32.not_le] at h
  exact h.1

/-- A change of frames that keeps a positive space factor positive. -/
def Frame.KeepsFactor (f : Frame → Frame) : Prop :=
  ∀ fr, fr.FactorPositive → (f fr).FactorPositive

namespace Frame

theorem factorPositive_fresh (m : Mode) : FactorPositive { mode := m } := by
  show (0 : Int32) < 1000
  decide

theorem keepsFactor_of_eq {f : Frame → Frame} (h : ∀ fr, (f fr).spaceFactor = fr.spaceFactor) :
    KeepsFactor f := by
  intro fr hfr
  show 0 < (f fr).spaceFactor
  rw [h fr]
  exact hfr

theorem keepsFactor_set {v : Int32} (hv : 0 < v) :
    KeepsFactor fun fr => { fr with spaceFactor := v } :=
  fun _ _ => hv

end Frame

namespace Engine.FactorsPositive

variable {e : Engine}

theorem modifyCur (h : e.FactorsPositive) {f : Frame → Frame} (hf : Frame.KeepsFactor f) :
    Engine.FactorsPositive { e with nest := match e.nest with
      | [] => []
      | fr :: rest => f fr :: rest } := by
  intro fr' hfr'
  rcases hn : e.nest with _ | ⟨fr, rest⟩ <;> rw [hn] at hfr'
  · simp at hfr'
  · rcases List.mem_cons.mp hfr' with rfl | hmem
    · exact hf fr (h fr (by simp [hn]))
    · exact h fr' (by simp [hn, hmem])

theorem push (h : e.FactorsPositive) (m : Mode) :
    Engine.FactorsPositive { e with nest := { mode := m } :: e.nest } := by
  intro fr hfr
  rcases List.mem_cons.mp hfr with rfl | hmem
  · exact Frame.factorPositive_fresh m
  · exact h fr hmem

theorem pop (h : e.FactorsPositive) {f : Frame} {rest : List Frame} (hn : e.nest = f :: rest) :
    Engine.FactorsPositive { e with nest := rest } :=
  fun fr hfr => h fr (by simp [hn, hfr])

end Engine.FactorsPositive

namespace EngineM

/-- `x` keeps every space factor positive, whether it returns or fails. -/
abbrev KeepsFactors {α : Type} (x : EngineM α) : Prop :=
  ⦃fun e => ⌜e.FactorsPositive⌝⦄ x
  ⦃post⟨fun _ e => ⌜e.FactorsPositive⌝, fun _ e => ⌜e.FactorsPositive⌝⟩⦄

theorem keepsFactors_of_steady {α : Type} {x : EngineM α}
    (h : ∀ N, Steady N .any x) : KeepsFactors x := by
  intro e he
  have hkeep (e' : Engine) (hs : e'.Steady e.nest .any) : e'.FactorsPositive :=
    fun f hf => he f (hs.1 ▸ hf)
  exact Triple.entails_wp_of_post (h e.nest)
    (PostCond.entails.mk (fun _ e' hs => hkeep e' hs) ⟨fun _ e' hs => hkeep e' hs, trivial⟩) e
    ⟨rfl, fun _ _ => trivial⟩

/-- A loop over a list whose body keeps the space factors keeps them. -/
@[local spec 20000] theorem forIn_list_factors {α β : Type} (xs : List α) (init : β)
    (f : α → β → EngineM (ForInStep β)) (h : ∀ a b, KeepsFactors (f a b)) :
    KeepsFactors (forIn xs init f) := by
  refine @Spec.forIn_list_const_inv _ _ _ _ _ _ xs init f
    post⟨fun _ e => ⌜e.FactorsPositive⌝, fun _ e => ⌜e.FactorsPositive⌝⟩ fun a b => ?_
  refine Triple.entails_wp_of_post (h a b)
    (PostCond.entails.mk (fun r => ?_) ExceptConds.entails.rfl)
  cases r <;> exact SPred.entails.rfl

/-- A loop over a range whose body keeps the space factors keeps them. -/
@[local spec 20000] theorem forIn_range_factors {β : Type} (r : Std.Legacy.Range) (init : β)
    (f : Nat → β → EngineM (ForInStep β)) (h : ∀ i b, KeepsFactors (f i b)) :
    KeepsFactors (forIn r init f) := by
  rw [Std.Legacy.Range.forIn_eq_forIn_range']
  exact forIn_list_factors _ init f h

/-! ### Reading, expanding and scanning leave the nest alone -/

@[local spec 20000] theorem fail_factors {α : Type} (k : ErrorKind) (t : Option Token) (m : String) :
    KeepsFactors (fail k t m : EngineM α) :=
  keepsFactors_of_steady fun N => fail_steady (N := N) k t m

/-- `fail` never returns: what a caller does after a failed check is never run. -/
theorem fail_never_returns {α : Type} (k : ErrorKind) (t : Option Token) (m : String) :
    ⦃fun e => ⌜e.FactorsPositive⌝⦄ (fail k t m : EngineM α)
    ⦃post⟨fun _ _ => ⌜False⌝, fun _ e => ⌜e.FactorsPositive⌝⟩⦄ := by
  unfold fail; mvcgen

@[local spec 20000] theorem emit_factors (ev : Event) : KeepsFactors (emit ev) :=
  keepsFactors_of_steady fun N => emit_steady (N := N) ev

@[local spec 20000] theorem next_factors : KeepsFactors next :=
  keepsFactors_of_steady fun N => next_steady (N := N)

@[local spec 20000] theorem back_factors (t : Token) (frozen : Bool) : KeepsFactors (back t frozen) :=
  keepsFactors_of_steady fun N => back_steady (N := N) t frozen

@[local spec 20000] theorem backCmd_factors (c : Cmd) : KeepsFactors (backCmd c) :=
  keepsFactors_of_steady fun N => backCmd_steady (N := N) c

@[local spec 20000] theorem backList_factors (l : List Token) : KeepsFactors (backList l) :=
  keepsFactors_of_steady fun N => backList_steady (N := N) l

@[local spec 20000] theorem push_factors (l : List Token) (t : Token) : KeepsFactors (push l t) :=
  keepsFactors_of_steady fun N => push_steady (N := N) l t

@[local spec 20000] theorem nextNonBlank_factors : KeepsFactors nextNonBlank :=
  keepsFactors_of_steady fun N => nextNonBlank_steady (N := N)

@[local spec 20000] theorem meaningOf_factors (t : Token) : KeepsFactors (meaningOf t) :=
  keepsFactors_of_steady fun N => meaningOf_steady (N := N) t

@[local spec 20000] theorem assign_factors (k : Key) (v : Equivalent) (global : Bool) :
    KeepsFactors (assign k v global) :=
  keepsFactors_of_steady fun N => assign_steady (N := N) k v global

@[local spec 20000] theorem runaway_factors {α : Type} (t : Token) :
    KeepsFactors (runaway t : EngineM α) :=
  keepsFactors_of_steady fun N => runaway_steady (N := N) t

@[local spec 20000] theorem getX_factors (n : Nat) : KeepsFactors (getX n) :=
  keepsFactors_of_steady fun N => getX_steady N .any n

@[local spec 20000] theorem expand_factors (n : Nat) (t : Token) (d : Meaning) :
    KeepsFactors (expand n t d) :=
  keepsFactors_of_steady fun N => expand_steady N .any n t d

@[local spec 20000] theorem getXNonBlank_factors (n : Nat) : KeepsFactors (getXNonBlank n) :=
  keepsFactors_of_steady fun N => getXNonBlank_steady N .any n

@[local spec 20000] theorem scanInt_factors (n : Nat) : KeepsFactors (scanInt n) :=
  keepsFactors_of_steady fun N => scanInt_steady N .any n

@[local spec 20000] theorem scanRegisterNum_factors (n : Nat) (t : Token) :
    KeepsFactors (scanRegisterNum n t) :=
  keepsFactors_of_steady fun N => scanRegisterNum_steady N .any n t

@[local spec 20000] theorem scanCharNum_factors (n : Nat) (t : Token) :
    KeepsFactors (scanCharNum n t) :=
  keepsFactors_of_steady fun N => scanCharNum_steady N .any n t

@[local spec 20000] theorem scanKeyword_factors (n : Nat) (kw : String) :
    KeepsFactors (scanKeyword n kw) :=
  keepsFactors_of_steady fun N => scanKeyword_steady N .any n kw

@[local spec 20000] theorem scanDimen_factors (n : Nat) : KeepsFactors (scanDimen n) :=
  keepsFactors_of_steady fun N => scanDimen_steady N .any n

@[local spec 20000] theorem scanGlue_factors (n : Nat) : KeepsFactors (scanGlue n) :=
  keepsFactors_of_steady fun N => scanGlue_steady N .any n

@[local spec 20000] theorem getXNonBlankNonRelax_factors (n : Nat) :
    KeepsFactors (getXNonBlankNonRelax n) :=
  keepsFactors_of_steady fun N => getXNonBlankNonRelax_steady N .any n

@[local spec 20000] theorem scanOptionalEquals_factors (n : Nat) :
    KeepsFactors (scanOptionalEquals n) :=
  keepsFactors_of_steady fun N => scanOptionalEquals_steady N .any n

@[local spec 20000] theorem scanLeftBrace_factors (n : Nat) (t : Token) :
    KeepsFactors (scanLeftBrace n t) :=
  keepsFactors_of_steady fun N => scanLeftBrace_steady N .any n t

@[local spec 20000] theorem scanToks_factors (n : Nat) (t : Token) (expand : Bool) :
    KeepsFactors (scanToks n t expand) :=
  keepsFactors_of_steady fun N => scanToks_steady N .any n t expand

@[local spec 20000] theorem getRToken_factors (t : Token) : KeepsFactors (getRToken t) :=
  keepsFactors_of_steady fun N => getRToken_steady N .any t

@[local spec 20000] theorem scanMacro_factors (n : Nat) (name : Token) (expand : Bool) :
    KeepsFactors (scanMacro n name expand) :=
  keepsFactors_of_steady fun N => scanMacro_steady N .any n name expand

@[local spec 20000] theorem assignValue_factors (n : Nat) (c : Cmd) (k : Key) (global : Bool) :
    KeepsFactors (assignValue n c k global) :=
  keepsFactors_of_steady fun N => assignValue_steady N .any n c k global

@[local spec 20000] theorem arithmetic_factors (n : Nat) (c : Cmd) (op : Prim) (global : Bool) :
    KeepsFactors (arithmetic n c op global) :=
  keepsFactors_of_steady fun N => arithmetic_steady N .any n c op global

@[local spec 20000] theorem newFont_factors (n : Nat) (c : Cmd) (global : Bool) :
    KeepsFactors (newFont n c global) :=
  keepsFactors_of_steady fun N => newFont_steady N .any n c global

@[local spec 20000] theorem scanRuleSpec_factors (n : Nat) (vertical : Bool) :
    KeepsFactors (scanRuleSpec n vertical) :=
  keepsFactors_of_steady fun N => scanRuleSpec_steady N .any n vertical

/-! ### The writes of frames -/

/-- A change of the innermost frame keeps the factors when it keeps a positive factor
positive; each caller shows that of the change it makes. -/
@[local spec 20000] theorem modifyCur_factors (f : Frame → Frame) (hf : Frame.KeepsFactor f) :
    KeepsFactors (modifyCur f) := by
  unfold modifyCur; mvcgen
  exact Engine.FactorsPositive.modifyCur ‹_› hf

@[local spec 20000] theorem openGroup_factors (g : Group) : KeepsFactors (openGroup g) := by
  unfold openGroup; mvcgen

@[local spec 20000] theorem closeGroup_factors : KeepsFactors closeGroup := by
  unfold closeGroup; mvcgen

@[local spec 20000] theorem appendItem_factors (it : Item) : KeepsFactors (appendItem it) := by
  unfold appendItem; mvcgen
  exact fun _ _ => Frame.keepsFactor_of_eq fun _ => rfl

@[local spec 20000] theorem pushNest_factors (m : Mode) : KeepsFactors (pushNest m) := by
  unfold pushNest; mvcgen
  exact Engine.FactorsPositive.push ‹_› m

@[local spec 20000] theorem popNest_factors : KeepsFactors popNest := by
  unfold popNest; mvcgen
  exact Engine.FactorsPositive.pop ‹_› ‹_›

@[local spec 20000] theorem packed_factors (b : Box) (r : PackReport) :
    KeepsFactors (packed b r) := by
  unfold packed; mvcgen

@[local spec 20000] theorem appendToVList_factors (b : Box) : KeepsFactors (appendToVList b) := by
  -- without its trivial closers, which try to decide the comparisons of the branches
  unfold appendToVList; mvcgen -trivial
  all_goals first
    | assumption
    | exact fun _ _ => Frame.keepsFactor_of_eq fun _ => rfl

/-- A character sets the factor by its `\sfcode`, keeping it positive whatever the code. -/
@[local spec 20000] theorem appendChar_factors (r : Nat) : KeepsFactors (appendChar r) := by
  unfold appendChar; mvcgen
  exact fun _ _ _ hfr => factor_after_char_pos hfr

@[local spec 20000] theorem appendSpace_factors : KeepsFactors appendSpace := by
  unfold appendSpace; mvcgen

@[local spec 20000] theorem newParagraph_factors (indent : Bool) :
    KeepsFactors (newParagraph indent) := by
  unfold newParagraph; mvcgen

@[local spec 20000] theorem endParagraph_factors : KeepsFactors endParagraph := by
  unfold endParagraph; mvcgen

@[local spec 20000] theorem boxEnd_factors (target : BoxTarget) (b : Option Box) :
    KeepsFactors (boxEnd target b) := by
  unfold boxEnd; mvcgen
  exact fun _ _ => Frame.keepsFactor_set (by decide)

/-! ### Main control -/

@[local spec 20000] theorem beginBox_factors (n : Nat) (c : Cmd) (target : BoxTarget) :
    KeepsFactors (beginBox n c target) := by
  unfold beginBox; mvcgen

@[local spec 20000] theorem scanBox_factors (n : Nat) (t : Token) (target : BoxTarget) :
    KeepsFactors (scanBox n t target) := by
  unfold scanBox; mvcgen

@[local spec 20000] theorem assignCmd_factors (n : Nat) (c : Cmd) (global long : Bool) :
    KeepsFactors (assignCmd n c global long) := by
  -- the value `\spacefactor` sets is known to pass its check only because `fail` never returns
  unfold assignCmd; mvcgen [fail_never_returns, -fail_factors, -fail_keeps]
  all_goals first
    | exact fun _ _ => Frame.keepsFactor_of_eq fun _ => rfl
    | exact fun _ _ => Frame.keepsFactor_set (factor_of_checked ‹_›)
    | exact False.elim

@[local spec 20000] theorem prefixed_factors (n : Nat) (c : Cmd) : KeepsFactors (prefixed n c) := by
  unfold prefixed; mvcgen

@[local spec 20000] theorem typeset_factors (r : Nat) : KeepsFactors (typeset r) := by
  unfold typeset; mvcgen

@[local spec 20000] theorem horizontalCmd_factors (c : Cmd) : KeepsFactors (horizontalCmd c) := by
  unfold horizontalCmd; mvcgen

@[local spec 20000] theorem verticalCmd_factors (c : Cmd) : KeepsFactors (verticalCmd c) := by
  unfold verticalCmd; mvcgen

@[local spec 20000] theorem handleRightBrace_factors (c : Cmd) :
    KeepsFactors (handleRightBrace c) := by
  unfold handleRightBrace; mvcgen

@[local spec 20000] theorem charCmd_factors (c : Cmd) (t : Token) : KeepsFactors (charCmd c t) := by
  unfold charCmd; mvcgen

@[local spec 20000] theorem finish_factors : KeepsFactors finish := by
  unfold finish; mvcgen

@[local spec 20000] theorem primitiveCmd_factors (n : Nat) (c : Cmd) (name : String) (p : Prim) :
    KeepsFactors (primitiveCmd n c name p) := by
  unfold primitiveCmd; mvcgen
  all_goals first
    | exact fun _ _ => Frame.keepsFactor_of_eq fun _ => rfl
    | exact fun _ _ => Frame.keepsFactor_set (by decide)

@[local spec 20000] theorem dispatch_factors (n : Nat) (c : Cmd) : KeepsFactors (dispatch n c) := by
  unfold dispatch; mvcgen

@[local spec 20000] theorem mainControl_factors : KeepsFactors mainControl := by
  unfold mainControl; mvcgen

@[local spec 20000] theorem closeAll_factors : KeepsFactors closeAll := by
  unfold closeAll; mvcgen

/-! ### Runs -/

/-- A program that keeps the space factors positive leaves them so, whether it returns or
fails. -/
theorem KeepsFactors.run {α : Type} {x : EngineM α} (h : KeepsFactors x) {e : Engine}
    (he : e.FactorsPositive) : (x.run.run e).2.FactorsPositive := by
  have hr := run_of_triple h he
  rcases hx : x.run.run e with ⟨_ | _, e'⟩ <;> rw [hx] at hr <;> exact hr

end EngineM

namespace Engine

theorem factorsPositive_outer (e : Engine) (h : e.nest = [{ mode := .vertical }]) :
    e.FactorsPositive := by
  intro f hf
  rw [h, List.mem_singleton] at hf
  exact hf ▸ Frame.factorPositive_fresh .vertical

/-- Processing a text leaves every space factor positive, whether it ends or fails: it
starts from the outer frame alone, whatever the engine held before. -/
theorem FactorsPositive.process (e : Engine) (text : String) :
    (e.process text).1.FactorsPositive := by
  have hmain := EngineM.mainControl_factors.run (factorsPositive_outer (e.start text) rfl)
  rw [Engine.process_eq]
  split
  · next e' hrun => simpa [hrun] using hmain
  · next err e' hrun =>
    have he' : e'.FactorsPositive := by simpa [hrun] using hmain
    exact EngineM.closeAll_factors.run he'

/-- Every engine a run reaches has a positive space factor in each frame. -/
theorem Reachable.factorsPositive {L : Snapshot → Prop} {e : Engine} (h : e.Reachable L) :
    e.FactorsPositive := by
  induction h with
  | create o => exact factorsPositive_outer _ rfl
  | process text _ _ => exact FactorsPositive.process _ text
  | load _ _ ih =>
    obtain ⟨t, ht⟩ := load_table_only _ _
    rw [ht]
    exact ih

/-- The factor of the innermost frame, the divisor `appendSpace` reads, is positive; an empty
nest reads as the outer frame at 1000. -/
theorem FactorsPositive.cur_pos {e : Engine} (h : e.FactorsPositive) : 0 < e.cur.spaceFactor := by
  unfold Engine.cur
  rcases hn : e.nest with _ | ⟨f, rest⟩
  · decide
  · exact h f (by simp [hn])

end Engine

/-- Every engine reached by processing texts and loading snapshots has a positive space
factor in every frame, so the divisor `appendSpace` scales the shrink of a space by is never
zero; and every command, whether it returns or fails, keeps every factor positive. -/
theorem space_factor_positive :
    (∀ (L : Snapshot → Prop) (e : Engine), e.Reachable L →
      e.FactorsPositive ∧ 0 < e.cur.spaceFactor) ∧
    (∀ (n : Nat) (c : Cmd), EngineM.KeepsFactors (EngineM.dispatch n c)) := by
  refine ⟨fun L e h => ?_, EngineM.dispatch_factors⟩
  have hpos := h.factorsPositive
  exact ⟨hpos, hpos.cur_pos⟩

/-- After a text processed by a fresh engine, the divisor of a space is positive. -/
theorem space_factor_positive_after_text :
    ((Engine.create {}).process "a b").1.Reachable (fun _ => True) ∧
      0 < ((Engine.create {}).process "a b").1.cur.spaceFactor :=
  ⟨.process _ (.create _),
    (space_factor_positive.1 (fun _ => True) _ (.process _ (.create _))).2⟩

end Galley
