import Mathlib
import Galley.Proofs.Pending

/-!
# Every pending list has a token left

The stack of pending token lists never holds an empty list (`Engine.Live`): `next` drops a
list as soon as it has read its last token, and `back`, `backList` and `push` put only
non-empty lists in front. Every function of the engine keeps it, on both of its exits; a
text is processed from an empty stack, so every engine a run reaches has it.

The stack is never deeper than the number of tokens pending on it, so a push fails on a
full stack only when that many tokens wait to be read: the stack fills with nested
expansions whose texts have not been read to their ends. What this means for a macro that
calls itself at the end of its text is worked out with the tail calls.
-/

namespace Galley

open Std.Do

set_option mvcgen.warning false

/-- Every pending list of the engine has a token left. -/
def Engine.Live (e : Engine) : Prop := ∀ s ∈ e.inputs, s.toks ≠ []

namespace EngineM

/-- `x` keeps every pending list non-empty, whether it returns or fails. -/
abbrev KeepsLive {α : Type} (x : EngineM α) : Prop :=
  ⦃fun e => ⌜e.Live⌝⦄ x ⦃post⟨fun _ e => ⌜e.Live⌝, fun _ e => ⌜e.Live⌝⟩⦄

theorem keepsLive_of_steady {α : Type} {x : EngineM α}
    (h : ∀ N, Steady N .unread x) : KeepsLive x := by
  intro e he
  refine Triple.entails_wp_of_post (h e.nest)
    (PostCond.entails.mk (fun _ _ hs => hs.2) ⟨fun _ _ hs => hs.2, trivial⟩) e ⟨rfl, he⟩

/-- A loop over a list whose body keeps the pending lists non-empty keeps them. -/
@[local spec 20000] theorem forIn_list_live {α β : Type} (xs : List α) (init : β)
    (f : α → β → EngineM (ForInStep β)) (h : ∀ a b, KeepsLive (f a b)) :
    KeepsLive (forIn xs init f) := by
  refine @Spec.forIn_list_const_inv _ _ _ _ _ _ xs init f
    post⟨fun _ e => ⌜e.Live⌝, fun _ e => ⌜e.Live⌝⟩ fun a b => ?_
  refine Triple.entails_wp_of_post (h a b)
    (PostCond.entails.mk (fun r => ?_) ExceptConds.entails.rfl)
  cases r <;> exact SPred.entails.rfl

/-- A loop over a range whose body keeps the pending lists non-empty keeps them. -/
@[local spec 20000] theorem forIn_range_live {β : Type} (r : Std.Legacy.Range) (init : β)
    (f : Nat → β → EngineM (ForInStep β)) (h : ∀ i b, KeepsLive (f i b)) :
    KeepsLive (forIn r init f) := by
  rw [Std.Legacy.Range.forIn_eq_forIn_range']
  exact forIn_list_live _ init f h

/-! ### Reading, expanding and scanning -/

@[local spec 20000] theorem fail_live {α : Type} (k : ErrorKind) (t : Option Token) (m : String) :
    KeepsLive (fail k t m : EngineM α) :=
  keepsLive_of_steady fun N => fail_steady (N := N) k t m

@[local spec 20000] theorem emit_live (ev : Event) : KeepsLive (emit ev) :=
  keepsLive_of_steady fun N => emit_steady (N := N) ev

@[local spec 20000] theorem next_live : KeepsLive next :=
  keepsLive_of_steady fun N => next_steady (N := N)

@[local spec 20000] theorem back_live (t : Token) (frozen : Bool) : KeepsLive (back t frozen) :=
  keepsLive_of_steady fun N => back_steady (N := N) t frozen

@[local spec 20000] theorem backCmd_live (c : Cmd) : KeepsLive (backCmd c) :=
  keepsLive_of_steady fun N => backCmd_steady (N := N) c

@[local spec 20000] theorem backList_live (l : List Token) : KeepsLive (backList l) :=
  keepsLive_of_steady fun N => backList_steady (N := N) l

@[local spec 20000] theorem push_live (l : List Token) (t : Token) : KeepsLive (push l t) :=
  keepsLive_of_steady fun N => push_steady (N := N) l t

@[local spec 20000] theorem nextNonBlank_live : KeepsLive nextNonBlank :=
  keepsLive_of_steady fun N => nextNonBlank_steady (N := N)

@[local spec 20000] theorem meaningOf_live (t : Token) : KeepsLive (meaningOf t) :=
  keepsLive_of_steady fun N => meaningOf_steady (N := N) t

@[local spec 20000] theorem assign_live (k : Key) (v : Equivalent) (global : Bool) :
    KeepsLive (assign k v global) :=
  keepsLive_of_steady fun N => assign_steady (N := N) k v global

@[local spec 20000] theorem runaway_live {α : Type} (t : Token) : KeepsLive (runaway t : EngineM α) :=
  keepsLive_of_steady fun N => runaway_steady (N := N) t

@[local spec 20000] theorem getX_live (n : Nat) : KeepsLive (getX n) :=
  keepsLive_of_steady fun N => getX_steady N .unread n

@[local spec 20000] theorem expand_live (n : Nat) (t : Token) (d : Meaning) :
    KeepsLive (expand n t d) :=
  keepsLive_of_steady fun N => expand_steady N .unread n t d

@[local spec 20000] theorem getXNonBlank_live (n : Nat) : KeepsLive (getXNonBlank n) :=
  keepsLive_of_steady fun N => getXNonBlank_steady N .unread n

@[local spec 20000] theorem scanInt_live (n : Nat) : KeepsLive (scanInt n) :=
  keepsLive_of_steady fun N => scanInt_steady N .unread n

@[local spec 20000] theorem scanRegisterNum_live (n : Nat) (t : Token) :
    KeepsLive (scanRegisterNum n t) :=
  keepsLive_of_steady fun N => scanRegisterNum_steady N .unread n t

@[local spec 20000] theorem scanCharNum_live (n : Nat) (t : Token) : KeepsLive (scanCharNum n t) :=
  keepsLive_of_steady fun N => scanCharNum_steady N .unread n t

@[local spec 20000] theorem scanKeyword_live (n : Nat) (kw : String) : KeepsLive (scanKeyword n kw) :=
  keepsLive_of_steady fun N => scanKeyword_steady N .unread n kw

@[local spec 20000] theorem scanDimen_live (n : Nat) : KeepsLive (scanDimen n) :=
  keepsLive_of_steady fun N => scanDimen_steady N .unread n

@[local spec 20000] theorem scanGlue_live (n : Nat) : KeepsLive (scanGlue n) :=
  keepsLive_of_steady fun N => scanGlue_steady N .unread n

@[local spec 20000] theorem getXNonBlankNonRelax_live (n : Nat) :
    KeepsLive (getXNonBlankNonRelax n) :=
  keepsLive_of_steady fun N => getXNonBlankNonRelax_steady N .unread n

@[local spec 20000] theorem scanOptionalEquals_live (n : Nat) : KeepsLive (scanOptionalEquals n) :=
  keepsLive_of_steady fun N => scanOptionalEquals_steady N .unread n

@[local spec 20000] theorem scanLeftBrace_live (n : Nat) (t : Token) : KeepsLive (scanLeftBrace n t) :=
  keepsLive_of_steady fun N => scanLeftBrace_steady N .unread n t

@[local spec 20000] theorem scanToks_live (n : Nat) (t : Token) (expand : Bool) :
    KeepsLive (scanToks n t expand) :=
  keepsLive_of_steady fun N => scanToks_steady N .unread n t expand

@[local spec 20000] theorem getRToken_live (t : Token) : KeepsLive (getRToken t) :=
  keepsLive_of_steady fun N => getRToken_steady N .unread t

@[local spec 20000] theorem scanMacro_live (n : Nat) (name : Token) (expand : Bool) :
    KeepsLive (scanMacro n name expand) :=
  keepsLive_of_steady fun N => scanMacro_steady N .unread n name expand

@[local spec 20000] theorem assignValue_live (n : Nat) (c : Cmd) (k : Key) (global : Bool) :
    KeepsLive (assignValue n c k global) :=
  keepsLive_of_steady fun N => assignValue_steady N .unread n c k global

@[local spec 20000] theorem arithmetic_live (n : Nat) (c : Cmd) (op : Prim) (global : Bool) :
    KeepsLive (arithmetic n c op global) :=
  keepsLive_of_steady fun N => arithmetic_steady N .unread n c op global

@[local spec 20000] theorem newFont_live (n : Nat) (c : Cmd) (global : Bool) :
    KeepsLive (newFont n c global) :=
  keepsLive_of_steady fun N => newFont_steady N .unread n c global

@[local spec 20000] theorem scanRuleSpec_live (n : Nat) (vertical : Bool) :
    KeepsLive (scanRuleSpec n vertical) :=
  keepsLive_of_steady fun N => scanRuleSpec_steady N .unread n vertical

/-! ### Groups, modes and lists -/

@[local spec 20000] theorem openGroup_live (g : Group) : KeepsLive (openGroup g) := by
  unfold openGroup; mvcgen

@[local spec 20000] theorem closeGroup_live : KeepsLive closeGroup := by
  unfold closeGroup; mvcgen

@[local spec 20000] theorem modifyCur_live (f : Frame → Frame) : KeepsLive (modifyCur f) := by
  unfold modifyCur; mvcgen

@[local spec 20000] theorem appendItem_live (it : Item) : KeepsLive (appendItem it) := by
  unfold appendItem; mvcgen

@[local spec 20000] theorem pushNest_live (m : Mode) : KeepsLive (pushNest m) := by
  unfold pushNest; mvcgen

@[local spec 20000] theorem popNest_live : KeepsLive popNest := by
  unfold popNest; mvcgen

@[local spec 20000] theorem packed_live (b : Box) (r : PackReport) : KeepsLive (packed b r) := by
  unfold packed; mvcgen

@[local spec 20000] theorem appendToVList_live (b : Box) : KeepsLive (appendToVList b) := by
  unfold appendToVList; mvcgen

@[local spec 20000] theorem appendChar_live (r : Nat) : KeepsLive (appendChar r) := by
  unfold appendChar; mvcgen

@[local spec 20000] theorem appendSpace_live : KeepsLive appendSpace := by
  unfold appendSpace; mvcgen

@[local spec 20000] theorem newParagraph_live (indent : Bool) : KeepsLive (newParagraph indent) := by
  unfold newParagraph; mvcgen

@[local spec 20000] theorem endParagraph_live : KeepsLive endParagraph := by
  unfold endParagraph; mvcgen

@[local spec 20000] theorem boxEnd_live (target : BoxTarget) (b : Option Box) :
    KeepsLive (boxEnd target b) := by
  unfold boxEnd; mvcgen

/-! ### Main control -/

@[local spec 20000] theorem beginBox_live (n : Nat) (c : Cmd) (target : BoxTarget) :
    KeepsLive (beginBox n c target) := by
  unfold beginBox; mvcgen

@[local spec 20000] theorem scanBox_live (n : Nat) (t : Token) (target : BoxTarget) :
    KeepsLive (scanBox n t target) := by
  unfold scanBox; mvcgen

@[local spec 20000] theorem assignCmd_live (n : Nat) (c : Cmd) (global long : Bool) :
    KeepsLive (assignCmd n c global long) := by
  unfold assignCmd; mvcgen

@[local spec 20000] theorem prefixed_live (n : Nat) (c : Cmd) : KeepsLive (prefixed n c) := by
  unfold prefixed; mvcgen

@[local spec 20000] theorem typeset_live (r : Nat) : KeepsLive (typeset r) := by
  unfold typeset; mvcgen

@[local spec 20000] theorem horizontalCmd_live (c : Cmd) : KeepsLive (horizontalCmd c) := by
  unfold horizontalCmd; mvcgen

@[local spec 20000] theorem verticalCmd_live (c : Cmd) : KeepsLive (verticalCmd c) := by
  unfold verticalCmd; mvcgen

@[local spec 20000] theorem handleRightBrace_live (c : Cmd) : KeepsLive (handleRightBrace c) := by
  unfold handleRightBrace; mvcgen

@[local spec 20000] theorem charCmd_live (c : Cmd) (t : Token) : KeepsLive (charCmd c t) := by
  unfold charCmd; mvcgen

@[local spec 20000] theorem finish_live : KeepsLive finish := by
  unfold finish; mvcgen

@[local spec 20000] theorem primitiveCmd_live (n : Nat) (c : Cmd) (name : String) (p : Prim) :
    KeepsLive (primitiveCmd n c name p) := by
  unfold primitiveCmd; mvcgen

@[local spec 20000] theorem dispatch_live (n : Nat) (c : Cmd) : KeepsLive (dispatch n c) := by
  unfold dispatch; mvcgen

@[local spec 20000] theorem mainControl_live : KeepsLive mainControl := by
  unfold mainControl; mvcgen

@[local spec 20000] theorem closeAll_live : KeepsLive closeAll := by
  unfold closeAll; mvcgen

/-! ### Runs -/

/-- A program that keeps the pending lists non-empty leaves them so, whether it returns or
fails. -/
theorem KeepsLive.run {α : Type} {x : EngineM α} (h : KeepsLive x) {e : Engine} (he : e.Live) :
    (x.run.run e).2.Live := by
  have hr := run_of_triple h he
  rcases hx : x.run.run e with ⟨_ | _, e'⟩ <;> rw [hx] at hr <;> exact hr

/-- A push fails only on a stack of `maxDepth` pending lists or more. -/
theorem push_fails_on_full_stack (l : List Token) (t : Token) (e : Engine) :
    ⦃fun x => ⌜x = e⌝⦄ push l t
    ⦃post⟨fun _ _ => ⌜True⌝,
      fun _ _ => ⌜0 < e.options.maxDepth ∧ e.options.maxDepth ≤ (e.inputs.length : Int)⌝⟩⦄ := by
  unfold push
  mvcgen [fail, -fail_live, -fail_keeps]
  all_goals simp_all

end EngineM

namespace Engine

theorem Live.start (e : Engine) (text : String) : (e.start text).Live := by
  intro s hs
  simp [Engine.start] at hs

/-- Processing a text leaves every pending list non-empty, whether it ends or fails. -/
theorem Live.process (e : Engine) (text : String) : (e.process text).1.Live := by
  have hmain := EngineM.mainControl_live.run (Live.start e text)
  rw [Engine.process_eq]
  split
  · next e' hrun => simpa [hrun] using hmain
  · next err e' hrun =>
    have he' : e'.Live := by simpa [hrun] using hmain
    exact EngineM.closeAll_live.run he'

theorem loadEntries_table_only (e : Engine) (xs : List Entry) :
    ∃ t, (e.loadEntries xs).1 = { e with table := t } := by
  induction xs generalizing e with
  | nil => exact ⟨e.table, rfl⟩
  | cons x xs ih =>
    unfold loadEntries
    split
    · exact ⟨e.table, rfl⟩
    · exact ih _

theorem load_table_only (e : Engine) (s : Snapshot) : ∃ t, (e.load s).1 = { e with table := t } := by
  unfold load
  split
  · exact ⟨e.table, rfl⟩
  · exact loadEntries_table_only e _

/-- Every engine a run reaches has a token left in each pending list. -/
theorem Reachable.live {L : Snapshot → Prop} {e : Engine} (h : e.Reachable L) : e.Live := by
  induction h with
  | create o =>
    intro s hs
    simp [Engine.create] at hs
  | process text _ _ => exact Live.process _ text
  | load _ _ ih =>
    obtain ⟨t, ht⟩ := load_table_only _ _
    rw [ht]
    exact ih

/-- A live stack is no deeper than the number of tokens pending on it. -/
theorem Live.length_le_pending {e : Engine} (h : e.Live) :
    e.inputs.length ≤ (e.inputs.map (·.toks.length)).sum := by
  rw [← List.length_map (f := fun s : Source => s.toks.length)]
  refine List.length_le_sum_of_one_le _ fun k hk => ?_
  obtain ⟨s, hs, rfl⟩ := List.mem_map.1 hk
  exact List.length_pos_iff.2 (h s hs)

end Engine

end Galley
