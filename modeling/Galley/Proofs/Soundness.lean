import Mathlib
import Galley.Proofs.Writes
import Galley.Format.Dump

/-!
# Every command keeps the engine sound, and so does a run

The specs of `Galley.Proofs.Writes` carried on through the rest of the engine: the changes
of groups and modes, the lists, boxes, definitions and assignments, and main control. Each
function keeps `Engine.Sound I V T o` on both of its exits, for every table invariant `I`.

Closing a group is the one write logged after it is made: the table takes the restored
values at once, and the loop that logs them carries the restores still to log. A definition
numbers the placeholders of its body by the parameters it has read, and an assignment or a
prefix is carried out for a command whose meaning the table gave, so the invariant allows
it.

Then a whole run: `Engine.process` keeps the engine sound, and every engine reachable from a
fresh one, by texts processed and snapshots loaded, holds an invariant that the fresh
engines and the loaded entries hold.
-/

namespace Galley

open Std.Do

set_option mvcgen.warning false

namespace EngineM

variable {I : TableInvariant} {V : Key → Equivalent} {T : List Traced} {o : EngineOptions}

-- The specs of the functions called here, local to `Galley.Proofs.Writes`, are taken up again.
attribute [local spec 20000] emit_wp fail_fails next_safe back_safe backCmd_safe nextNonBlank_safe
  assign_safe meaningOf_safe runawayDefinition_fails theToks_safe expand_safe forIn_list_safe
  forIn_range_safe

/-! ### Groups, modes and lists -/

@[local spec 20000] theorem openGroup_safe (g : Group) : Safe I V T o (openGroup g) := by
  unfold openGroup; mvcgen
  exact Engine.Sound.openGroup ‹_› g

@[local spec 20000] theorem closeGroup_safe : Safe I V T o closeGroup := by
  unfold closeGroup
  mvcgen [-forIn_list_safe, -forIn_list_keeps] invariants
  | inv1 => post⟨fun p e => ⌜e.options = o ∧ e.table.Holds I.holds ∧ (o.tracing = true →
      Logs V T (p.fst.suffix.map fun kv => .restore kv.1 kv.2) e.table e.trace.toList)⌝,
      fun _ e => ⌜e.Sound I V T o⌝⟩
  case vc2.step =>
    rename_i h
    refine ⟨by simpa using h.1, by simpa using h.2.1, fun htr => ?_⟩
    rw [Engine.logged_trace _ _ (h.1 ▸ htr), Engine.logged_table]
    exact (h.2.2 htr).push_pending _
  case vc3.h_2.pre =>
    rename_i h _ _ _ hc
    exact ⟨h.1, h.2.1.closeGroup hc, fun htr => (h.2.2 htr).close (Scope.Table.get_closeGroup hc)⟩

@[local spec 20000] theorem modifyCur_safe (f : Frame → Frame) : Safe I V T o (modifyCur f) := by
  unfold modifyCur; mvcgen

@[local spec 20000] theorem appendItem_safe (it : Item) : Safe I V T o (appendItem it) := by
  unfold appendItem; mvcgen

@[local spec 20000] theorem pushNest_safe (m : Mode) : Safe I V T o (pushNest m) := by
  unfold pushNest; mvcgen
  all_goals grind [Engine.Sound, Engine.Sound.logged, Event.sets]

@[local spec 20000] theorem popNest_safe : Safe I V T o popNest := by
  unfold popNest; mvcgen
  all_goals grind [Engine.Sound, Engine.Sound.logged, Event.sets]

@[local spec 20000] theorem packed_safe (b : Box) (r : PackReport) : Safe I V T o (packed b r) := by
  unfold packed; mvcgen
  exact Engine.Sound.logged ‹_› rfl

@[local spec 20000] theorem appendToVList_safe (b : Box) : Safe I V T o (appendToVList b) := by
  unfold appendToVList; mvcgen

@[local spec 20000] theorem appendChar_safe (r : Nat) : Safe I V T o (appendChar r) := by
  unfold appendChar; mvcgen
  all_goals grind [Engine.Sound.logged, Event.sets]

@[local spec 20000] theorem appendSpace_safe : Safe I V T o appendSpace := by
  unfold appendSpace; mvcgen

@[local spec 20000] theorem newParagraph_safe (indent : Bool) :
    Safe I V T o (newParagraph indent) := by
  unfold newParagraph; mvcgen

@[local spec 20000] theorem endParagraph_safe : Safe I V T o endParagraph := by
  unfold endParagraph; mvcgen

@[local spec 20000] theorem boxEnd_safe (target : BoxTarget) (b : Option Box) :
    Safe I V T o (boxEnd target b) := by
  unfold boxEnd; mvcgen
  all_goals grind [TableInvariant.box]

/-! ### Boxes, definitions and assignments -/

attribute [local spec 20000] scanRegisterNum_safe scanKeyword_safe scanDimen_safe scanLeftBrace_safe
  getXNonBlankNonRelax_safe

@[local spec 20000] theorem beginBox_safe (n : Nat) (c : Cmd) (target : BoxTarget) :
    Safe I V T o (beginBox n c target) := by
  unfold beginBox; mvcgen
  all_goals grind [Engine.Sound.poke, Engine.get_of_boxReg, TableInvariant.box]

@[local spec 20000] theorem scanBox_safe (n : Nat) (t : Token) (target : BoxTarget) :
    Safe I V T o (scanBox n t target) := by
  unfold scanBox; mvcgen
  all_goals grind

theorem scanMacro_numbered (n : Nat) (name : Token) (expand : Bool) :
    SafeWith I V T o Macro.Numbered (scanMacro n name expand) := by
  unfold scanMacro
  -- the parameter loop counts the parameters it pushes; the body loop bounds every
  -- placeholder by that count, so its invariant is given where the count is in scope
  mvcgen [-forIn_range_safe, -forIn_range_keeps]
  case inv1 => exact post⟨fun p e => ⌜e.Sound I V T o ∧
      ({ params := p.snd.1.toList } : Macro).arity = p.snd.2.1⌝, fun _ e => ⌜e.Sound I V T o⌝⟩
  case inv2 =>
    rename_i r _ _ _ _ _ _ _ _ _
    exact post⟨fun p e => ⌜e.Sound I V T o ∧ (∀ m, p.snd.1 = some m → m.Numbered) ∧
      ∀ q, MacroElem.param q ∈ p.snd.2.1.toList → 1 ≤ q ∧ q ≤ r.2.1⌝, fun _ e => ⌜e.Sound I V T o⌝⟩
  all_goals grind [Macro.Numbered, Macro.arity]

attribute [local spec 20000] scanMacro_numbered getRToken_safe scanOptionalEquals_safe
  scanCharNum_safe scanInt_safe assignValue_safe arithmetic_safe newFont_safe scanGlue_safe
  registerOf_safe runaway_fails

@[local spec 20000] theorem assignCmd_safe (n : Nat) (c : Cmd) (global long : Bool)
    (hc : I.Allows c.meaning) : Safe I V T o (assignCmd n c global long) := by
  unfold assignCmd; mvcgen
  all_goals grind [TableInvariant.meaningKey, TableInvariant.Allows, TableInvariant.relax,
    TableInvariant.charDef, TableInvariant.register, TableInvariant.defined, TableInvariant.font,
    TableInvariant.category, TableInvariant.sfcode, TableInvariant.box, Engine.Sound.logged_frame,
    Engine.Sound.poke, Engine.get_of_boxReg, TableInvariant.frame_prevDepth,
    TableInvariant.frame_spaceFactor, Macro.Numbered.long]

@[local spec 20000] theorem prefixed_safe (n : Nat) (c : Cmd) (hc : I.Allows c.meaning) :
    Safe I V T o (prefixed n c) := by
  unfold prefixed
  mvcgen [-forIn_range_safe, -forIn_range_keeps] invariants
  | inv1 => post⟨fun p e => ⌜e.Sound I V T o ∧ I.Allows p.snd.2.2.meaning⌝,
      fun _ e => ⌜e.Sound I V T o⌝⟩
  all_goals grind

/-! ### Main control -/

attribute [local spec 20000] getX_safe scanRuleSpec_safe scanToks_safe

@[local spec 20000] theorem typeset_safe (r : Nat) : Safe I V T o (typeset r) := by
  unfold typeset; mvcgen

@[local spec 20000] theorem horizontalCmd_safe (c : Cmd) : Safe I V T o (horizontalCmd c) := by
  unfold horizontalCmd; mvcgen

@[local spec 20000] theorem verticalCmd_safe (c : Cmd) : Safe I V T o (verticalCmd c) := by
  unfold verticalCmd; mvcgen
  all_goals grind

@[local spec 20000] theorem handleRightBrace_safe (c : Cmd) : Safe I V T o (handleRightBrace c) := by
  unfold handleRightBrace; mvcgen
  all_goals grind

@[local spec 20000] theorem charCmd_safe (c : Cmd) (t : Token) : Safe I V T o (charCmd c t) := by
  unfold charCmd; mvcgen
  all_goals grind

@[local spec 20000] theorem finish_safe : Safe I V T o finish := by
  unfold finish; mvcgen

@[local spec 20000] theorem primitiveCmd_safe (n : Nat) (c : Cmd) (name : String) (p : Prim) :
    Safe I V T o (primitiveCmd n c name p) := by
  unfold primitiveCmd; mvcgen
  all_goals grind [Engine.Sound.logged, Event.sets]

@[local spec 20000] theorem dispatch_safe (n : Nat) (c : Cmd) (hc : I.Allows c.meaning) :
    Safe I V T o (dispatch n c) := by
  unfold dispatch; mvcgen
  all_goals grind [Engine.Sound.logged, Event.sets]

@[local spec 20000] theorem mainControl_safe : Safe I V T o mainControl := by
  unfold mainControl; mvcgen
  all_goals grind

@[local spec 20000] theorem closeAll_safe : Safe I V T o closeAll := by
  unfold closeAll; mvcgen

/-! ### Runs -/

theorem post_of_run_error {α : Type} {x : EngineM α} {P : Engine → Prop} {Q : α → Engine → Prop}
    {E : EngineError → Engine → Prop}
    (h : ⦃fun e => ⌜P e⌝⦄ x ⦃post⟨fun a e => ⌜Q a e⌝, fun err e => ⌜E err e⌝⟩⦄) {e e' : Engine}
    {err : EngineError} (hP : P e) (hx : x.run.run e = (.error err, e')) : E err e' := by
  have h' := h e hP
  simp only [WP.wp, PredTrans.apply, PredTrans.pushExcept, PredTrans.pushArg] at h'
  simp only [StateT.run] at h' hx
  simp only [hx] at h'
  exact h'

/-- A program that keeps the engine sound leaves it sound, whether it returns or fails. -/
theorem Safe.run {α : Type} {x : EngineM α} (h : Safe I V T o x) {e : Engine}
    (he : e.Sound I V T o) : (x.run.run e).2.Sound I V T o := by
  match hx : x.run.run e with
  | (.ok _, _) => exact post_of_run h he hx
  | (.error _, _) => exact post_of_run_error h he hx

end EngineM

theorem primitiveNamed_of_mem : ∀ np ∈ primitives, primitiveNamed? np.1 = some np.2 := by
  decide +kernel

namespace Engine

variable {I : TableInvariant} {V : Key → Equivalent} {T : List Traced} {o : EngineOptions} {e : Engine}

theorem Sound.of_holds (h : e.table.Holds I.holds) :
    e.Sound I e.get e.trace.toList e.options :=
  ⟨rfl, h, fun _ => Logs.start _ _⟩

/-- Processing a text keeps the engine sound: main control does, and so does closing the
groups an error left open. -/
theorem Sound.process (h : e.Sound I V T o) (text : String) : (e.process text).1.Sound I V T o := by
  have hmain := EngineM.Safe.run EngineM.mainControl_safe (show (e.start text).Sound I V T o from h)
  rw [Engine.process_eq]
  split
  · next e' hrun => simpa [hrun] using hmain
  · next err e' hrun =>
    have he' : e'.Sound I V T o := by simpa [hrun] using hmain
    exact EngineM.Safe.run EngineM.closeAll_safe he'

/-- A fresh engine holds the invariant when the initial values and the primitives bound to
their names do. -/
theorem create_holds (o : EngineOptions)
    (hd : ∀ k, I.holds k (initialEquivalent o.defaultFont k))
    (hp : ∀ np ∈ primitives, I.holds { space := .meaning, name := np.1 }
      (.meaning (.primitive np.1 np.2))) :
    (Engine.create o).table.Holds I.holds := by
  have hempty : (Scope.Table.empty (initialEquivalent o.defaultFont) : EqTable).Holds I.holds :=
    ⟨fun k v hv => by simp [Scope.Table.empty] at hv, fun f hf => by simp [Scope.Table.empty] at hf,
      hd⟩
  suffices h : ∀ l : List (String × Prim), (∀ np ∈ l, np ∈ primitives) → ∀ t : EqTable, t.Holds I.holds →
      (l.foldl (fun t (np : String × Prim) =>
        (t.assign { space := .meaning, name := np.1 } (.meaning (.primitive np.1 np.2)) true).2)
          t).Holds I.holds by
    simpa [Engine.create] using h primitives (fun _ h => h) _ hempty
  intro l
  induction l with
  | nil => intro _ t ht; exact ht
  | cons np l ih =>
    intro hl t ht
    rw [List.foldl_cons]
    exact ih (fun x hx => hl x (List.mem_cons_of_mem _ hx)) _
      (ht.assign (hp np (hl np List.mem_cons_self)) true)

/-- Loading entries keeps the invariant when every value they give holds at its key. -/
theorem loadEntries_holds (h : e.table.Holds I.holds) (xs : List Entry)
    (hx : ∀ x ∈ xs, ∀ v, x.value = .ok v → I.holds x.key v) :
    (e.loadEntries xs).1.table.Holds I.holds := by
  induction xs generalizing e with
  | nil => exact h
  | cons x xs ih =>
    unfold loadEntries
    split
    · exact h
    · next v hv =>
      exact ih (h.assign (hx x List.mem_cons_self v hv) true)
        (fun y hy => hx y (List.mem_cons_of_mem _ hy))

theorem load_holds (h : e.table.Holds I.holds) (s : Snapshot)
    (hs : ∀ x ∈ s.entries.getD [], ∀ v, x.value = .ok v → I.holds x.key v) :
    (e.load s).1.table.Holds I.holds := by
  unfold load
  split
  · exact h
  · exact loadEntries_holds h _ hs

/-- The engines a run can reach: a fresh engine, then texts processed and snapshots
satisfying `L` loaded, in any order. -/
inductive Reachable (L : Snapshot → Prop) : Engine → Prop
  | create (o : EngineOptions) : Reachable L (Engine.create o)
  | process {e : Engine} (text : String) : Reachable L e → Reachable L (e.process text).1
  | load {e : Engine} {s : Snapshot} : L s → Reachable L e → Reachable L (e.load s).1

/-- Every engine a run reaches holds an invariant that the fresh engines hold and that every
snapshot it loads keeps. -/
theorem Reachable.holds {L : Snapshot → Prop} (hcreate : ∀ o, (Engine.create o).table.Holds I.holds)
    (hload : ∀ s, L s → ∀ x ∈ s.entries.getD [], ∀ v, x.value = .ok v → I.holds x.key v)
    (hr : e.Reachable L) : e.table.Holds I.holds := by
  induction hr with
  | create o => exact hcreate o
  | process text _ ih => exact ((Sound.of_holds ih).process text).2.1
  | load hs _ ih => exact load_holds ih _ (hload _ hs)

end Engine

end Galley
