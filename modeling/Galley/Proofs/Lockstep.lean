import Mathlib
import Galley.Proofs.Shape
import Galley.Proofs.LineMachine

/-!
# Main control keeps the nest and the save stack in lockstep

Modes live on the nest, groups on the save stack of the table of equivalents, and a
paragraph opens without a group. Main control still keeps the two in step: the outer
vertical mode stays at the bottom of the nest and nowhere else, a paragraph stands only
directly inside a vertical mode, anything inside a paragraph or a horizontal box is a box,
and the groups opened for box bodies match the box modes of the nest one to one, in order —
a `\vbox` group the internal vertical mode of its body, an `\hbox` group the restricted
horizontal one. `Lockstep` states this of the two lists.

Every group is closed only by its own closer, so the invariant survives each command:
`}` closes a simple group, `\endgroup` a semi-simple one, and a box group is closed by `}`
only after the paragraph open inside it has ended. That paragraph is the only frame that can
stand above the box's own frame (`Lockstep.closeBox`), so the `}` that closes a box pops
exactly the frame its `\hbox` or `\vbox` pushed.

The proof has three layers. The list lemmas say what each change of the shape does to
`Lockstep`. The command specs, Hoare triples over `EngineM`, show that every command main
control dispatches keeps it, from the shape specs of `Galley.Proofs.Shape`. The run lemma
follows by induction over the rounds of main control.
-/

namespace Galley

open Std.Do

set_option mvcgen.warning false

/-- The modes a box's body is built in: internal vertical and restricted horizontal. -/
def Mode.isBox : Mode → Bool
  | internalVertical | restrictedHorizontal => true
  | _ => false

/-- The mode of the body of a box group: internal vertical for `\vbox`, restricted
horizontal for `\hbox`; none for the other groups. -/
def Group.boxMode? : Group → Option Mode
  | .boxBody _ vertical _ _ => some (if vertical then .internalVertical else .restrictedHorizontal)
  | _ => none

/-- Mode `inner` may stand directly inside mode `outer`: never the outer vertical mode, and
a paragraph only inside a vertical mode. -/
def Mode.Nests (inner outer : Mode) : Prop :=
  inner ≠ .vertical ∧ (inner = .horizontal → outer.isVertical)

/-- The nest's modes and the save stack's groups, both innermost first, are in lockstep. -/
structure Lockstep (modes : List Mode) (groups : List Group) : Prop where
  /-- The outer vertical mode is at the bottom; `nests` keeps it out of every other place. -/
  bottom : modes.getLast? = some .vertical
  /-- A paragraph stands only inside a vertical mode, anything else inside a box. -/
  nests : modes.IsChain Mode.Nests
  /-- The box groups are the box modes, one to one and in order. -/
  boxes : modes.filter Mode.isBox = groups.filterMap Group.boxMode?

theorem Group.boxMode?_isBox {g : Group} {m : Mode} (h : g.boxMode? = some m) : m.isBox := by
  cases g with
  | boxBody _ vertical _ _ =>
    simp only [Group.boxMode?, Option.some.injEq] at h
    subst h
    cases vertical <;> rfl
  | simple | semiSimple => cases h

namespace Lockstep

variable {ms : List Mode} {gs : List Group} {m : Mode} {g : Group}

theorem ne_nil (h : Lockstep ms gs) : ms ≠ [] := by
  rintro rfl
  cases h.bottom

/-- The outer vertical mode stands nowhere but at the bottom. -/
theorem eq_nil_of_vertical (h : Lockstep (.vertical :: ms) gs) : ms = [] := by
  cases ms with
  | nil => rfl
  | cons m' ms => exact absurd rfl (List.isChain_cons_cons.mp h.nests).1.1

theorem start (hg : ∀ g ∈ gs, g.boxMode? = none) : Lockstep [.vertical] gs where
  bottom := rfl
  nests := .singleton _
  boxes := by simp [Mode.isBox, List.filterMap_eq_nil_iff.mpr hg]

theorem paragraph (h : Lockstep ms gs) (hv : ∀ m ∈ ms.head?, m.isVertical) :
    Lockstep (.horizontal :: ms) gs where
  bottom := by
    obtain ⟨m, ms', rfl⟩ := List.exists_cons_of_ne_nil h.ne_nil
    simpa using h.bottom
  nests := by
    refine List.isChain_cons.mpr ⟨fun m hm => ⟨nofun, fun _ => hv m hm⟩, h.nests⟩
  boxes := by simpa [Mode.isBox] using h.boxes

theorem endParagraph (h : Lockstep (.horizontal :: ms) gs) :
    Lockstep ms gs ∧ ∀ m ∈ ms.head?, m.isVertical := by
  have hne : ms ≠ [] := by
    rintro rfl
    cases h.bottom
  obtain ⟨hhead, htail⟩ := List.isChain_cons.mp h.nests
  refine ⟨⟨?_, htail, by simpa [Mode.isBox] using h.boxes⟩, fun m hm => (hhead m hm).2 rfl⟩
  obtain ⟨m, ms', rfl⟩ := List.exists_cons_of_ne_nil hne
  simpa using h.bottom

theorem openGroup (h : Lockstep ms gs) (hg : g.boxMode? = none) : Lockstep ms (g :: gs) :=
  ⟨h.bottom, h.nests, by simp [h.boxes, hg]⟩

theorem closeGroup (h : Lockstep ms (g :: gs)) (hg : g.boxMode? = none) : Lockstep ms gs :=
  ⟨h.bottom, h.nests, by simpa [hg] using h.boxes⟩

/-- A box opens its group and enters the mode of its body together. -/
theorem beginBox (h : Lockstep ms gs) (hg : g.boxMode? = some m) : Lockstep (m :: ms) (g :: gs) where
  bottom := by
    obtain ⟨m', ms', rfl⟩ := List.exists_cons_of_ne_nil h.ne_nil
    simpa using h.bottom
  nests := by
    have hbox := Group.boxMode?_isBox hg
    refine List.isChain_cons.mpr ⟨fun m' _ => ⟨?_, ?_⟩, h.nests⟩ <;>
      rintro rfl <;> cases hbox
  boxes := by simp [List.filter_cons_of_pos (Group.boxMode?_isBox hg), h.boxes, hg]

/-- When a box group is innermost and no paragraph is open, the innermost mode is the
box's own, and closing the group and leaving the mode together restore the lockstep. -/
theorem closeBox (h : Lockstep ms (g :: gs)) (hg : g.boxMode? = some m)
    (hh : ms.head? ≠ some .horizontal) : ∃ ms', ms = m :: ms' ∧ Lockstep ms' gs := by
  obtain ⟨m', ms', rfl⟩ := List.exists_cons_of_ne_nil h.ne_nil
  have hboxes := h.boxes
  simp only [List.filterMap_cons, hg] at hboxes
  -- the innermost mode is neither the outer vertical one (no box mode would be left to
  -- match the box group) nor a paragraph, so it is a box mode: the box's own
  have hm' : m'.isBox := by
    cases m' with
    | vertical =>
      rw [eq_nil_of_vertical h] at hboxes
      simp [Mode.isBox] at hboxes
    | horizontal => exact absurd rfl hh
    | internalVertical | restrictedHorizontal => rfl
  rw [List.filter_cons_of_pos hm', List.cons.injEq] at hboxes
  obtain ⟨rfl, hrest⟩ := hboxes
  refine ⟨ms', rfl, ⟨?_, h.nests.tail, hrest⟩⟩
  cases ms' with
  | nil =>
    have hv : m' = .vertical := by simpa using h.bottom
    subst hv
    cases hm'
  | cons _ _ => simpa using h.bottom

end Lockstep

/-! ### The engine in lockstep

After `mvcgen`, the shape specs leave every verification condition as a chain of equations
from the shape before a command to the shape after it; `simp_all` runs the chain, and what
is left is one of the lemmas below: `Lockstep` of the shape before, with what the command
read of the engine (its mode, its innermost group), gives `Lockstep` of the shape after. -/

/-- The engine's nest and save stack are in lockstep. -/
def Engine.InLockstep (e : Engine) : Prop := Lockstep e.shape.1 e.shape.2

namespace Engine.InLockstep

variable {e : Engine} {g : Group} {m : Mode}

theorem of_shape_eq {e' : Engine} (h : e.InLockstep) (he : e'.shape = e.shape) : e'.InLockstep := by
  rwa [Engine.InLockstep, he]

theorem head_eq_mode (h : Lockstep e.shape.1 e.shape.2) : e.shape.1.head? = some e.mode := by
  obtain ⟨m, ms, hms⟩ := List.exists_cons_of_ne_nil h.ne_nil
  simp [Engine.mode_eq_shape, hms]

theorem cons_mode (h : Lockstep e.shape.1 e.shape.2) : e.shape.1 = e.mode :: e.shape.1.tail :=
  List.eq_cons_of_mem_head? (head_eq_mode h)

theorem cons_top (htop : e.table.top? = some g) : e.shape.2 = g :: e.shape.2.tail := by
  rw [Engine.top_eq_shape] at htop
  exact List.eq_cons_of_mem_head? htop

theorem paragraph (h : Lockstep e.shape.1 e.shape.2) (hv : e.mode.isVertical) :
    Lockstep (.horizontal :: e.shape.1) e.shape.2 := by
  refine h.paragraph fun m hm => ?_
  rw [head_eq_mode h, Option.mem_some_iff] at hm
  rwa [← hm]

theorem endParagraph (h : Lockstep e.shape.1 e.shape.2) (hm : e.mode = .horizontal) :
    Lockstep e.shape.1.tail e.shape.2 ∧ ∀ m ∈ e.shape.1.tail.head?, m.isVertical := by
  have hl := h
  rw [cons_mode h, hm] at hl
  exact hl.endParagraph

theorem closeGroup (h : Lockstep e.shape.1 e.shape.2) (htop : e.table.top? = some g)
    (hg : g.boxMode? = none) : Lockstep e.shape.1 e.shape.2.tail := by
  have hl := h
  rw [cons_top htop] at hl
  exact hl.closeGroup hg

theorem closeBox (h : Lockstep e.shape.1 e.shape.2) (htop : e.table.top? = some g)
    (hg : g.boxMode? = some m) (hh : e.mode ≠ .horizontal) :
    Lockstep e.shape.1.tail e.shape.2.tail ∧ e.mode = m := by
  have hl := h
  rw [cons_top htop] at hl
  have hh' : e.shape.1.head? ≠ some .horizontal := by
    rw [head_eq_mode h]; simpa using hh
  obtain ⟨ms', hms, hl'⟩ := hl.closeBox hg hh'
  refine ⟨by rwa [hms], ?_⟩
  have := head_eq_mode h
  rw [hms] at this
  simpa using this.symm

/-- With a paragraph open in it, the `}` of a box ends the paragraph and then leaves the
box's own mode. -/
theorem closeBoxAfterParagraph (h : Lockstep e.shape.1 e.shape.2) (htop : e.table.top? = some g)
    (hg : g.boxMode? = some m) (hm : e.mode = .horizontal) :
    Lockstep e.shape.1.tail.tail e.shape.2.tail ∧ e.shape.1.tail.head? = some m := by
  obtain ⟨hl, hv⟩ := endParagraph h hm
  rw [cons_top htop] at hl
  have hh : e.shape.1.tail.head? ≠ some .horizontal := fun hh => by
    simpa [Mode.isVertical] using hv _ hh
  obtain ⟨ms', hms, hl'⟩ := hl.closeBox hg hh
  exact ⟨by rwa [hms], by simp [hms]⟩

end Engine.InLockstep

/-- Setting a box register without logging it leaves the shape. -/
@[simp] theorem Engine.shape_poke (e : Engine) (k : Key) (v : Equivalent) :
    ({ e with table := e.table.poke k v } : Engine).shape = e.shape := rfl

/-- Marking the engine done leaves the shape. -/
@[simp] theorem Engine.shape_done (e : Engine) (d : Bool) :
    ({ e with done := d } : Engine).shape = e.shape := rfl

namespace EngineM

@[spec] theorem typeset_lockstep (r : Nat) :
    ⦃fun e => ⌜e.InLockstep⌝⦄ typeset r ⦃⇓? _ e => ⌜e.InLockstep⌝⦄ := by
  unfold typeset
  mvcgen
  all_goals simp_all [Engine.InLockstep]
  exact fun _ => Engine.InLockstep.paragraph ‹_› ‹_›

@[spec] theorem handleRightBrace_lockstep (c : Cmd) :
    ⦃fun e => ⌜e.InLockstep⌝⦄ handleRightBrace c ⦃⇓? _ e => ⌜e.InLockstep⌝⦄ := by
  unfold handleRightBrace
  mvcgen
  all_goals simp_all [Engine.InLockstep]
  · exact Engine.InLockstep.closeGroup ‹_› ‹_› rfl
  · exact fun _ => (Engine.InLockstep.closeBoxAfterParagraph ‹_› ‹_› rfl ‹_›).1
  · exact fun _ => (Engine.InLockstep.closeBox ‹_› ‹_› rfl ‹_›).1

@[spec] theorem horizontalCmd_lockstep (c : Cmd) :
    ⦃fun e => ⌜e.InLockstep⌝⦄ horizontalCmd c ⦃⇓? _ e => ⌜e.InLockstep⌝⦄ := by
  unfold horizontalCmd
  mvcgen
  all_goals simp_all [Engine.InLockstep]
  exact Engine.InLockstep.paragraph ‹_› ‹_›

@[spec] theorem verticalCmd_lockstep (c : Cmd) :
    ⦃fun e => ⌜e.InLockstep⌝⦄ verticalCmd c ⦃⇓? _ e => ⌜e.InLockstep⌝⦄ := by
  unfold verticalCmd
  mvcgen
  all_goals simp_all [Engine.InLockstep]
  exact (Engine.InLockstep.endParagraph ‹_› ‹_›).1

@[spec] theorem charCmd_lockstep (c : Cmd) (t : Token) :
    ⦃fun e => ⌜e.InLockstep⌝⦄ charCmd c t ⦃⇓? _ e => ⌜e.InLockstep⌝⦄ := by
  unfold charCmd
  mvcgen
  all_goals simp_all [Engine.InLockstep]
  exact fun _ => Lockstep.openGroup ‹_› rfl

@[spec] theorem beginBox_lockstep (n : Nat) (c : Cmd) (target : BoxTarget) :
    ⦃fun e => ⌜e.InLockstep⌝⦄ beginBox n c target ⦃⇓? _ e => ⌜e.InLockstep⌝⦄ := by
  unfold beginBox
  mvcgen
  all_goals simp_all +zetaDelta [Engine.InLockstep]
  all_goals exact fun _ => Lockstep.beginBox ‹_› (by simp [Group.boxMode?])

@[spec] theorem finish_lockstep :
    ⦃fun e => ⌜e.InLockstep⌝⦄ finish ⦃⇓? _ e => ⌜e.InLockstep⌝⦄ := by
  unfold finish
  mvcgen
  all_goals simp_all [Engine.InLockstep]
  all_goals exact fun _ => (Engine.InLockstep.endParagraph ‹_› ‹_›).1

@[spec] theorem scanBox_lockstep (n : Nat) (t : Token) (target : BoxTarget) :
    ⦃fun e => ⌜e.InLockstep⌝⦄ scanBox n t target ⦃⇓? _ e => ⌜e.InLockstep⌝⦄ := by
  unfold scanBox
  mvcgen
  all_goals simp_all [Engine.InLockstep]

@[spec] theorem primitiveCmd_lockstep (n : Nat) (c : Cmd) (name : String) (p : Prim) :
    ⦃fun e => ⌜e.InLockstep⌝⦄ primitiveCmd n c name p ⦃⇓? _ e => ⌜e.InLockstep⌝⦄ := by
  unfold primitiveCmd
  mvcgen
  all_goals simp_all +zetaDelta [Engine.InLockstep]
  · exact fun _ => (Engine.InLockstep.endParagraph ‹_› ‹_›).1
  · exact fun _ => Lockstep.openGroup ‹_› rfl
  · exact Engine.InLockstep.closeGroup ‹_› ‹_› rfl
  · exact fun _ => Engine.InLockstep.paragraph ‹_› ‹_›
  · exact fun _ => Engine.InLockstep.paragraph ‹_› ‹_›
  all_goals exact fun _ => (Engine.InLockstep.endParagraph ‹_› ‹_›).1

@[spec] theorem assignCmd_lockstep (n : Nat) (c : Cmd) (global long : Bool) :
    ⦃fun e => ⌜e.InLockstep⌝⦄ assignCmd n c global long ⦃⇓? _ e => ⌜e.InLockstep⌝⦄ := by
  unfold assignCmd
  mvcgen
  all_goals simp_all +zetaDelta [Engine.InLockstep]

@[spec] theorem prefixed_lockstep (n : Nat) (c : Cmd) :
    ⦃fun e => ⌜e.InLockstep⌝⦄ prefixed n c ⦃⇓? _ e => ⌜e.InLockstep⌝⦄ := by
  unfold prefixed
  mvcgen
  all_goals simp_all [Engine.InLockstep]

@[spec] theorem dispatch_lockstep (n : Nat) (c : Cmd) :
    ⦃fun e => ⌜e.InLockstep⌝⦄ dispatch n c ⦃⇓? _ e => ⌜e.InLockstep⌝⦄ := by
  unfold dispatch
  mvcgen
  all_goals simp_all [Engine.InLockstep]

theorem dispatch_letter_returns (n r : Nat) :
    ⦃fun _ => ⌜True⌝⦄ dispatch n ⟨.char r .letter, .charLet (.char r .letter), false⟩
    ⦃⇓ _ _ => ⌜True⌝⦄ := by
  unfold dispatch charCmd typeset newParagraph appendChar appendItem modifyCur pushNest
  mvcgen [-emit_keeps]

theorem dispatch_letter_shape (n r : Nat) (S : List Group) :
    ⦃fun x => ⌜x.shape = ([.vertical], S)⌝⦄
    dispatch n ⟨.char r .letter, .charLet (.char r .letter), false⟩
    ⦃⇓? _ x => ⌜x.shape = ([.horizontal, .vertical], S)⌝⦄ := by
  unfold dispatch charCmd typeset
  mvcgen
  all_goals simp_all [Engine.mode_eq_shape, Mode.isVertical]

/-- A triple's postcondition holds of every run of the program that returns. -/
theorem post_of_run {α : Type} {x : EngineM α} {P : Engine → Prop} {Q : α → Engine → Prop}
    {R : ExceptConds (.except EngineError (.arg Engine .pure))}
    (h : ⦃fun e => ⌜P e⌝⦄ x ⦃(fun a e => ⌜Q a e⌝, R)⦄) {e e' : Engine} {a : α}
    (hP : P e) (hx : x.run.run e = (.ok a, e')) : Q a e' := by
  have h' := h e hP
  simp only [WP.wp, PredTrans.apply, PredTrans.pushExcept, PredTrans.pushArg] at h'
  simp only [StateT.run] at h' hx
  simp only [hx, pure, PredTrans.pure] at h'
  exact h'

end EngineM

/-! ### Every round of main control -/

/-- The engine `Engine.process` runs main control from: the lexer of the text, nothing
pending, no open conditional, no expansion yet, and the nest reset to the outer vertical
mode. The table, and so the save stack, is the one the engine had. -/
def Engine.start (e : Engine) (text : String) : Engine :=
  { e with lexer := some (Lexer.ofText text), inputs := [], conds := [], done := false,
           expansions := 0, nest := [{ mode := .vertical }] }

theorem Engine.process_eq (e : Engine) (text : String) :
    e.process text = match (ExceptT.run EngineM.mainControl).run (e.start text) with
      | (.ok (), e) => (e, none)
      | (.error err, e) => (((ExceptT.run EngineM.closeAll).run e).2, some err) := rfl

/-- One round of main control that carries out a command and goes on: the engine is not
done, the next command after expansion is `c`, and carrying `c` out returns. -/
def Engine.Round (e e' : Engine) : Prop :=
  e.done = false ∧ ∃ c e₁, (EngineM.getX EngineM.budget).run.run e = (.ok (some c), e₁) ∧
    (EngineM.dispatch EngineM.budget c).run.run e₁ = (.ok (), e')

/-- Main control starts in lockstep when no box group is open. -/
theorem Engine.start_inLockstep (e : Engine) (text : String)
    (hbox : ∀ f ∈ e.table.frames, f.info.boxMode? = none) : (e.start text).InLockstep := by
  have hshape : (e.start text).shape = ([.vertical], e.table.frames.map (·.info)) := rfl
  rw [Engine.InLockstep, hshape]
  exact Lockstep.start (by simpa using hbox)

/-- A round of main control keeps the lockstep: reading the command leaves the shape alone,
and carrying it out keeps the lockstep. -/
theorem Engine.Round.inLockstep {e e' : Engine} (hr : e.Round e') (h : e.InLockstep) :
    e'.InLockstep := by
  obtain ⟨-, c, e₁, hget, hdispatch⟩ := hr
  have h₁ : e₁.shape = e.shape :=
    EngineM.post_of_run (EngineM.getX_keeps e.shape EngineM.budget) rfl hget
  exact EngineM.post_of_run (EngineM.dispatch_lockstep EngineM.budget c)
    (h.of_shape_eq h₁) hdispatch

/-- Main control keeps the nest and the save stack in lockstep at every point between two
commands of a run over a text, when the run starts with no box group open. -/
theorem lockstep_between_commands (e : Engine) (text : String)
    (hbox : ∀ f ∈ e.table.frames, f.info.boxMode? = none) {e' : Engine}
    (h : Relation.ReflTransGen Engine.Round (e.start text) e') : e'.InLockstep := by
  induction h with
  | refl => exact e.start_inLockstep text hbox
  | tail _ hr ih => exact hr.inLockstep ih

theorem Engine.create_frames (o : EngineOptions) : (Engine.create o).table.frames = [] := by
  suffices h : ∀ (l : List (String × Prim)) (t : EqTable),
      (l.foldl (fun t (np : String × Prim) =>
        (t.assign { space := .meaning, name := np.1 } (.meaning (.primitive np.1 np.2)) true).2)
          t).frames.map (·.info) = t.frames.map (·.info) by
    simpa [Engine.create, Scope.Table.empty] using h primitives (Scope.Table.empty _)
  intro l
  induction l with
  | nil => intro t; rfl
  | cons np l ih =>
    intro t
    rw [List.foldl_cons, ih, Scope.Table.assign_infos]

/-- The text `a` from a fresh engine: its first round reads the letter from the lexer and
starts a paragraph, and the nest and the save stack are then in lockstep. -/
theorem lockstep_from_fresh_engine :
    (∀ f ∈ (Engine.create {}).table.frames, f.info.boxMode? = none) ∧
    ∃ e', Relation.ReflTransGen Engine.Round ((Engine.create {}).start "a") e' ∧
      e'.shape = ([.horizontal, .vertical], []) ∧ e'.InLockstep := by
  have hbox : ∀ f ∈ (Engine.create {}).table.frames, f.info.boxMode? = none := by
    simp [Engine.create_frames]
  have hsplit : "a".splitOn "\n" = ["a"] := by
    rw [String.splitOn, if_neg (by decide), String.splitOnAux, if_neg (by decide),
      if_neg (by decide), String.splitOnAux, if_pos (by decide)]
    decide
  have hlines : Lexer.linesOf "a" = [[97]] := by simp [Lexer.linesOf, hsplit]
  have hcat : (Engine.create {}).category 97 = .letter := by
    have h := Engine.create_get_of_ne_meaning {} (k := { space := .catcode, n := signedCode 97 })
      (by decide)
    simp only [Engine.category, h, initialEquivalent]
    decide
  have hend : (Engine.create {}).endLineChar = some 13 := by
    have h := Engine.create_get_of_ne_meaning {}
      (k := { space := .intpar, name := "endlinechar" }) (by decide)
    simp only [Engine.endLineChar, Engine.intParam, Engine.intAt, h, initialEquivalent,
      intParamDefault]
    decide
  have hd : Lexer.decodeHead (Engine.create {}).category [97, 13] = [97, 13] := by
    rw [Lexer.decodeHead]; simp
  have hlex : (Lexer.ofText "a").next ((Engine.create {}).start "a").category
      ((Engine.create {}).start "a").endLineChar =
      .ok (some (.char 97 .letter, { lines := [], rest := [13], line := 1, state := .midLine })) := by
    have hstart : ∀ (e : Engine) (text : String),
        (e.start text).category = e.category ∧ (e.start text).endLineChar = e.endLineChar :=
      fun _ _ => ⟨rfl, rfl⟩
    rw [(hstart _ _).1, (hstart _ _).2, hend, Lexer.ofText, hlines, Lexer.next_eq]
    simp only [Lexer.round, Lexer.decodeHead_nil]
    rw [Lexer.next_eq]
    simp [Lexer.round, hd, Lexer.readChar, hcat]
  have hmeaning : ∀ y : Engine, y.meaning (.char 97 .letter) = .charLet (.char 97 .letter) := by
    intro y
    simp [Engine.meaning, EngineM.Token.hasMeaning]
  have hget := EngineM.getX_run_unexpanded 99999999 (EngineM.next_run_lexer rfl rfl hlex)
    (by simp [Engine.Plain, hmeaning, Meaning.expands])
  rw [hmeaning] at hget
  obtain ⟨e', hrun⟩ : ∃ e', (EngineM.dispatch EngineM.budget
      ⟨.char 97 .letter, .charLet (.char 97 .letter), false⟩).run.run
      { (Engine.create {}).start "a" with
        lexer := some { lines := [], rest := [13], line := 1, state := .midLine },
        last := some (.char 97 .letter) } = (.ok (), e') := by
    have h := EngineM.run_of_triple (EngineM.dispatch_letter_returns EngineM.budget 97)
      (s := { (Engine.create {}).start "a" with
        lexer := some { lines := [], rest := [13], line := 1, state := .midLine },
        last := some (.char 97 .letter) }) trivial
    revert h
    rcases EngineM.dispatch EngineM.budget _ |>.run.run _ with ⟨_ | ⟨⟩, e'⟩
    · exact False.elim
    · exact fun _ => ⟨e', rfl⟩
  have hround : ((Engine.create {}).start "a").Round e' := ⟨rfl, _, _, hget, hrun⟩
  have hshape := EngineM.post_of_run (EngineM.dispatch_letter_shape EngineM.budget 97 [])
    (by simp [Engine.shape, Engine.start, Engine.create_frames]) hrun
  exact ⟨hbox, e', .single hround, hshape, lockstep_between_commands _ _ hbox (.single hround)⟩

end Galley
