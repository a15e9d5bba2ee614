import Mathlib
import Galley.Proofs.ReadBack

/-!
# Interline glue

A box enters a vertical list through `appendToVList`, which looks at the list's previous
depth `pd` (`Frame.prevDepth`). At `ignoreDepth` (`-1000pt`) or below the box goes on alone.
Above it, exactly one glue item goes before the box: `\baselineskip` with its width
lessened by `pd` and the box's height, so that the previous baseline and the box's
baseline are `\baselineskip` apart; or `\lineskip`, when that width comes below
`\lineskiplimit`. Either way the list's previous depth becomes the box's depth.

What else moves the previous depth: `\vskip`, `\vglue` and `\kern` append their item and
leave it alone, whatever they expand while they scan their quantity (`Galley.Proofs.Pending`
keeps the nest through every scan); `\hrule` sets it to `ignoreDepth`; and `pushNest` starts
every list at `ignoreDepth`, so that the first box of a list gets no interline glue.
-/

namespace Galley

open Std.Do

set_option mvcgen.warning false

namespace EngineM

variable {e : Engine} {fr : Frame} {rest : List Frame} {b : Box}

/-! ### A box entering a vertical list -/

theorem appendToVList_of_ignored (hnest : e.nest = fr :: rest) (hpd : fr.prevDepth ≤ ignoreDepth) :
    (appendToVList b).run.run e =
      (.ok (), { e with nest := { fr with list := fr.list.push (.box b), prevDepth := b.depth } :: rest }) := by
  rcases e with ⟨o, t, lx, inp, la, cd, nest, dn, ex, tr⟩
  simp only at hnest
  subst hnest
  rw [appendToVList, run_get_bind]
  simp only [Engine.cur, List.head?_cons, Option.getD_some, gt_iff_lt, Int32.not_lt.2 hpd, if_false]
  rfl

theorem appendToVList_of_lineskip (hnest : e.nest = fr :: rest) (hpd : ignoreDepth < fr.prevDepth)
    (hd : (e.glueParam "baselineskip").width - fr.prevDepth - b.height < e.dimenParam "lineskiplimit") :
    (appendToVList b).run.run e =
      (.ok (), { e with nest := { fr with
        list := (fr.list.push (.glue (e.glueParam "lineskip") .lineskip)).push (.box b),
        prevDepth := b.depth } :: rest }) := by
  rcases e with ⟨o, t, lx, inp, la, cd, nest, dn, ex, tr⟩
  simp only at hnest
  subst hnest
  rw [appendToVList, run_get_bind]
  simp only [Engine.cur, List.head?_cons, Option.getD_some, gt_iff_lt, hpd, if_true, hd]
  rfl

theorem appendToVList_of_baselineskip (hnest : e.nest = fr :: rest) (hpd : ignoreDepth < fr.prevDepth)
    (hd : e.dimenParam "lineskiplimit" ≤
      (e.glueParam "baselineskip").width - fr.prevDepth - b.height) :
    (appendToVList b).run.run e =
      (.ok (), { e with nest := { fr with
        list := (fr.list.push (.glue { e.glueParam "baselineskip" with
          width := (e.glueParam "baselineskip").width - fr.prevDepth - b.height } .baselineskip)).push
            (.box b),
        prevDepth := b.depth } :: rest }) := by
  rcases e with ⟨o, t, lx, inp, la, cd, nest, dn, ex, tr⟩
  simp only at hnest
  subst hnest
  rw [appendToVList, run_get_bind]
  simp only [Engine.cur, List.head?_cons, Option.getD_some, gt_iff_lt, hpd, if_true,
    Int32.not_lt.2 hd, if_false]
  rfl

/-- The interline glue of `\baselineskip` puts the baselines `\baselineskip` apart: the
depth of the box before, the glue and the height of the box after add up to its width. -/
theorem baselines_apart (bs : Glue) (pd h : Scaled) : pd + (bs.width - pd - h) + h = bs.width := by
  grind

/-! ### Glue, kerns and rules -/

theorem verticalCmd_of_vertical (c : Cmd) (hv : fr.mode.isVertical) :
    ⦃fun x => ⌜x.nest = fr :: rest⌝⦄ verticalCmd c ⦃⇓ r x => ⌜r = false ∧ x.nest = fr :: rest⌝⦄ := by
  unfold verticalCmd
  mvcgen
  all_goals simp_all [Engine.mode, Mode.isVertical]

/-- `\vskip` and `\vglue` append one glue item to a vertical list and change nothing else
of the nest. -/
theorem vskip_spec (n : Nat) (c : Cmd) (name : String) {p : Prim} (hp : p = .vskip ∨ p = .vglue)
    (hv : fr.mode.isVertical) :
    ⦃fun x => ⌜x.nest = fr :: rest⌝⦄ primitiveCmd n c name p
    ⦃post⟨fun _ x => ⌜∃ g, x.nest = { fr with list := fr.list.push (.glue g .explicit) } :: rest⌝,
      fun _ _ => ⌜True⌝⟩⦄ := by
  have hglue := scanGlue_steady (fr :: rest) .any n
  have hvert := @verticalCmd_of_vertical fr rest c hv
  rcases hp with rfl | rfl
  all_goals
    unfold primitiveCmd
    mvcgen [hglue, hvert, appendItem, modifyCur, -scanGlue_keeps, -appendItem_keeps,
      -verticalCmd_lockstep]
  all_goals simp_all +zetaDelta [Engine.Steady, SourceInvariant.any]
  all_goals exact ⟨_, rfl⟩

theorem verticalCmd_run_of_vertical (c : Cmd) {x : Engine} (hnest : x.nest = fr :: rest)
    (hv : fr.mode.isVertical) : (verticalCmd c).run.run x = (.ok false, x) := by
  rw [verticalCmd, run_get_bind]
  have hm : x.mode = fr.mode := by simp [Engine.mode, hnest]
  cases hmode : fr.mode <;> simp_all [Mode.isVertical] <;> rfl

/-- `\vskip` in a vertical mode, before printed glue and the end of the input, appends that
glue as it reads back. -/
theorem vskip_printed_run (m : Nat) (c : Cmd) (name : String) {x e : Engine} {g : Glue}
    (hg : g.Printable) (hend : e.EndsGlue []) (hx : x.Reads e (Token.ofText g.toText) [])
    (hnest : e.nest = fr :: rest) (hv : fr.mode.isVertical) :
    ∃ x', (primitiveCmd (m + 5) c name .vskip).run.run x = (.ok (), x') ∧
      x'.nest = { fr with list := fr.list.push (.glue g.printed .explicit) } :: rest := by
  obtain ⟨x₁, hscan, hahead⟩ := run_of_spec (scanGlue_printed m e g [] [] hg hend)
    (by simpa using hx)
  have hvert := verticalCmd_run_of_vertical c (hx.nest.trans hnest) hv
  refine ⟨((appendItem (.glue g.printed .explicit)).run.run x₁).2, ?_, ?_⟩
  · rw [primitiveCmd]
    simp only
    rw [run_bind_ok hvert]
    simp only [Bool.false_eq_true, if_false, if_true]
    rw [run_bind_ok hscan]
    rfl
  · have h1 : x₁.nest = fr :: rest := hahead.nest.trans hnest
    have hmod : ∀ f : Engine → Engine, (modify f : EngineM Unit).run.run x₁ = (.ok (), f x₁) :=
      fun _ => rfl
    simp only [appendItem, modifyCur, hmod, h1]

theorem kern_spec (n : Nat) (c : Cmd) (name : String) :
    ⦃fun x => ⌜x.nest = fr :: rest⌝⦄ primitiveCmd n c name .kern
    ⦃post⟨fun _ x => ⌜∃ d, x.nest = { fr with list := fr.list.push (.kern d) } :: rest⌝,
      fun _ _ => ⌜True⌝⟩⦄ := by
  have hdimen := scanDimen_steady (fr :: rest) .any n
  unfold primitiveCmd
  mvcgen [hdimen, appendItem, modifyCur, -scanDimen_keeps, -appendItem_keeps]
  all_goals simp_all +zetaDelta [Engine.Steady, SourceInvariant.any]
  all_goals exact ⟨_, rfl⟩

/-- `\hrule` in a vertical mode appends a rule and sets the previous depth to
`ignoreDepth`. -/
theorem hrule_spec (n : Nat) (c : Cmd) (name : String) (hv : fr.mode.isVertical) :
    ⦃fun x => ⌜x.nest = fr :: rest⌝⦄ primitiveCmd n c name .hrule
    ⦃post⟨fun _ x => ⌜∃ w h d, x.nest =
        { fr with list := fr.list.push (.rule w h d), prevDepth := ignoreDepth } :: rest⌝,
      fun _ _ => ⌜True⌝⟩⦄ := by
  have hrule := scanRuleSpec_steady (fr :: rest) .any n true
  have hvert := @verticalCmd_of_vertical fr rest c hv
  unfold primitiveCmd
  mvcgen [hrule, hvert, appendItem, modifyCur, -scanRuleSpec_keeps, -appendItem_keeps,
    -modifyCur_keeps, -verticalCmd_lockstep]
  all_goals simp_all +zetaDelta [Engine.Steady, SourceInvariant.any]
  all_goals exact ⟨_, _, _, rfl⟩

/-! ### A fresh list -/

theorem pushNest_run (e : Engine) (m : Mode) :
    (pushNest m).run.run e =
      (.ok (), ({ e with nest := { mode := m } :: e.nest } : Engine).logged (.mode e.mode m)) := rfl

theorem appendToVList_after_pushNest (e : Engine) (m : Mode) (b : Box) :
    ∃ e', (pushNest m).run.run e = (.ok (), e') ∧
      (appendToVList b).run.run e' =
        (.ok (), { e' with nest := { mode := m, list := #[.box b], prevDepth := b.depth } :: e.nest }) := by
  refine ⟨_, pushNest_run e m, ?_⟩
  have hnest : (({ e with nest := { mode := m } :: e.nest } : Engine).logged (.mode e.mode m)).nest =
      { mode := m } :: e.nest := by simp
  exact appendToVList_of_ignored hnest (Int32.le_refl _)

/-! ### The law -/

/-- Interline glue keeps baselines `\baselineskip` apart. A box `b` entering a vertical list
whose previous depth `pd` is above `ignoreDepth` gets exactly one glue item before it: glue
of `\baselineskip` less `pd` and the box's height, which puts the previous baseline and the
box's `\baselineskip` apart, or `\lineskip` when that width is below `\lineskiplimit`. At
`ignoreDepth` or below it gets none. Either way the previous depth becomes the box's depth.
`\vskip`, `\vglue` and `\kern` leave the previous depth alone, `\hrule` sets it to
`ignoreDepth`, and a fresh list starts there, so that its first box gets no glue. -/
theorem interline_glue_keeps_baselines :
    (∀ (e : Engine) (fr : Frame) (rest : List Frame) (b : Box), e.nest = fr :: rest →
      let bs := e.glueParam "baselineskip"
      let d := bs.width - fr.prevDepth - b.height
      (fr.prevDepth ≤ ignoreDepth → (appendToVList b).run.run e =
        (.ok (), { e with nest := { fr with list := fr.list.push (.box b), prevDepth := b.depth } :: rest })) ∧
      (ignoreDepth < fr.prevDepth → e.dimenParam "lineskiplimit" ≤ d →
        fr.prevDepth + d + b.height = bs.width ∧
        (appendToVList b).run.run e = (.ok (), { e with nest := { fr with
          list := (fr.list.push (.glue { bs with width := d } .baselineskip)).push (.box b),
          prevDepth := b.depth } :: rest })) ∧
      (ignoreDepth < fr.prevDepth → d < e.dimenParam "lineskiplimit" →
        (appendToVList b).run.run e = (.ok (), { e with nest := { fr with
          list := (fr.list.push (.glue (e.glueParam "lineskip") .lineskip)).push (.box b),
          prevDepth := b.depth } :: rest }))) ∧
    (∀ (n : Nat) (c : Cmd) (name : String) (p : Prim) (e e' : Engine) (fr : Frame)
        (rest : List Frame),
      (p = .vskip ∨ p = .vglue ∨ p = .kern) → e.nest = fr :: rest → fr.mode.isVertical →
      (primitiveCmd n c name p).run.run e = (.ok (), e') →
      ∃ it : Item, ((∃ g, it = .glue g .explicit) ∨ ∃ d, it = .kern d) ∧
        e'.nest = { fr with list := fr.list.push it } :: rest) ∧
    (∀ (n : Nat) (c : Cmd) (name : String) (e e' : Engine) (fr : Frame) (rest : List Frame),
      e.nest = fr :: rest → fr.mode.isVertical →
      (primitiveCmd n c name .hrule).run.run e = (.ok (), e') →
      ∃ w h d, e'.nest = { fr with list := fr.list.push (.rule w h d), prevDepth := ignoreDepth } :: rest) ∧
    (∀ (e : Engine) (m : Mode) (b : Box), ∃ e', (pushNest m).run.run e = (.ok (), e') ∧
      (appendToVList b).run.run e' =
        (.ok (), { e' with nest := { mode := m, list := #[.box b], prevDepth := b.depth } :: e.nest })) := by
  refine ⟨fun e fr rest b hnest => ⟨appendToVList_of_ignored hnest,
      fun hpd hd => ⟨baselines_apart _ _ _, appendToVList_of_baselineskip hnest hpd hd⟩,
      appendToVList_of_lineskip hnest⟩, ?_, ?_, appendToVList_after_pushNest⟩
  · intro n c name p e e' fr rest hp hnest hv hrun
    rcases or_assoc.2 hp with hp | rfl
    · have h := run_of_triple (vskip_spec n c name hp hv) hnest
      rw [hrun] at h
      obtain ⟨g, hg⟩ := h
      exact ⟨_, .inl ⟨g, rfl⟩, hg⟩
    · have h := run_of_triple (kern_spec n c name) hnest
      rw [hrun] at h
      obtain ⟨d, hd⟩ := h
      exact ⟨_, .inr ⟨d, rfl⟩, hd⟩
  · intro n c name e e' fr rest hnest hv hrun
    have h := run_of_triple (hrule_spec n c name hv) hnest
    rw [hrun] at h
    exact h

/-- A box of height 7pt after a box of depth 2pt, with `\baselineskip` 12pt, gets 3pt of
interline glue; `\vskip1.0pt` in vertical mode appends its glue. -/
theorem interline_glue_after_box_and_vskip :
    let e₀ := Engine.create {}
    let fr : Frame := { mode := .vertical, prevDepth := 131072 }
    let b : Box := { height := 458752, depth := 131072 }
    let e : Engine := { e₀ with nest := [fr], table := (e₀.table.assign
      { space := .gluepar, name := "baselineskip" } (.glue { width := 786432 }) true).2 }
    let x : Engine := { e₀ with inputs := pendingOf (Token.ofText "1.0pt") }
    (appendToVList b).run.run e = (.ok (), { e with nest := [{ fr with
      list := (fr.list.push (.glue { width := 196608 } .baselineskip)).push (.box b),
      prevDepth := 131072 }] }) ∧
    ∃ x', (primitiveCmd 5 ⟨.cs "vskip", .primitive "vskip" .vskip, false⟩ "vskip" .vskip).run.run x
      = (.ok (), x') ∧ ∃ it : Item, ((∃ g, it = .glue g .explicit) ∨ ∃ d, it = .kern d) ∧
        x'.nest = [{ mode := .vertical, list := #[it] }] := by
  intro e₀ fr b e x
  have hbs : e.glueParam "baselineskip" = { width := 786432 } := by
    simp [e, Engine.glueParam, Engine.glueAt, Engine.get, Scope.Table.assign, Scope.Table.get]
  have hlim : e.dimenParam "lineskiplimit" = 0 := by
    have h := Engine.create_get_of_ne_meaning {}
      (k := { space := .dimenpar, name := "lineskiplimit" }) (by decide)
    simp only [Engine.get, Scope.Table.get] at h
    simp [e, e₀, Engine.dimenParam, Engine.dimenAt, Engine.get, Scope.Table.assign,
      Scope.Table.get, Std.HashMap.getD_insert, h, initialEquivalent]
  have hpd : ignoreDepth < fr.prevDepth := by decide
  have hd : e.dimenParam "lineskiplimit" ≤
      (e.glueParam "baselineskip").width - fr.prevDepth - b.height := by
    rw [hlim, hbs]
    decide
  obtain ⟨-, hbox⟩ := (interline_glue_keeps_baselines.1 e fr [] b rfl).2.1 hpd hd
  have hg : ({ width := 65536 } : Glue).Printable :=
    ⟨by decide, by decide, by decide, fun _ => rfl, fun _ => rfl⟩
  have hend : e₀.EndsGlue [] := ⟨⟨⟨rfl, rfl⟩, by simp⟩, by simp⟩
  have htext : ({ width := 65536 } : Glue).toText = "1.0pt" := by decide
  have hx : x.Reads e₀ (Token.ofText ({ width := 65536 } : Glue).toText) [] :=
    ⟨rfl, rfl, rfl, rfl, rfl, by simp [x, e₀, Engine.create, htext], rfl⟩
  obtain ⟨x', hrun, -⟩ := vskip_printed_run 0 ⟨.cs "vskip", .primitive "vskip" .vskip, false⟩
    "vskip" hg hend hx (rfl : e₀.nest = [{ mode := .vertical }]) rfl
  obtain ⟨it, hit, hnest⟩ := interline_glue_keeps_baselines.2.1 5 _ "vskip" .vskip x x'
    { mode := .vertical } [] (.inl rfl) rfl rfl hrun
  refine ⟨?_, x', hrun, it, hit, ?_⟩
  · have hw : (786432 : Scaled) - fr.prevDepth - b.height = 196608 := by decide
    rw [hbox, hbs, hw]
  · rw [hnest]
    rfl

end EngineM

end Galley
