import Mathlib
import Galley.Proofs.InputStack

/-!
# Tail calls are made over the stack below their text

`next` drops a pending list as it reads the list's last token, before that token is
expanded. A macro call that ends the text it stands in, its arguments included, is
therefore made over the stack that text was pushed on: the call pushes the body with the
arguments in place right over it, at the depth of the call that pushed the text. A loop
whose text comes back to such a call runs at a fixed depth, and a depth limit that admits
its first call admits every later one.

`Engine.TailCall` names the two shapes a call takes at the end of a text: the token of the
macro with its arguments, or `\expandafter`, the token and a `\fi` that ends a branch the
text opened, as in plain's `\loop`. There `\expandafter` reads the `\fi`, which drops the
list, closes the branch with it and puts the token back alone.

The statement is an equation between runs of the loop of `getX`, which `getXLoop` writes
with the number of rounds left: reading on from an engine on its way to a tail call is
reading on, some rounds later, from the engine the call leaves (`Engine.ComesTo`). It holds
in any engine, whatever its table, the commands run before and the text of the macro, so it
holds of every round of main control, each of which begins with `getX`. With the expansion
limit on, the engine may stop at the limit on the way.
-/

namespace Galley

open Std.Do

set_option mvcgen.warning false

@[simp] theorem Engine.meaning_logged (x : Engine) (ev : Event) (t : Token) :
    (x.logged ev).meaning t = x.meaning t :=
  Engine.meaning_congr (Engine.logged_table x ev) t

/-- The tokens an engine reads, with its open conditionals, end in a tail call of `t` that
reads `args` as its arguments and is made with the conditionals `cs` open: `t` and its
arguments, or `\expandafter t \fi` inside a branch that `\fi` may end. -/
inductive Engine.TailCall (e : Engine) (t : Token) :
    List Token × List Cond → List Token → List Cond → Prop
  | direct (args : List Token) (cs : List Cond) : Engine.TailCall e t (t :: args, cs) args cs
  | expandAfter {a f : Token} {na nf : String} {k : Cond} {cs : List Cond}
      (ha : e.meaning a = .primitive na .expandAfter) (hf : e.meaning f = .primitive nf .fi)
      (hk : k.limit ≠ .inTest) : Engine.TailCall e t ([a, t, f], k :: cs) [] cs

namespace EngineM

/-! ### The expansions on the way to a call and the call -/

theorem expand_call_or_stop (e : Engine) (m : Nat) (t : Token) (mac : Macro) (cs : List Cond)
    (L₀ : List Token) (parts : List (List Token × List Token))
    (hparams : mac.params = paramText L₀ (parts.map Prod.snd))
    (hargs : ∀ p ∈ parts, Braces.Argument mac.long p.1 p.2)
    (hroom : ¬(0 < e.options.maxDepth ∧ e.options.maxDepth ≤ (e.inputs.length : Int)))
    (hlen : (instanceOf L₀ parts).length ≤ 1000000000) :
    ⦃fun x => ⌜x.Reads e (instanceOf L₀ parts) cs⌝⦄ expand (m + 1) t (.defined mac)
    ⦃post⟨fun _ x => ⌜x.Reads e
        (instantiate (parts.map fun p => Braces.strip p.1).toArray mac.body) cs⌝,
      fun err _ => ⌜e.StopsAtLimit err⌝⟩⦄ := by
  have hcall := macroCall_reads_instance e t mac cs L₀ parts [] hparams hargs
    (by simpa [pendingOf] using hroom) hlen
  simp only [List.append_nil, pendingOf, if_true, List.nil_append] at hcall
  rw [expand]
  mvcgen [hcall, fail, -macroCall_keeps, -fail_keeps]
  all_goals simp_all +zetaDelta [Engine.reads_iff, Engine.StopsAtLimit]

/-- `\expandafter t \fi`, the last tokens of their list inside a branch that `\fi` may end:
the conditional is closed and `t` is put back, alone over the stack below. -/
theorem expand_expandAfter_or_stop (e : Engine) (m : Nat) {a t f : Token} {na nf : String}
    {k : Cond} {cs : List Cond}
    (ha : e.meaning a = .primitive na .expandAfter) (hf : e.meaning f = .primitive nf .fi)
    (hk : k.limit ≠ .inTest) :
    ⦃fun x => ⌜x.Reads e [t, f] (k :: cs)⌝⦄ expand (m + 4) a (e.meaning a)
    ⦃post⟨fun _ x => ⌜x.Reads e [t] cs⌝, fun err _ => ⌜e.StopsAtLimit err⌝⟩⦄ := by
  have hclose : e.Silent m ([f], k :: cs) ([], cs) :=
    .close hf (.inl rfl) (by cases hl : k.limit <;> simp_all [closeRank, CondLimit.rank])
      (.inl ⟨rfl, rfl⟩)
  have hfi : ∀ u d, ⦃fun x => ⌜x.Reads e [] (k :: cs) ∧ u = f ∧ d = e.meaning f⌝⦄
      expand (m + 2) u d
      ⦃post⟨fun _ x => ⌜x.Reads e [] cs⌝, fun err _ => ⌜e.StopsAtLimit err⌝⟩⦄ := by
    intro u d x hx
    obtain ⟨hx, rfl, rfl⟩ := hx
    exact expand_silent_or_stop e m hclose (by simp) x hx
  have hpri : ⦃fun x => ⌜x.Reads e [t, f] (k :: cs)⌝⦄ expandPrimitive (m + 3) a .expandAfter
      ⦃post⟨fun _ x => ⌜x.Reads e [t] cs⌝, fun err _ => ⌜e.StopsAtLimit err⌝⟩⦄ := by
    rw [expandPrimitive.eq_def]
    simp only
    rw [next_eq_pending]
    mvcgen [hfi, back_wp, -meaningOf_keeps, -expand_keeps, -emit_keeps, -back_keeps]
    -- the two reads give `t` and then `f`, which empties the list; no other branch is taken
    all_goals
      have hx := ‹Engine.Reads _ e [t, f] (k :: cs)›
      have h1 := hx.pendingHead
      obtain ⟨h2, -⟩ := hx.dropPending
      have h3 := h2.pendingHead
      obtain ⟨h4, -⟩ := h2.dropPending
      subst_vars
      simp_all [h4.meaning_eq, Engine.reads_iff, pendingOf, Meaning.expands, Prim.expands]
  rw [ha, expand]
  mvcgen [hpri, fail, -fail_keeps]
  all_goals simp_all +zetaDelta [Engine.reads_iff, Engine.StopsAtLimit]

end EngineM

namespace Engine.Reads

open EngineM

variable {x e : Engine} {m : Nat} {t : Token} {mac : Macro} {L₀ : List Token}
  {parts : List (List Token × List Token)} {cs : List Cond}

theorem comesTo_call (ht : e.meaning t = .defined mac)
    (hparams : mac.params = paramText L₀ (parts.map Prod.snd))
    (hargs : ∀ p ∈ parts, Braces.Argument mac.long p.1 p.2)
    (hroom : ¬(0 < e.options.maxDepth ∧ e.options.maxDepth ≤ (e.inputs.length : Int)))
    (hlen : (instanceOf L₀ parts).length ≤ 1000000000)
    (hx : x.Reads e (t :: instanceOf L₀ parts) cs) :
    x.ComesTo e (m + 4) fun w =>
      w.Reads e (instantiate (parts.map fun p => Braces.strip p.1).toArray mac.body) cs := by
  refine Engine.ComesTo.round hx (by simp [ht]) (by simp [ht, Meaning.expands]) ?_
  rw [ht]
  exact expand_call_or_stop e (m + 3) t mac cs L₀ parts hparams hargs hroom hlen

/-- Reading on from an engine on its way to a tail call through silent steps comes to the
engine the call leaves: it reads the body over the stack of `e`, with the conditionals of the
call open. -/
theorem comesTo_tail (ht : e.meaning t = .defined mac)
    (hparams : mac.params = paramText L₀ (parts.map Prod.snd))
    (hargs : ∀ p ∈ parts, Braces.Argument mac.long p.1 p.2)
    (hroom : ¬(0 < e.options.maxDepth ∧ e.options.maxDepth ≤ (e.inputs.length : Int)))
    {s s₁ : List Token × List Cond} (hrun : Relation.ReflTransGen (e.Silent (m + 2)) s s₁)
    (htail : e.TailCall t s₁ (instanceOf L₀ parts) cs) (hlen : s.1.length < 1000000000)
    (hx : x.Reads e s.1 s.2) :
    x.ComesTo e (m + 4) fun w =>
      w.Reads e (instantiate (parts.map fun p => Braces.strip p.1).toArray mac.body) cs := by
  have hshort := Engine.Silent.length_le_of_reflTransGen hrun
  refine (hx.comesTo_silent hrun hlen).trans fun y hy => ?_
  generalize hargs' : instanceOf L₀ parts = args at htail
  cases htail with
  | direct =>
    subst hargs'
    simp only [List.length_cons] at hshort
    exact hy.comesTo_call ht hparams hargs hroom (by omega)
  | expandAfter ha hf hk =>
    refine (Engine.ComesTo.round hy (by simp [ha]) (by simp [ha, Meaning.expands, Prim.expands])
      (expand_expandAfter_or_stop e m ha hf hk)).trans fun z hz => ?_
    have hcall : z.Reads e (t :: instanceOf L₀ parts) cs := by rw [hargs']; exact hz
    exact hcall.comesTo_call ht hparams hargs hroom (by simp [hargs'])

end Engine.Reads

namespace EngineM

/-- The stack of pending lists. Every function that reads tokens or puts them back keeps
each pending list non-empty, and so does every engine a run reaches. A push fails only on a
stack of `maxDepth` lists or more, and a stack is no deeper than the tokens pending on it.
A call that ends the text it stands in, with its arguments, directly or through
`\expandafter … \fi`, is made over the stack below that text: reading on from an engine on
its way to the call comes to an engine that reads the body over that stack (`Engine.Reads`
fixes its pending lists to the body's over those of `e`), unless the expansion limit stops
it on the way. The call needs room for one list over that stack, as a first call made over
it did. -/
theorem pending_lists_never_empty :
    (KeepsLive next ∧ (∀ t frozen, KeepsLive (back t frozen)) ∧
      (∀ l, KeepsLive (backList l)) ∧ (∀ l t, KeepsLive (push l t)) ∧
      (∀ n, KeepsLive (getX n)) ∧ (∀ n c, KeepsLive (dispatch n c)) ∧ KeepsLive mainControl) ∧
    (∀ (L : Snapshot → Prop) (e : Engine), e.Reachable L → e.Live) ∧
    (∀ (l : List Token) (t : Token) (e : Engine), ⦃fun x => ⌜x = e⌝⦄ push l t
      ⦃post⟨fun _ _ => ⌜True⌝,
        fun _ _ => ⌜0 < e.options.maxDepth ∧ e.options.maxDepth ≤ (e.inputs.length : Int)⌝⟩⦄) ∧
    (∀ e : Engine, e.Live → e.inputs.length ≤ (e.inputs.map (·.toks.length)).sum) ∧
    (∀ (e x : Engine) (m : Nat) (t : Token) (mac : Macro) (L₀ : List Token)
      (parts : List (List Token × List Token)) (s s₁ : List Token × List Cond) (cs : List Cond),
      e.meaning t = .defined mac → mac.params = paramText L₀ (parts.map Prod.snd) →
      (∀ p ∈ parts, Braces.Argument mac.long p.1 p.2) →
      ¬(0 < e.options.maxDepth ∧ e.options.maxDepth ≤ (e.inputs.length : Int)) →
      Relation.ReflTransGen (e.Silent (m + 2)) s s₁ → e.TailCall t s₁ (instanceOf L₀ parts) cs →
      s.1.length < 1000000000 → x.Reads e s.1 s.2 →
      x.ComesTo e (m + 4) fun w =>
        w.Reads e (instantiate (parts.map fun p => Braces.strip p.1).toArray mac.body) cs) :=
  ⟨⟨next_live, back_live, backList_live, push_live, getX_live, dispatch_live, mainControl_live⟩,
    fun _ _ h => h.live, push_fails_on_full_stack, fun _ h => h.length_le_pending,
    fun _ _ _ _ _ _ _ _ _ _ ht hparams hargs hroom hrun htail hlen hx =>
      hx.comesTo_tail ht hparams hargs hroom hrun htail hlen⟩

/-- `\def\loop{b\iftrue\expandafter\loop\fi}` in a fresh engine, with `\loop` on its way
to its tail call at the end of its own text: reading on from there is reading on, some
rounds later, from an engine that reads the text again over the empty stack. -/
theorem loop_through_expandafter_keeps_depth :
    let e₀ := Engine.create {}
    let mac : Macro := { body := [.tok (.char 98 .letter), .tok (.cs "iftrue"),
      .tok (.cs "expandafter"), .tok (.cs "loop"), .tok (.cs "fi")] }
    let e : Engine :=
      { e₀ with table := e₀.table.poke (meaningKey (.cs "loop")) (.meaning (.defined mac)) }
    let x : Engine :=
      { e with inputs := [{ toks := [.cs "iftrue", .cs "expandafter", .cs "loop", .cs "fi"] }] }
    ∃ w j, w.inputs = [{ toks := [.char 98 .letter, .cs "iftrue", .cs "expandafter",
        .cs "loop", .cs "fi"] }] ∧ w.table = e.table ∧
      ∀ k, (getXLoop 4 (k + j)).run.run x = (getXLoop 4 k).run.run w := by
  intro e₀ mac e x
  have hprim : ∀ n, n ≠ "loop" → e.meaning (.cs n) = e₀.meaning (.cs n) := by
    intro n hn
    simp [e, Engine.meaning, Engine.get, Scope.Table.get, Scope.Table.poke, meaningKey,
      Token.hasMeaning, Std.HashMap.getD_insert, Ne.symm hn]
  have hloop : e.meaning (.cs "loop") = .defined mac := by
    simp [e, Engine.meaning, Engine.get, Scope.Table.get, Scope.Table.poke, meaningKey,
      Token.hasMeaning]
  have hiftrue : e.meaning (.cs "iftrue") = .primitive "iftrue" .ifTrue := by
    rw [hprim _ (by decide)]
    simp [e₀, Engine.meaning_create, primitives]
  have hea : e.meaning (.cs "expandafter") = .primitive "expandafter" .expandAfter := by
    rw [hprim _ (by decide)]
    simp [e₀, Engine.meaning_create, primitives]
  have hfi : e.meaning (.cs "fi") = .primitive "fi" .fi := by
    rw [hprim _ (by decide)]
    simp [e₀, Engine.meaning_create, primitives]
  have hstep : e.Silent 2 ([.cs "iftrue", .cs "expandafter", .cs "loop", .cs "fi"], [])
      ([.cs "expandafter", .cs "loop", .cs "fi"], [⟨.elseOrFi, .cs "iftrue", e.line⟩]) :=
    @Engine.Silent.test e 2 _ _ _ [] _ _ _ _ _ hiftrue rfl (by decide)
      (Engine.testReads_ifTrue e 1 _) (by simp [Engine.afterTest])
  have hx : x.Reads e [.cs "iftrue", .cs "expandafter", .cs "loop", .cs "fi"] [] := by
    simp [x, e, e₀, Engine.reads_iff, pendingOf, Engine.create]
  rcases pending_lists_never_empty.2.2.2.2 e x 0 (.cs "loop") mac [] [] _ _ []
      hloop rfl (by simp) (by simp [e, e₀, Engine.create]) (.single hstep)
      (.expandAfter hea hfi (by decide)) (by simp) hx with
    ⟨w, j, hw, hrun⟩ | ⟨err, y, j, hstop, -⟩
  · refine ⟨w, j, ?_, hw.table, hrun⟩
    rw [hw.inputs]
    simp [e, e₀, Engine.create, pendingOf, instantiate, mac]
  · simp [Engine.StopsAtLimit, e, e₀, Engine.create] at hstop

end EngineM

end Galley
