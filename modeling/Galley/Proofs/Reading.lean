import Mathlib
import Galley.Engine.Control
import Galley.Proofs.ScopeSnapshots

/-!
# Reading ahead of an engine

Most of what expansion does happens while the engine reads a pending list of tokens that
was put in front of its input: a conditional's text, a macro's replacement, a number's
digits. `x.Reads e toks cs` says that engine `x` is engine `e` with `toks` still to be read
in front of the input of `e`, and with open conditionals `cs`; `x` may differ from `e` in
nothing else but the last token read, its count of expansions and its log. The lemmas here
say what reading one token does to such an engine.

`next` consults the lexer only when every pending list is empty. `next_eq_pending` states
this as a program with a pure test, so that `mvcgen` reads a pending token without help,
and `meaningOf_wp` gives the meaning of a token as a pure function of the engine.
-/

namespace Galley

open Std.Do

set_option mvcgen.warning false

/-- The meaning the table of `e` gives a token read unfrozen. -/
def Engine.meaning (e : Engine) (t : Token) : Meaning :=
  if EngineM.Token.hasMeaning t then
    match e.get (EngineM.meaningKey t) with
    | .meaning m => m
    | _ => .undefined
  else .charLet t

theorem Engine.meaning_congr {x e : Engine} (h : x.table = e.table) (t : Token) :
    x.meaning t = e.meaning t := by
  simp [Engine.meaning, Engine.get, h]

/-- A run of global assignments leaves each key the value of the last assignment to it. -/
theorem Scope.Table.values_foldl_assign {α ι : Type} (f : α → Key) (g : α → Equivalent)
    (l : List α) (t : Scope.Table Key Equivalent ι) (k : Key) :
    (l.foldl (fun t a => (t.assign (f a) (g a) true).2) t).values[k]? =
      ((l.reverse.find? fun a => f a == k).map g).or t.values[k]? := by
  induction l generalizing t with
  | nil => simp
  | cons a l ih =>
    rw [List.foldl_cons, ih, List.reverse_cons, List.find?_append]
    simp only [Scope.Table.assign, if_true, Std.HashMap.getElem?_insert, List.find?_singleton]
    cases l.reverse.find? fun a => f a == k <;> by_cases h : f a == k <;> simp [h]

theorem Scope.Table.dflt_foldl_assign {α ι : Type} (f : α → Key) (g : α → Equivalent)
    (l : List α) (t : Scope.Table Key Equivalent ι) :
    (l.foldl (fun t a => (t.assign (f a) (g a) true).2) t).dflt = t.dflt := by
  induction l generalizing t with
  | nil => rfl
  | cons a l ih =>
    rw [List.foldl_cons, ih]
    simp [Scope.Table.assign]

/-- In a fresh engine a control sequence means the primitive of its name, if there is one. -/
theorem Engine.meaning_create (o : EngineOptions) (n : String) :
    (Engine.create o).meaning (.cs n) =
      ((primitives.reverse.find? fun np => np.1 = n).map fun np => .primitive np.1 np.2).getD
        .undefined := by
  have hkey : (fun np : String × Prim => (({ space := .meaning, name := np.1 } : Key) ==
      { space := .meaning, name := n })) = fun np => decide (np.1 = n) := by
    funext np
    by_cases h : np.1 = n <;> simp [h]
  simp only [Engine.meaning, EngineM.Token.hasMeaning, if_true, EngineM.meaningKey, Engine.get,
    Scope.Table.get, Engine.create, Std.HashMap.getD_eq_getD_getElem?,
    Scope.Table.values_foldl_assign, hkey]
  cases primitives.reverse.find? fun np => decide (np.1 = n) <;>
    simp [Scope.Table.empty, Scope.Table.dflt_foldl_assign, initialEquivalent]

theorem Engine.create_get_of_ne_meaning (o : EngineOptions) {k : Key} (hk : k.space ≠ .meaning) :
    (Engine.create o).get k = initialEquivalent o.defaultFont k := by
  have hfind : (primitives.reverse.find? fun np =>
      ({ space := .meaning, name := np.1 } : Key) == k) = none := by
    rw [List.find?_eq_none]
    intro np _ h
    exact hk (congrArg Key.space (beq_iff_eq.1 h)).symm
  simp [Engine.get, Scope.Table.get, Engine.create, Std.HashMap.getD_eq_getD_getElem?,
    Scope.Table.values_foldl_assign, hfind, Scope.Table.empty, Scope.Table.dflt_foldl_assign]

/-- The pending lists that hold `toks`: none when it is empty, as `next` drops a list once
its last token is read. -/
def pendingOf (toks : List Token) : List Source :=
  if toks = [] then [] else [{ toks }]

/-- `x` is `e` reading `toks` ahead of the input of `e`, with open conditionals `cs`: it
agrees with `e` in all but its input, its conditionals, its last token, its count of
expansions and its log. -/
@[mk_iff] structure Engine.Reads (x e : Engine) (toks : List Token) (cs : List Cond) : Prop where
  options : x.options = e.options
  table : x.table = e.table
  lexer : x.lexer = e.lexer
  nest : x.nest = e.nest
  done : x.done = e.done
  inputs : x.inputs = pendingOf toks ++ e.inputs
  conds : x.conds = cs

/-- The next pending token with its frozen flag, if a pending list holds one. -/
def Engine.pendingHead? (x : Engine) : Option (Token × Bool) :=
  match x.inputs.dropWhile (·.toks.isEmpty) with
  | s :: _ => s.toks.head?.map (·, s.frozen)
  | [] => none

/-- The engine after reading its next pending token. -/
def Engine.dropPending (x : Engine) : Engine :=
  match x.inputs.dropWhile (·.toks.isEmpty) with
  | s :: rest =>
    match s.toks with
    | t :: ts => { x with inputs := if ts.isEmpty then rest else { s with toks := ts } :: rest,
                          last := some t }
    | [] => x
  | [] => x

/-- The engine after logging `ev`: only its log changes, and only when it traces. -/
def Engine.logged (x : Engine) (ev : Event) : Engine :=
  if x.options.tracing then { x with trace := x.trace.push ⟨x.table.depth, ev⟩ } else x

section Logged

variable (x : Engine) (ev : Event)

@[simp] theorem Engine.logged_options : (x.logged ev).options = x.options := by
  unfold Engine.logged; split <;> rfl
@[simp] theorem Engine.logged_table : (x.logged ev).table = x.table := by
  unfold Engine.logged; split <;> rfl
@[simp] theorem Engine.logged_lexer : (x.logged ev).lexer = x.lexer := by
  unfold Engine.logged; split <;> rfl
@[simp] theorem Engine.logged_inputs : (x.logged ev).inputs = x.inputs := by
  unfold Engine.logged; split <;> rfl
@[simp] theorem Engine.logged_last : (x.logged ev).last = x.last := by
  unfold Engine.logged; split <;> rfl
@[simp] theorem Engine.logged_conds : (x.logged ev).conds = x.conds := by
  unfold Engine.logged; split <;> rfl
@[simp] theorem Engine.logged_nest : (x.logged ev).nest = x.nest := by
  unfold Engine.logged; split <;> rfl
@[simp] theorem Engine.logged_done : (x.logged ev).done = x.done := by
  unfold Engine.logged; split <;> rfl
@[simp] theorem Engine.logged_expansions : (x.logged ev).expansions = x.expansions := by
  unfold Engine.logged; split <;> rfl

end Logged

@[simp] theorem Engine.reads_logged {x e : Engine} {ev : Event} {toks : List Token}
    {cs : List Cond} : (x.logged ev).Reads e toks cs ↔ x.Reads e toks cs := by
  simp [Engine.reads_iff]

namespace Engine.Reads

variable {x e : Engine} {u : Token} {us : List Token} {cs : List Cond}

theorem pendingHead (h : x.Reads e (u :: us) cs) : x.pendingHead? = some (u, false) := by
  simp [Engine.pendingHead?, h.inputs, pendingOf]

theorem dropPending (h : x.Reads e (u :: us) cs) :
    x.dropPending.Reads e us cs ∧ x.dropPending.last = some u := by
  obtain ⟨ho, ht, hl, hn, hd, hi, hc⟩ := h
  simp only [Engine.dropPending, hi, pendingOf]
  cases us <;> simp_all [Engine.reads_iff, pendingOf]

theorem meaning_eq (h : x.Reads e us cs) (t : Token) : x.meaning t = e.meaning t :=
  Engine.meaning_congr h.table t

end Engine.Reads

namespace EngineM

theorem run_get_bind {α : Type} (f : Engine → EngineM α) (x : Engine) :
    (get >>= f).run.run x = (f x).run.run x := rfl

/-! Runs and triples: a triple gives what a run satisfies, and a run that returns meets a
triple, so that a program can be followed along one path by its runs. -/

/-- A triple gives what the run of its program satisfies. -/
theorem run_of_triple {α : Type} {x : EngineM α} {P : Engine → Prop} {φ : α → Engine → Prop}
    {ψ : EngineError → Engine → Prop}
    (h : ⦃fun s => ⌜P s⌝⦄ x ⦃post⟨fun a s => ⌜φ a s⌝, fun err s => ⌜ψ err s⌝⟩⦄) {s : Engine}
    (hs : P s) :
    match x.run.run s with
    | (.ok a, s') => φ a s'
    | (.error err, s') => ψ err s' := by
  have hwp := h s hs
  simp only [WP.wp, PredTrans.apply, PredTrans.pushExcept, PredTrans.pushArg, StateT.run] at hwp
  rcases hrun : x.run.run s with ⟨err | a, s'⟩
  · simp only [StateT.run] at hrun
    simp only [hrun] at hwp
    exact hwp
  · simp only [StateT.run] at hrun
    simp only [hrun] at hwp
    exact hwp

theorem run_bind_ok {α β : Type} {x : EngineM α} {f : α → EngineM β} {s s' : Engine} {a : α}
    (h : x.run.run s = (.ok a, s')) : (x >>= f).run.run s = (f a).run.run s' := by
  show (ExceptT.run (x >>= f)).run s = _
  rw [ExceptT.run_bind, StateT.run_bind]
  simp only [StateT.run] at h ⊢
  rw [h]
  rfl

/-- A program that returns from every engine of the precondition meets the triple. -/
theorem triple_of_run {α : Type} {x : EngineM α} {P : Engine → Prop} {φ : α → Engine → Prop}
    (h : ∀ s, P s → ∃ a s', x.run.run s = (.ok a, s') ∧ φ a s') :
    ⦃fun s => ⌜P s⌝⦄ x ⦃⇓ r s => ⌜φ r s⌝⦄ := by
  intro s hs
  obtain ⟨a, s', hrun, hφ⟩ := h s hs
  simp only [WP.wp, PredTrans.apply, PredTrans.pushExcept, PredTrans.pushArg, StateT.run]
  simp only [StateT.run] at hrun
  rw [hrun]
  exact hφ

theorem run_bind_exists {α β : Type} {x : EngineM α} {f : α → EngineM β} {s : Engine}
    {P : α → Engine → Prop} {Q : β → Engine → Prop}
    (h : ∃ a s', x.run.run s = (.ok a, s') ∧ P a s')
    (hf : ∀ a s', P a s' → ∃ b s'', (f a).run.run s' = (.ok b, s'') ∧ Q b s'') :
    ∃ b s'', (x >>= f).run.run s = (.ok b, s'') ∧ Q b s'' := by
  obtain ⟨a, s', hrun, hP⟩ := h
  obtain ⟨b, s'', hrun', hQ⟩ := hf a s' hP
  exact ⟨b, s'', by rw [run_bind_ok hrun]; exact hrun', hQ⟩

/-- A program that must return `a` returns it when run. -/
theorem run_of_spec {α : Type} {x : EngineM α} {P Q : Engine → Prop} {a : α}
    (h : ⦃fun s => ⌜P s⌝⦄ x ⦃⇓ r s => ⌜r = a ∧ Q s⌝⦄) {s : Engine} (hs : P s) :
    ∃ s', x.run.run s = (.ok a, s') ∧ Q s' := by
  have hrun := run_of_triple h hs
  rcases hr : x.run.run s with ⟨_ | r, s'⟩
  · rw [hr] at hrun
    exact hrun.elim
  · rw [hr] at hrun
    obtain ⟨rfl, hq⟩ := hrun
    exact ⟨s', rfl, hq⟩

/-- `next` reads a pending token when there is one: the lexer is consulted only when every
pending list is empty. -/
theorem next_eq_pending : next = (do
    let x ← get
    if x.pendingHead?.isSome then
      set x.dropPending
      pure x.pendingHead?
    else next) := by
  apply ExceptT.ext
  apply StateT.ext
  intro x
  rw [run_get_bind]
  by_cases h : x.pendingHead?.isSome
  · rw [if_pos h, next, run_get_bind]
    simp only [Engine.pendingHead?, Engine.dropPending] at h ⊢
    split
    · split <;> simp_all
    · simp_all
  · rw [if_neg h]

theorem next_run_lexer {x : Engine} {lx lx' : Lexer} {t : Token} (hinputs : x.inputs = [])
    (hlx : x.lexer = some lx) (hnext : lx.next x.category x.endLineChar = .ok (some (t, lx'))) :
    next.run.run x = (.ok (some (t, false)), { x with lexer := some lx', last := some t }) := by
  rw [next, run_get_bind]
  simp only [hinputs, List.dropWhile_nil, hlx, hnext]
  rfl

/-- A spec applied where a caller's verification condition asks for it. -/
theorem wp_of_spec {α : Type} {x : EngineM α} {P : Engine → Prop} {φ : α → Engine → Prop}
    {Q : PostCond α (.except EngineError (.arg Engine .pure))}
    (h : ⦃fun s => ⌜P s⌝⦄ x ⦃⇓ r s => ⌜φ r s⌝⦄) (hpost : ∀ r s, φ r s → (Q.1 r s).down)
    {s : Engine} (hs : P s) : (wp⟦x⟧ Q s).down :=
  Triple.entails_wp_of_post h (PostCond.entails.mk (fun r s hr => hpost r s hr)
    ExceptConds.entails_false) s hs

theorem triple_post {α : Type} {x : EngineM α} {P : Engine → Prop} {φ ψ : α → Engine → Prop}
    (h : ⦃fun s => ⌜P s⌝⦄ x ⦃⇓ r s => ⌜φ r s⌝⦄) (hpost : ∀ r s, φ r s → ψ r s) :
    ⦃fun s => ⌜P s⌝⦄ x ⦃⇓ r s => ⌜ψ r s⌝⦄ :=
  Triple.of_entails_wp (Triple.entails_wp_of_post h
    (PostCond.entails.mk (fun r s hr => hpost r s hr) ExceptConds.entails_false))

/-- Logging changes nothing but the log. -/
@[spec] theorem emit_wp (ev : Event) (Q : PostCond Unit (.except EngineError (.arg Engine .pure))) :
    ⦃fun x => Q.1 () (x.logged ev)⦄ emit ev ⦃Q⦄ := by
  unfold emit
  mvcgen

/-- The meaning `meaningOf` reads is the one the table gives, and nothing changes. -/
@[spec] theorem meaningOf_wp (t : Token)
    (Q : PostCond Meaning (.except EngineError (.arg Engine .pure))) :
    ⦃fun x => Q.1 (x.meaning t) x⦄ meaningOf t ⦃Q⦄ := by
  unfold meaningOf
  mvcgen
  all_goals simp_all [Engine.meaning, Engine.get]

end EngineM

end Galley
