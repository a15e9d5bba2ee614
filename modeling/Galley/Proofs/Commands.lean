import Mathlib
import Galley.Proofs.Conditionals

/-!
# The commands expansion gives

`getX` expands until it reads a token whose meaning does not expand, and returns that token
as a command. `Engine.Runs` describes expansion over a pending text as a sequence of steps:
silent ones, which give no command; plain tokens, each given back as a command; and
expansions that read exactly their operands and put plain tokens in front of what follows
(`Engine.ExpandsTo`). `getX_spec` says that one call of `getX` performs the silent steps up
to the next command and returns it, and `getXs_spec` that successive calls give the commands
of a run in order.

What follows the commands is stated with the loop of `getX` itself: `getXLoop` is that loop
with the number of rounds left, and `Engine.ComesTo` says that reading on from one engine is,
some rounds later, reading on from another. Silent steps are such rounds
(`Engine.Reads.comesTo_silent`), so after the commands of a run the engine reads on as from
where the run ends.

The loop of `getX` is bounded by a billion rounds. Every silent step reads at least one
token, so a text shorter than that never runs the loop out.
-/

namespace Galley

open Std.Do

set_option mvcgen.warning false

/-- A token that `getX` gives back as it is: it has a meaning, and the meaning does not
expand. -/
def Engine.Plain (e : Engine) (t : Token) : Prop :=
  e.meaning t ≠ .undefined ∧ (e.meaning t).expands = false

theorem Prim.expands_of_isConditional {p : Prim} (h : p.isConditional) : p.expands := by
  cases p <;> simp_all [Prim.expands, Prim.isConditional]

theorem Engine.Silent.head {e : Engine} {m : Nat} {s s' : List Token × List Cond}
    (h : e.Silent m s s') :
    ∃ u us, s.1 = u :: us ∧ e.meaning u ≠ .undefined ∧ (e.meaning u).expands = true := by
  cases h with
  | test hc hcond =>
    exact ⟨_, _, rfl, by simp [hc], by simp [hc, Meaning.expands, Prim.expands_of_isConditional hcond]⟩
  | case hc =>
    exact ⟨_, _, rfl, by simp [hc], by simp [hc, Meaning.expands, Prim.expands, Prim.isConditional]⟩
  | close hc hop =>
    refine ⟨_, _, rfl, by simp [hc], ?_⟩
    rcases hop with rfl | rfl | rfl <;> simp [hc, Meaning.expands, Prim.expands]

/-- Expanding `u` with budget `m` reads exactly the tokens `ops`, whatever follows them, and
puts the plain tokens `out`, at least one, in front of what follows. -/
def Engine.ExpandsTo (e : Engine) (m : Nat) (u : Token) (ops out : List Token) : Prop :=
  e.meaning u ≠ .undefined ∧ (e.meaning u).expands = true ∧ out ≠ [] ∧ (∀ p ∈ out, e.Plain p) ∧
    ∀ R cs, ⦃fun x => ⌜x.Reads e (ops ++ R) cs⌝⦄ EngineM.expand (m + 2) u (e.meaning u)
      ⦃⇓ _ x => ⌜x.Reads { e with inputs := pendingOf R ++ e.inputs } out cs⌝⦄

/-- Expansion from the tokens an engine reads and its open conditionals to `s'`, giving the
plain tokens `ys` as commands on the way: silent steps; plain tokens read as they are; and
expansions that read exactly their operands and put plain tokens in front, which are then
read as they are. Tests and expansions with budget `m`. -/
inductive Engine.Runs (e : Engine) (m : Nat) :
    List Token × List Cond → List Token → List Token × List Cond → Prop
  | refl (s : List Token × List Cond) : Engine.Runs e m s [] s
  | silent {s s' s'' : List Token × List Cond} {ys : List Token} :
      e.Silent m s s' → Engine.Runs e m s' ys s'' → Engine.Runs e m s ys s''
  | plain {t : Token} {toks : List Token} {cs : List Cond} {ys : List Token}
      {s'' : List Token × List Cond} :
      e.Plain t → Engine.Runs e m (toks, cs) ys s'' → Engine.Runs e m (t :: toks, cs) (t :: ys) s''
  | expand {u : Token} {ops out toks : List Token} {cs : List Cond} {ys : List Token}
      {s'' : List Token × List Cond} :
      e.ExpandsTo m u ops out → Engine.Runs e m (toks, cs) ys s'' →
      Engine.Runs e m (u :: (ops ++ toks), cs) (out ++ ys) s''

namespace Engine.Runs

variable {e : Engine} {m : Nat} {s s' s'' : List Token × List Cond} {ys zs : List Token}

theorem trans (h : e.Runs m s ys s') (h' : e.Runs m s' zs s'') : e.Runs m s (ys ++ zs) s'' := by
  induction h with
  | refl => exact h'
  | silent hs _ ih => exact .silent hs (ih h')
  | plain ht _ ih => exact .plain ht (ih h')
  | expand hx _ ih =>
    rw [List.append_assoc]
    exact .expand hx (ih h')

theorem of_silent (h : e.Silent m s s') : e.Runs m s [] s' := .silent h (.refl _)

theorem reflTransGen (h : e.Runs m s [] s') : Relation.ReflTransGen (e.Silent m) s s' := by
  generalize hy : ([] : List Token) = ys at h
  induction h with
  | refl => exact .refl
  | silent hs _ ih => exact .head hs (ih hy)
  | plain => simp at hy
  | expand hx => exact absurd (List.append_eq_nil_iff.1 hy.symm).1 hx.2.2.1

/-- A run that gives a command reaches by silent steps either the command itself, a plain
token, or an expansion that puts it in front. -/
theorem cons {y : Token} (h : e.Runs m s (y :: ys) s'') :
    (∃ toks cs, Relation.ReflTransGen (e.Silent m) s (y :: toks, cs) ∧ e.Plain y ∧
      e.Runs m (toks, cs) ys s'') ∨
    ∃ u ops out toks cs zs, Relation.ReflTransGen (e.Silent m) s (u :: (ops ++ toks), cs) ∧
      e.ExpandsTo m u ops (y :: out) ∧ ys = out ++ zs ∧ e.Runs m (toks, cs) zs s'' := by
  generalize hy : y :: ys = l at h
  induction h with
  | refl => simp at hy
  | silent hs _ ih =>
    rcases ih hy with ⟨toks, cs, hrun, hp, hr⟩ | ⟨u, ops, out, toks, cs, zs, hrun, hx, hys, hr⟩
    · exact .inl ⟨toks, cs, .head hs hrun, hp, hr⟩
    · exact .inr ⟨u, ops, out, toks, cs, zs, .head hs hrun, hx, hys, hr⟩
  | plain ht hr =>
    simp only [List.cons.injEq] at hy
    obtain ⟨rfl, rfl⟩ := hy
    exact .inl ⟨_, _, .refl, ht, hr⟩
  | @expand u ops out toks cs zs _ hx hr =>
    obtain ⟨o, out', rfl⟩ := List.exists_cons_of_ne_nil hx.2.2.1
    simp only [List.cons_append, List.cons.injEq] at hy
    obtain ⟨rfl, rfl⟩ := hy
    exact .inr ⟨u, ops, out', toks, cs, zs, .refl, hx, rfl, hr⟩

theorem length_le (h : e.Runs m s ys s') : s'.1.length ≤ s.1.length := by
  induction h with
  | refl => simp
  | silent hs _ ih => exact ih.trans hs.length_lt.le
  | plain _ _ ih => simp only [List.length_cons] at ih ⊢; omega
  | expand _ _ ih => simp only [List.length_cons, List.length_append] at ih ⊢; omega

theorem length_lt (h : e.Runs m s ys s') (hys : ys ≠ []) : s'.1.length < s.1.length := by
  induction h with
  | refl => simp at hys
  | silent hs hr ih => exact hr.length_le.trans_lt hs.length_lt
  | plain _ hr _ =>
    have := hr.length_le
    dsimp only at this ⊢
    simp only [List.length_cons]
    omega
  | expand _ hr _ =>
    have := hr.length_le
    dsimp only at this ⊢
    simp only [List.length_cons, List.length_append]
    omega

end Engine.Runs

theorem Engine.Silent.length_le_of_reflTransGen {e : Engine} {m : Nat}
    {s s' : List Token × List Cond} (h : Relation.ReflTransGen (e.Silent m) s s') :
    s'.1.length ≤ s.1.length := by
  induction h with
  | refl => exact le_refl _
  | tail _ hs ih => exact (hs.length_lt.le).trans ih

/-- What an engine reads on its way to `s₁` through silent steps: it is there, or it reads the
token of the next silent step. -/
theorem Engine.Reads.next_of_run {x e : Engine} {m : Nat} {s s₁ : List Token × List Cond}
    (hx : x.Reads e s.1 s.2) (hrun : Relation.ReflTransGen (e.Silent m) s s₁) :
    s = s₁ ∨
      ∃ u us s₂, x.pendingHead? = some (u, false) ∧ x.dropPending.Reads e us s.2 ∧
        e.Silent m (u :: us, s.2) s₂ ∧ Relation.ReflTransGen (e.Silent m) s₂ s₁ ∧
        s.1 = u :: us ∧ e.meaning u ≠ .undefined ∧ (e.meaning u).expands = true := by
  rcases Relation.ReflTransGen.cases_head_iff.1 hrun with rfl | ⟨s₂, hstep, hrest⟩
  · exact .inl rfl
  · obtain ⟨u, us, hs, hdef, hexp⟩ := hstep.head
    obtain ⟨s1, s2⟩ := s
    simp only at hs hx hstep
    subst hs
    exact .inr ⟨u, us, s₂, hx.pendingHead, hx.dropPending.1, hstep, hrest, rfl, hdef, hexp⟩

/-- Where `getX`, having come through silent steps, finds the command `y` it gives: `y` is
plain and read as it is, with `out` after it; or a token `u` is expanded, reading exactly
`ops` and putting `y :: out` in front of `toks`. The rest `out` is then read over the stack of
`e₁`. -/
inductive Engine.Arrives (e : Engine) (m : Nat) :
    List Token × List Cond → Token → List Token → Engine → Prop
  | plain {y : Token} {out : List Token} {cs : List Cond} :
      e.Plain y → Engine.Arrives e m (y :: out, cs) y out e
  | expand {u y : Token} {ops out toks : List Token} {cs : List Cond} :
      e.ExpandsTo m u ops (y :: out) →
      Engine.Arrives e m (u :: (ops ++ toks), cs) y out { e with inputs := pendingOf toks ++ e.inputs }

@[simp] theorem Engine.reads_over_nil {x e : Engine} {R : List Token} {cs : List Cond} :
    x.Reads { e with inputs := pendingOf R ++ e.inputs } [] cs ↔ x.Reads e R cs := by
  simp [Engine.reads_iff, pendingOf]

namespace EngineM

/-- The invariant of the loop of `getX` on its way through silent steps to where it finds the
command `y`: reading silent steps toward it, having read `k` tokens; reading `y` and `out`
once the expansion that gives them is made; or done, with `y` given. -/
def GetXInv (e : Engine) (m : Nat) (s s₁ : List Token × List Cond) (y : Token)
    (out : List Token) (e₁ : Engine) (k : Nat) (suffix : List Nat) (st : Option (Option Cmd))
    (x : Engine) : Prop :=
  (st = none ∧ ((∃ s', x.Reads e s'.1 s'.2 ∧ Relation.ReflTransGen (e.Silent m) s' s₁ ∧
      s'.1.length + k ≤ s.1.length) ∨ (x.Reads e₁ (y :: out) s₁.2 ∧ k ≤ s.1.length))) ∨
    (st = some (some ⟨y, e.meaning y, false⟩) ∧ suffix = [] ∧ x.Reads e₁ out s₁.2)

/-- A round of the loop of `getX` from the invariant, with rounds left: the token read next is
unfrozen, and it is `y`, plain, or it expands into an engine of the invariant a round on. -/
theorem GetXInv.round {e e₁ x : Engine} {m : Nat} {s s₁ : List Token × List Cond} {y : Token}
    {out : List Token} {k i : Nat} {suffix : List Nat} {st : Option (Option Cmd)}
    (hlim : e.options.maxExpansions = 0) (harr : e.Arrives m s₁ y out e₁)
    (hlen : s.1.length < 1000000000) (h : GetXInv e m s s₁ y out e₁ k (i :: suffix) st x) :
    st = none ∧ (∀ u, x.dropPending.meaning u = e.meaning u) ∧
      ∃ t, x.pendingHead? = some (t, false) ∧
      ((e.Plain t ∧ t = y ∧ x.dropPending.Reads e₁ out s₁.2) ∨
        (e.meaning t ≠ .undefined ∧ (e.meaning t).expands = true ∧
          ∃ P : Engine → Prop, P x.dropPending ∧ ⦃fun z => ⌜P z⌝⦄ expand (m + 2) t (e.meaning t)
            ⦃⇓ _ z => ⌜GetXInv e m s s₁ y out e₁ (k + 1) suffix none z⌝⦄)) := by
  have hmeaning : ∀ t, e₁.meaning t = e.meaning t := by
    intro t
    cases harr <;> rfl
  rcases h with ⟨hst, ⟨s', hx, hrun, hk⟩ | ⟨hx, hk⟩⟩ | ⟨-, hsuf, -⟩
  · refine ⟨hst, ?_⟩
    rcases hx.next_of_run hrun with rfl | ⟨u, us, s₂, hph, hd, hstep, hrest, hs, hdef, hexp⟩
    · cases harr with
      | plain hy =>
        exact ⟨hx.dropPending.1.meaning_eq, y, hx.pendingHead, .inl ⟨hy, rfl, hx.dropPending.1⟩⟩
      | expand hex =>
        simp only [List.length_cons, List.length_append] at hk
        exact ⟨hx.dropPending.1.meaning_eq, _, hx.pendingHead, .inr ⟨hex.1, hex.2.1, _,
          hx.dropPending.1,
          triple_post (hex.2.2.2.2 _ _) fun _ w hw => .inl ⟨rfl, .inr ⟨hw, by omega⟩⟩⟩⟩
    · -- a silent step on the way, made by the expansion of its first token
      have hshort := hstep.length_lt
      rw [hs] at hk
      simp only [List.length_cons] at hshort hk
      exact ⟨hd.meaning_eq, u, hph, .inr ⟨hdef, hexp, _, hd, triple_post (expand_silent_spec e m hlim hstep
        (by omega)) fun _ w hw => .inl ⟨rfl, .inl ⟨s₂, hw, hrest, by omega⟩⟩⟩⟩
  · -- past the expansion, `y` is read as it is
    have hy : e.Plain y := by
      cases harr with
      | plain hy => exact hy
      | expand hex => exact hex.2.2.2.1 y (by simp)
    have hm : ∀ u, x.dropPending.meaning u = e.meaning u := fun u => by
      rw [hx.dropPending.1.meaning_eq, hmeaning]
    exact ⟨hst, hm, y, hx.pendingHead, .inl ⟨hy, rfl, hx.dropPending.1⟩⟩
  · cases hsuf

theorem getX_spec (e : Engine) (m : Nat) (hlim : e.options.maxExpansions = 0)
    {s s₁ : List Token × List Cond} {y : Token} {out : List Token} {e₁ : Engine}
    (h : Relation.ReflTransGen (e.Silent m) s s₁) (harr : e.Arrives m s₁ y out e₁)
    (hlen : s.1.length < 1000000000) :
    ⦃fun x => ⌜x.Reads e s.1 s.2⌝⦄ getX (m + 3)
    ⦃⇓ r x => ⌜r = some ⟨y, e.meaning y, false⟩ ∧ x.Reads e₁ out s₁.2⌝⦄ := by
  rw [getX, next_eq_pending]
  mvcgen invariants
  | inv1 => ⇓p x => ⌜GetXInv e m s s₁ y out e₁ p.fst.prefix.length p.fst.suffix p.snd.fst x⌝
  case vc7.pre => exact .inl ⟨rfl, .inl ⟨s, ‹_›, h, by simp⟩⟩
  case vc8 =>
    rcases ‹GetXInv _ _ _ _ _ _ _ _ _ _ _› with ⟨hst, -⟩ | ⟨hst, -, hx⟩ <;> simp_all
  case vc9 =>
    -- the loop cannot run out: every round reads one of fewer than a billion tokens
    rcases ‹GetXInv _ _ _ _ _ _ _ _ _ _ _› with ⟨-, ⟨s', -, -, hl⟩ | ⟨-, hl⟩⟩ | ⟨h, -⟩
    all_goals simp_all
    all_goals omega
  case vc5 =>
    obtain ⟨-, -, t, hph, -⟩ := GetXInv.round hlim harr hlen ‹GetXInv _ _ _ _ _ _ _ _ (_ :: _) _ _›
    exact (‹∀ t frozen, _ = some (t, frozen) → False› t false
      (‹Engine.pendingHead? _ = _›.symm.trans hph)).elim
  case vc6 =>
    obtain ⟨-, -, t, hph, -⟩ := GetXInv.round hlim harr hlen ‹GetXInv _ _ _ _ _ _ _ _ (_ :: _) _ _›
    simp [hph] at ‹¬(Engine.pendingHead? _).isSome = true›
  all_goals
    have hsome := ‹Engine.pendingHead? _ = some (_, _)›
    obtain ⟨hst, hm, t, hph, hread⟩ :=
      GetXInv.round hlim harr hlen ‹GetXInv _ _ _ _ _ _ _ _ (_ :: _) _ _›
    obtain ⟨rfl, rfl⟩ := Prod.mk.inj (Option.some.inj (hph.symm.trans hsome))
  case vc1 => simp at ‹false = true›
  all_goals rw [hm] at *
  case vc4 =>
    rcases hread with ⟨hp, -⟩ | ⟨-, -, P, hP, hspec⟩
    · simp_all [Engine.Plain]
    · exact wp_of_spec hspec (fun _ w hw => by simpa using hw) hP
  case vc3 =>
    rcases hread with ⟨-, rfl, hd⟩ | ⟨-, hexp, -⟩
    · exact .inr ⟨by simp_all, rfl, hd⟩
    · simp_all
  all_goals rcases hread with ⟨hp, -⟩ | ⟨hdef, -⟩ <;> simp_all [Engine.Plain]

/-- `getX` gives a command that does not expand as `next` reads it, from the input or the
lexer alike. -/
theorem getX_run_unexpanded {x x₁ : Engine} {t : Token} (m : Nat)
    (hnext : next.run.run x = (.ok (some (t, false)), x₁)) (hplain : x₁.Plain t) :
    (getX (m + 1)).run.run x = (.ok (some ⟨t, x₁.meaning t, false⟩), x₁) := by
  have hspec : ⦃fun y => ⌜y = x⌝⦄ next ⦃⇓ r y => ⌜r = some (t, false) ∧ y = x₁⌝⦄ :=
    triple_of_run fun y hy => ⟨_, _, hy ▸ hnext, rfl, rfl⟩
  have hget : ⦃fun y => ⌜y = x⌝⦄ getX (m + 1)
      ⦃⇓ r y => ⌜r = some ⟨t, x₁.meaning t, false⟩ ∧ y = x₁⌝⦄ := by
    rw [getX]
    mvcgen [hspec] invariants
    | inv1 => ⇓p y => ⌜(p.snd.fst = none ∧ p.fst.prefix = [] ∧ y = x) ∨
        (p.snd.fst = some (some ⟨t, x₁.meaning t, false⟩) ∧ p.fst.suffix = [] ∧ y = x₁)⌝
    all_goals simp_all [Engine.Plain]
  obtain ⟨y, hrun, rfl⟩ := run_of_spec hget rfl
  exact hrun

theorem next_run_reads {x e : Engine} {u : Token} {us : List Token} {cs : List Cond}
    (h : x.Reads e (u :: us) cs) : next.run.run x = (.ok (some (u, false)), x.dropPending) := by
  rw [next_eq_pending, run_get_bind, if_pos (by simp [h.pendingHead])]
  simp only [h.pendingHead]
  rfl

/-- A plain token read next is given as it is, whatever follows it. -/
theorem getX_reads_plain (e : Engine) (m : Nat) {p : Token} {l : List Token} {cs : List Cond}
    (hp : e.Plain p) :
    ⦃fun x => ⌜x.Reads e (p :: l) cs⌝⦄ getX (m + 1)
    ⦃⇓ r x => ⌜r = some ⟨p, e.meaning p, false⟩ ∧ x.Reads e l cs⌝⦄ :=
  triple_of_run fun x hx => by
    have hd := hx.dropPending.1
    refine ⟨_, _, getX_run_unexpanded m (next_run_reads hx) ?_, by rw [hd.meaning_eq], hd⟩
    simpa only [Engine.Plain, hd.meaning_eq] using hp

end EngineM

/-! ### The loop of `getX`, round by round -/

namespace EngineM

/-- The loop of `getX` with budget `n + 1` and `k` rounds left. A round reads a token; the
end of the input, a frozen token or one that does not expand ends the loop, an undefined one
fails it, and any other is expanded. -/
def getXLoop (n : Nat) : Nat → EngineM (Option Cmd)
  | 0 => pure none
  | k + 1 => do
    let some (t, frozen) ← next | return none
    if frozen then return some { tok := t, meaning := .relax, frozen := true }
    let d ← meaningOf t
    if d = .undefined then
      fail .undefinedControlSequence (some t) ("undefined control sequence " ++ t.text)
    if !d.expands then return some { tok := t, meaning := d }
    expand n t d
    getXLoop n k

theorem getX_eq_getXLoop (n : Nat) : getX (n + 1) = getXLoop n 1000000000 := by
  rw [getX]
  simp only [Std.Legacy.Range.forIn_eq_forIn_range', Std.Legacy.Range.size, Nat.sub_zero,
    Nat.add_sub_cancel, Nat.div_one]
  conv_rhs => rw [← @List.length_range' 0 1 1000000000]
  generalize List.range' 0 1000000000 = xs
  -- the rounds of the `for` loop ignore their index: one round of the loop per element
  induction xs with
  | nil => simp [getXLoop]
  | cons i xs ih =>
    rw [List.forIn_cons, List.length_cons, getXLoop]
    simp only [bind_assoc]
    congr 1
    funext r
    rcases r with _ | ⟨t, frozen⟩
    · simp
    · simp only
      split
      · simp
      · simp only [bind_assoc]
        congr 1
        funext d
        split
        · simp only [bind_assoc]
          congr 1
          funext u
          split
          · simp
          · simp only [bind_assoc, pure_bind]
            rw [ih]
        · split
          · simp
          · simp only [bind_assoc, pure_bind]
            rw [ih]

/-! ### One round that expands -/

theorem run_bind_error {α β : Type} {x : EngineM α} {f : α → EngineM β} {s s' : Engine}
    {err : EngineError} (h : x.run.run s = (.error err, s')) :
    (x >>= f).run.run s = (.error err, s') := by
  show (ExceptT.run (x >>= f)).run s = _
  rw [ExceptT.run_bind, StateT.run_bind]
  simp only [StateT.run] at h ⊢
  rw [h]
  rfl

theorem meaningOf_run (t : Token) (x : Engine) :
    (meaningOf t).run.run x = (.ok (x.meaning t), x) := by
  unfold meaningOf Engine.meaning
  split
  · rw [run_get_bind]
    split <;> simp_all [Engine.get] <;> rfl
  · rfl

/-- A round of the loop that reads a token to expand goes on where the expansion leaves the
engine. -/
theorem getXLoop_succ_run {n k : Nat} {x x₁ : Engine} {u : Token}
    (hnext : next.run.run x = (.ok (some (u, false)), x₁))
    (hdef : x₁.meaning u ≠ .undefined) (hexp : (x₁.meaning u).expands = true) :
    (getXLoop n (k + 1)).run.run x =
      (expand n u (x₁.meaning u) >>= fun _ => getXLoop n k).run.run x₁ := by
  rw [getXLoop, run_bind_ok hnext]
  simp only [Bool.false_eq_true, if_false]
  rw [run_bind_ok (meaningOf_run u x₁), if_neg hdef]
  simp only [hexp, Bool.not_true, Bool.false_eq_true, if_false]

end EngineM

open EngineM in
/-- Reading on from `x` with the loop of `getX` at budget `n + 1` comes, `j` rounds later, to
an engine `w` of `Q`: it reads on as `w` does. Or it stops, `j` rounds later, at the
expansion limit of the options of `e`. -/
def Engine.ComesTo (x e : Engine) (n : Nat) (Q : Engine → Prop) : Prop :=
  (∃ w j, Q w ∧ ∀ k, (getXLoop n (k + j)).run.run x = (getXLoop n k).run.run w) ∨
    ∃ err y j, e.StopsAtLimit err ∧ ∀ k, (getXLoop n (k + j)).run.run x = (.error err, y)

namespace Engine.ComesTo

open EngineM

variable {x e : Engine} {n : Nat} {Q R : Engine → Prop}

theorem refl (h : Q x) : x.ComesTo e n Q := .inl ⟨x, 0, h, fun _ => rfl⟩

theorem trans (h : x.ComesTo e n Q) (h' : ∀ y, Q y → y.ComesTo e n R) : x.ComesTo e n R := by
  rcases h with ⟨y, j, hy, hrun⟩ | ⟨err, z, j, hstop, hrun⟩
  · rcases h' y hy with ⟨w, i, hw, hrun'⟩ | ⟨err, z, i, hstop, hrun'⟩
    · exact .inl ⟨w, i + j, hw, fun k => by rw [← Nat.add_assoc, hrun, hrun']⟩
    · exact .inr ⟨err, z, i + j, hstop, fun k => by rw [← Nat.add_assoc, hrun, hrun']⟩
  · exact .inr ⟨err, z, j, hstop, hrun⟩

/-- A round that reads `u` and expands it, by an expansion that leaves an engine of `Q` or
stops at the expansion limit. -/
theorem round {u : Token} {us : List Token} {cs : List Cond} (hx : x.Reads e (u :: us) cs)
    (hdef : e.meaning u ≠ .undefined) (hexp : (e.meaning u).expands = true)
    (hspec : ⦃fun y => ⌜y.Reads e us cs⌝⦄ expand n u (e.meaning u)
      ⦃post⟨fun _ y => ⌜Q y⌝, fun err _ => ⌜e.StopsAtLimit err⌝⟩⦄) :
    x.ComesTo e n Q := by
  obtain ⟨hd, -⟩ := hx.dropPending
  have hround := fun k => getXLoop_succ_run (n := n) (k := k) (next_run_reads hx)
    (by rwa [hd.meaning_eq]) (by rwa [hd.meaning_eq])
  have hrun := run_of_triple hspec hd
  rw [hd.meaning_eq] at hround
  rcases hexpand : (expand n u (e.meaning u)).run.run x.dropPending with ⟨err | _, y⟩ <;>
    rw [hexpand] at hrun
  · exact .inr ⟨err, y, 1, hrun, fun k => by rw [hround k, run_bind_error hexpand]⟩
  · exact .inl ⟨y, 1, hrun, fun k => by rw [hround k, run_bind_ok hexpand]⟩

theorem of_no_limit (hlim : e.options.maxExpansions = 0) (h : x.ComesTo e n Q) :
    ∃ w j, Q w ∧ ∀ k, (getXLoop n (k + j)).run.run x = (getXLoop n k).run.run w := by
  rcases h with h | ⟨err, y, j, hstop, -⟩
  · exact h
  · exact absurd hstop.1 (by simp [hlim])

end Engine.ComesTo

/-- Silent steps are rounds of the loop of `getX`: reading on from an engine on its way
through them comes to an engine at their end, unless the expansion limit stops it. -/
theorem Engine.Reads.comesTo_silent {x e : Engine} {m : Nat} {s s₁ : List Token × List Cond}
    (hrun : Relation.ReflTransGen (e.Silent m) s s₁) (hlen : s.1.length < 1000000000)
    (hx : x.Reads e s.1 s.2) : x.ComesTo e (m + 2) fun w => w.Reads e s₁.1 s₁.2 := by
  -- the steps are peeled from the head, each a round of the loop
  induction hrun using Relation.ReflTransGen.head_induction_on generalizing x with
  | refl => exact .refl hx
  | head hstep hrest ih =>
    obtain ⟨u, us, hs, hdef, hexp⟩ := hstep.head
    have hshort := hstep.length_lt
    rw [hs] at hx hshort hlen
    rw [List.length_cons] at hshort hlen
    exact (Engine.ComesTo.round hx hdef hexp (EngineM.expand_silent_or_stop e m (hs ▸ hstep)
      (by omega))).trans fun y hy => ih (by omega) hy

namespace EngineM

/-- `k` calls of `getX` in a row with budget `n`, and the commands they give. -/
def getXs (n : Nat) : Nat → EngineM (List (Option Cmd))
  | 0 => pure []
  | k + 1 => do
    let c ← getX n
    let cs ← getXs n k
    pure (c :: cs)

@[simp] theorem Engine.meaning_with_inputs (e : Engine) (l : List Source) (t : Token) :
    ({ e with inputs := l } : Engine).meaning t = e.meaning t := rfl

/-- Successive calls of `getX` read the plain tokens `pre` that an expansion put in front of
`toks`, and then follow a run from `toks`: they give `pre` and the commands of the run, and
leave the engine reading on as from where the run ends. -/
theorem getXs_pushed (e : Engine) (m : Nat) (hlim : e.options.maxExpansions = 0)
    {s₁ : List Token × List Cond} (ys : List Token) {pre zs toks : List Token} {cs : List Cond}
    (hys : ys = pre ++ zs) (hpre : ∀ p ∈ pre, e.Plain p) (hrun : e.Runs m (toks, cs) zs s₁)
    (hlen : toks.length < 1000000000) :
    ⦃fun x => ⌜x.Reads { e with inputs := pendingOf toks ++ e.inputs } pre cs⌝⦄
      getXs (m + 3) ys.length
    ⦃⇓ cmds x => ⌜cmds = ys.map (fun u => some ⟨u, e.meaning u, false⟩) ∧
      x.ComesTo e (m + 2) fun w => w.Reads e s₁.1 s₁.2⌝⦄ := by
  induction ys generalizing pre zs toks cs with
  | nil =>
    obtain ⟨rfl, rfl⟩ := List.append_eq_nil_iff.1 hys.symm
    rw [List.length_nil, getXs]
    mvcgen
    exact ⟨rfl, (Engine.reads_over_nil.1 ‹_›).comesTo_silent (s := (toks, cs)) hrun.reflTransGen hlen⟩
  | cons y ys ih =>
    rw [List.length_cons, getXs]
    cases pre with
    | cons p pre =>
      obtain ⟨rfl, rfl⟩ := List.cons_eq_cons.1 hys
      have hspec := @getX_reads_plain { e with inputs := pendingOf toks ++ e.inputs } (m + 2) y pre
        cs (hpre y (by simp))
      have hrest := ih rfl (fun p hp => hpre p (by simp [hp])) hrun hlen
      mvcgen [hspec, hrest]
      all_goals simp_all
    | nil =>
      rw [List.nil_append] at hys
      subst hys
      rcases hrun.cons with ⟨toks', cs', hsil, hy, hrest⟩ |
        ⟨u, ops, out, toks', cs', zs', hsil, hx, rfl, hrest⟩
      · have hshort := Engine.Silent.length_le_of_reflTransGen hsil
        simp only [List.length_cons] at hshort
        have hspec := getX_spec e m hlim hsil (.plain hy) hlen
        have hnext := ih (List.nil_append _).symm (by simp) hrest (by omega)
        mvcgen [hspec, hnext]
        all_goals simp_all
      · have hshort := Engine.Silent.length_le_of_reflTransGen hsil
        simp only [List.length_cons, List.length_append] at hshort
        have hspec := getX_spec e m hlim hsil (.expand hx) hlen
        have hnext := ih rfl (fun p hp => hx.2.2.2.1 p (by simp [hp]))
          hrest (by omega)
        mvcgen [hspec, hnext]
        all_goals simp_all

/-- Successive calls of `getX` give the commands of a run, and leave the engine reading on,
some rounds of the loop of `getX` later, as from where the run ends. -/
theorem getXs_spec (e : Engine) (m : Nat) (hlim : e.options.maxExpansions = 0)
    {s s₁ : List Token × List Cond} {ys : List Token} (h : e.Runs m s ys s₁)
    (hlen : s.1.length < 1000000000) :
    ⦃fun x => ⌜x.Reads e s.1 s.2⌝⦄ getXs (m + 3) ys.length
    ⦃⇓ cmds x => ⌜cmds = ys.map (fun u => some ⟨u, e.meaning u, false⟩) ∧
      x.ComesTo e (m + 2) fun w => w.Reads e s₁.1 s₁.2⌝⦄ := by
  have hpushed := getXs_pushed e m hlim ys (List.nil_append _).symm (by simp) h hlen
  simpa only [Engine.reads_over_nil] using hpushed

end EngineM

end Galley
