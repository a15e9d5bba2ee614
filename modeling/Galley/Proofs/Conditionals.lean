import Mathlib
import Galley.Proofs.Skipping

/-!
# Conditionals during expansion

What a conditional does when expansion reads it: its test reads its operands, and then
either the first branch is entered or skipping passes it, stopping at the `\else` of the
other branch or at the `\fi`. `\ifcase` passes one case per `\or` until its number is
used up. `Engine.afterTest` and `Engine.afterCase` say where reading goes on, and with which
conditionals open; `conditional_spec` and `conditional_case_spec` say that `conditional`
goes there, for any test that reads exactly its operands.

A branch that was entered ends at its terminator, which `condEnd_spec` handles. Together
these are the steps of expansion that give no command, `Engine.Silent`: each reads at least
one token, and `expand_silent_spec` says that `expand` performs it.
-/

namespace Galley

open Std.Do

set_option mvcgen.warning false

/-- The test of conditional `op` read as `c`, with budget `m`, reads exactly the operands
`ops` and answers `b`: from every engine reading `ops` ahead of `e`, it leaves the engine
reading what follows them, with the same open conditionals. -/
def Engine.TestReads (e : Engine) (m : Nat) (c : Token) (op : Prim) (ops : List Token)
    (b : Bool) : Prop :=
  ∀ toks cs, ⦃fun x => ⌜x.Reads e (ops ++ toks) cs⌝⦄ EngineM.test m c op
    ⦃⇓ r x => ⌜r = b ∧ x.Reads e toks cs⌝⦄

/-- Reading the number of an `\ifcase` with budget `m` reads exactly the tokens `ops` and
gives `v`, in the same way. -/
def Engine.CaseReads (e : Engine) (m : Nat) (ops : List Token) (v : Int32) : Prop :=
  ∀ toks cs, ⦃fun x => ⌜x.Reads e (ops ++ toks) cs⌝⦄ EngineM.scanInt m
    ⦃⇓ r x => ⌜r = v ∧ x.Reads e toks cs⌝⦄

theorem Engine.testReads_ifTrue (e : Engine) (m : Nat) (c : Token) :
    e.TestReads (m + 1) c .ifTrue [] true := by
  intro toks cs
  rw [List.nil_append, EngineM.test.eq_def]
  mvcgen

/-- `\ifx` reads the next two tokens, unexpanded, and compares their meanings. -/
theorem Engine.testReads_ifX (e : Engine) (m : Nat) (c a b : Token) :
    e.TestReads (m + 1) c .ifX [a, b] ((e.meaning a).same (e.meaning b)) := by
  intro toks cs
  rw [EngineM.test.eq_def]
  simp only
  rw [EngineM.next_eq_pending]
  mvcgen
  all_goals
    have hx := ‹Engine.Reads _ _ _ _›
    simp only [List.cons_append, List.nil_append] at hx
    have h1 := hx.pendingHead
    obtain ⟨h2, -⟩ := hx.dropPending
    have h3 := h2.pendingHead
    obtain ⟨h4, -⟩ := h2.dropPending
    subst_vars
    simp_all [h4.meaning_eq]

/-- Where a conditional `c` other than `\ifcase` goes on once its test has answered `b`, in
front of `body`: into its first branch, past its `\else` into the other branch, or past its
`\fi`; with what is left to read and the open conditionals. An `\or` at level zero, or no
terminator at all, is an error. -/
def Engine.afterTest (e : Engine) (c : Token) (b : Bool) (body : List Token) (cs : List Cond) :
    Option (List Token × List Cond) :=
  if b then some (body, ⟨.elseOrFi, c, e.line⟩ :: cs)
  else match e.skip true 0 body with
    | some (.fi, ts) => some (ts, cs)
    | some (.elseBranch, ts) => some (ts, ⟨.fiOnly, c, e.line⟩ :: cs)
    | _ => none

/-- Where `\ifcase` goes on with number `k` in front of `toks`: in the current case once `k`
is zero, in the else branch past an `\else`, or past the `\fi` with the conditional closed
(`none`); with what is left to read. Every `\or` passed counts `k` down. -/
def Engine.caseSkip (e : Engine) (k : Int32) (toks : List Token) :
    Option (Option CondLimit × List Token) :=
  if k = 0 then some (some .orElseFi, toks)
  else match h : e.skip true 0 toks with
    | some (.orBranch, ts) => e.caseSkip (k - 1) ts
    | some (.elseBranch, ts) => some (some .fiOnly, ts)
    | some (.fi, ts) => some (none, ts)
    | _ => none
termination_by toks.length
decreasing_by exact e.skip_length h

/-- Where `\ifcase` read as `c` goes on once its number is `v`, in front of `body`. -/
def Engine.afterCase (e : Engine) (c : Token) (v : Int32) (body : List Token) (cs : List Cond) :
    Option (List Token × List Cond) :=
  match e.caseSkip v body with
  | some (some l, ts) => some (ts, ⟨l, c, e.line⟩ :: cs)
  | some (none, ts) => some (ts, cs)
  | none => none

/-- One round of `\ifcase` passing its cases: with cases still to pass, skipping stops at an
`\or` and goes on with one case fewer, or ends in the else branch or past the `\fi`. -/
theorem Engine.caseSkip_step {e : Engine} {k : Int32} {toks : List Token}
    {r : Option CondLimit × List Token} (hk : k ≠ 0) (h : e.caseSkip k toks = some r) :
    ∃ p ts, e.skip true 0 toks = some (p, ts) ∧
      (p = .orBranch ∧ e.caseSkip (k - 1) ts = some r ∨ p = .elseBranch ∧ r = (some .fiOnly, ts) ∨
        p = .fi ∧ r = (none, ts)) := by
  rw [Engine.caseSkip, if_neg hk] at h
  split at h <;> simp_all

theorem Engine.caseSkip_length {e : Engine} {k : Int32} {toks ts : List Token}
    {l : Option CondLimit} (h : e.caseSkip k toks = some (l, ts)) : ts.length ≤ toks.length := by
  fun_induction Engine.caseSkip e k toks with
  | case1 => simp_all
  | case2 _ _ _ _ hsk ih =>
    have := e.skip_length hsk
    have := ih h
    omega
  | case3 _ _ _ _ hsk | case4 _ _ _ _ hsk =>
    cases h
    exact (e.skip_length hsk).le
  | case5 => simp at h

namespace EngineM

theorem conditional_spec (e : Engine) (m : Nat) (c : Token) (op : Prim) (hcase : op ≠ .ifCase)
    (ops body : List Token) (b : Bool) (ht : e.TestReads m c op ops b) (cs : List Cond)
    (ts : List Token) (cs' : List Cond) (hres : e.afterTest c b body cs = some (ts, cs'))
    (hlen : body.length < 1000000000) :
    ⦃fun x => ⌜x.Reads e (ops ++ body) cs⌝⦄ conditional (m + 1) c op
    ⦃⇓ _ x => ⌜x.Reads e ts cs'⌝⦄ := by
  rw [conditional.eq_def]
  have htest := ht body (⟨.inTest, c, e.line⟩ :: cs)
  cases b with
  | true =>
    simp only [Engine.afterTest, if_true, Option.some.injEq, Prod.mk.injEq] at hres
    obtain ⟨rfl, rfl⟩ := hres
    mvcgen -trivial [htest, setCondLimit] invariants
    | inv1 => ⇓ _ => ⌜False⌝
    all_goals simp_all +zetaDelta [Engine.reads_iff, Engine.line]
  | false =>
    obtain ⟨p, hp, hsk, hres'⟩ : ∃ p, (p = .fi ∨ p = .elseBranch) ∧
        e.skip true 0 body = some (p, ts) ∧
        cs' = if p = .fi then cs else ⟨.fiOnly, c, e.line⟩ :: cs := by
      simp only [Engine.afterTest, Bool.false_eq_true, if_false] at hres
      split at hres <;> simp_all
    have hpass := passText_spec e c body (⟨.inTest, c, e.line⟩ :: cs) p ts hsk hlen
    mvcgen -trivial [htest, hpass, setCondLimit, truncateConds] invariants
    | inv1 => ⇓⟨cur, st⟩ x => ⌜st.1 = none ∧ cur.prefix.length = 0 ∧
        x.Reads e body (⟨.inTest, c, e.line⟩ :: cs) ∨
        st.1 = some () ∧ cur.suffix = [] ∧ x.Reads e ts cs'⌝
    case vc8 =>
      rename_i hr _ hel _
      obtain ⟨rfl, hx⟩ := hr
      subst hel
      simp_all +zetaDelta [Engine.reads_iff, Engine.line]
    all_goals simp_all +zetaDelta [Engine.reads_iff, Engine.line]

theorem conditional_case_spec (e : Engine) (m : Nat) (c : Token) (ops body : List Token)
    (v : Int32) (hv : e.CaseReads m ops v) (cs : List Cond) (ts : List Token) (cs' : List Cond)
    (hres : e.afterCase c v body cs = some (ts, cs')) (hlen : body.length < 1000000000) :
    ⦃fun x => ⌜x.Reads e (ops ++ body) cs⌝⦄ conditional (m + 1) c .ifCase
    ⦃⇓ _ x => ⌜x.Reads e ts cs'⌝⦄ := by
  rw [conditional.eq_def]
  obtain ⟨r, hcs⟩ : ∃ r, e.caseSkip v body = some r := by
    unfold Engine.afterCase at hres
    split at hres <;> simp_all
  have hscan := hv body (⟨.inTest, c, e.line⟩ :: cs)
  mvcgen -trivial [hscan, setCondLimit, truncateConds] invariants
  | inv1 => ⇓⟨cur, st⟩ x => ⌜st.1 = none ∧ (∃ rest, x.Reads e rest (⟨.inTest, c, e.line⟩ :: cs) ∧
        e.caseSkip st.2 rest = some r ∧ (st.2 = 0 ∨ rest.length + cur.prefix.length ≤ body.length)) ∨
      st.1 = some () ∧ cur.suffix = [] ∧ x.Reads e ts cs'⌝
  case vc3 =>
    rename_i hk0 _ hinv _
    rcases hinv with ⟨hnone, rest, hx, hk, hl⟩ | ⟨hsome, hsuf, hx⟩
    · obtain ⟨p, ts', hst, hcase⟩ := Engine.caseSkip_step hk0 hk
      have hshort := e.skip_length hst
      have hl' := hl.resolve_left hk0
      refine wp_of_spec (passText_spec e c rest _ p ts' hst (by omega))
        (fun r x ⟨hrp, hx⟩ => ?_) hx
      subst hrp
      rcases hcase with ⟨rfl, hk'⟩ | ⟨rfl, rfl⟩ | ⟨rfl, rfl⟩
      · mvcgen -trivial
        case inl.isFalse => exact .inl ⟨trivial, ts', hx, hk', .inr (by simp; omega)⟩
        all_goals simp_all +zetaDelta [Engine.reads_iff, Engine.line]
      all_goals
        mvcgen -trivial [setCondLimit, truncateConds]
        all_goals simp_all +zetaDelta [Engine.reads_iff, Engine.line, Engine.afterCase]
    · simp_all
  case vc2 =>
    rename_i hk0 _ hinv _
    rcases hinv with ⟨-, rest, hx, hk, -⟩ | ⟨-, hsuf, -⟩
    · exact .inl ⟨trivial, rest, hx, hk, .inl hk0⟩
    · simp at hsuf
  case vc4 =>
    rename_i hr _
    obtain ⟨rfl, hx⟩ := hr
    exact .inl ⟨trivial, body, by simp [hx], hcs, .inr (by simp)⟩
  case vc6 =>
    rename_i _ hinv
    rcases hinv with ⟨-, rest, hx, hk, hl⟩ | ⟨hsome, -⟩
    · have hk0 : _ = (0 : Int32) := hl.resolve_right (by simp; omega)
      rw [hk0, Engine.caseSkip, if_pos rfl, Option.some.injEq] at hk
      subst hk
      simp_all +zetaDelta [Engine.reads_iff, Engine.line, Engine.afterCase]
    · simp_all
  all_goals simp_all +zetaDelta [Engine.reads_iff, Engine.line]

end EngineM

/-- One step of expansion that gives no command, on the tokens an engine reads and its open
conditionals: a conditional with its test and the skipping that follows, or a terminator
that the innermost conditional allows with the skipping to that conditional's `\fi`. Tests
read with budget `m`. -/
inductive Engine.Silent (e : Engine) (m : Nat) :
    List Token × List Cond → List Token × List Cond → Prop
  | test {c : Token} {name : String} {op : Prim} {ops body ts : List Token} {b : Bool}
      {cs cs' : List Cond} (hc : e.meaning c = .primitive name op) (hcond : op.isConditional)
      (hcase : op ≠ .ifCase) (ht : e.TestReads m c op ops b)
      (hres : e.afterTest c b body cs = some (ts, cs')) :
      Engine.Silent e m (c :: (ops ++ body), cs) (ts, cs')
  | case {c : Token} {name : String} {ops body ts : List Token} {v : Int32} {cs cs' : List Cond}
      (hc : e.meaning c = .primitive name .ifCase) (hv : e.CaseReads m ops v)
      (hres : e.afterCase c v body cs = some (ts, cs')) :
      Engine.Silent e m (c :: (ops ++ body), cs) (ts, cs')
  | close {t : Token} {name : String} {op : Prim} {toks ts : List Token} {cond : Cond}
      {cs : List Cond} (hc : e.meaning t = .primitive name op)
      (hop : op = .fi ∨ op = .elseBranch ∨ op = .orBranch) (hrank : EngineM.closeRank op ≤ cond.limit.rank)
      (hfi : op = .fi ∧ ts = toks ∨ op ≠ .fi ∧ e.skip false 0 toks = some (.fi, ts)) :
      Engine.Silent e m (t :: toks, cond :: cs) (ts, cs)

theorem Engine.Silent.length_lt {e : Engine} {m : Nat} {s s' : List Token × List Cond}
    (h : e.Silent m s s') : s'.1.length < s.1.length := by
  cases h with
  | test _ _ _ _ hres =>
    simp only [Engine.afterTest] at hres
    split at hres
    · cases hres
      simp
    · split at hres <;> cases hres
      all_goals
        have := e.skip_length ‹_›
        simp
        omega
  | case _ _ hres =>
    simp only [Engine.afterCase] at hres
    split at hres <;> cases hres
    all_goals
      have := Engine.caseSkip_length ‹_›
      simp
      omega
  | close _ _ _ hfi =>
    rcases hfi with ⟨-, rfl⟩ | ⟨-, hsk⟩
    · simp
    · have := e.skip_length hsk
      simp; omega

/-- `err` is the stop of an engine with the options of `e` at its expansion limit. -/
def Engine.StopsAtLimit (e : Engine) (err : EngineError) : Prop :=
  0 < e.options.maxExpansions ∧ err.kind = .resourceExhausted ∧
    err.msg = "expansion limit " ++ toString e.options.maxExpansions ++ " exceeded"

namespace EngineM

/-- A silent step made by `expand`, which may stop at the expansion limit before it. -/
theorem expand_silent_or_stop (e : Engine) (m : Nat)
    {u : Token} {us : List Token} {cs : List Cond} {s : List Token × List Cond}
    (h : e.Silent m (u :: us, cs) s) (hlen : us.length < 1000000000) :
    ⦃fun x => ⌜x.Reads e us cs⌝⦄ expand (m + 2) u (e.meaning u)
    ⦃post⟨fun _ x => ⌜x.Reads e s.1 s.2⌝, fun err _ => ⌜e.StopsAtLimit err⌝⟩⦄ := by
  cases h with
  | test hc hcond hcase ht hres =>
    have hspec := conditional_spec e m _ _ hcase _ _ _ ht _ _ _ hres (by simp at hlen; omega)
    rw [hc, expand]
    mvcgen [hspec, fail]
    all_goals simp_all +zetaDelta [Engine.reads_iff, Engine.StopsAtLimit]
  | case hc hv hres =>
    have hspec := conditional_case_spec e m _ _ _ _ hv _ _ _ hres (by simp at hlen; omega)
    rw [hc, expand]
    mvcgen [hspec, fail]
    all_goals simp_all +zetaDelta [Engine.reads_iff, Engine.StopsAtLimit]
  | @close _ _ op _ ts cond cs' hc hop hrank hfi =>
    have hspec := condEnd_spec e u op us ts cond cs' hrank hfi hlen
    rw [hc, expand]
    mvcgen [hspec, fail]
    all_goals rcases hop with rfl | rfl | rfl <;>
      simp_all +zetaDelta [Engine.reads_iff, Prim.isConditional, Engine.StopsAtLimit]

/-- With the expansion limit off, a program that can stop only at the limit does not stop. -/
theorem triple_of_no_limit {α : Type} {x : EngineM α} {e : Engine} {P : Engine → Prop}
    {φ : α → Engine → Prop} (hlim : e.options.maxExpansions = 0)
    (h : ⦃fun s => ⌜P s⌝⦄ x ⦃post⟨fun r s => ⌜φ r s⌝, fun err _ => ⌜e.StopsAtLimit err⌝⟩⦄) :
    ⦃fun s => ⌜P s⌝⦄ x ⦃⇓ r s => ⌜φ r s⌝⦄ :=
  Triple.of_entails_wp (Triple.entails_wp_of_post h
    (PostCond.entails.mk (fun _ _ hr => hr)
      ⟨fun _ _ hs => absurd hs.1 (by simp [hlim]), trivial⟩))

theorem expand_silent_spec (e : Engine) (m : Nat) (hlim : e.options.maxExpansions = 0)
    {u : Token} {us : List Token} {cs : List Cond} {s : List Token × List Cond}
    (h : e.Silent m (u :: us, cs) s) (hlen : us.length < 1000000000) :
    ⦃fun x => ⌜x.Reads e us cs⌝⦄ expand (m + 2) u (e.meaning u) ⦃⇓ _ x => ⌜x.Reads e s.1 s.2⌝⦄ :=
  triple_of_no_limit hlim (expand_silent_or_stop e m h hlen)

end EngineM

end Galley
