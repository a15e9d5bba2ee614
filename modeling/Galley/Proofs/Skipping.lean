import Mathlib
import Galley.Proofs.Reading

/-!
# Skipping conditional text

A false conditional, and a branch that has ended, skip tokens without expanding them:
`passText` stops at the first `\fi`, `\else` or `\or` at nesting level zero, where every
conditional met on the way opens a level and every `\fi` closes one, all by meaning.
`Engine.skip` is that search as a function on token lists, and `passText_spec` says that
`passText` performs it on the pending list an engine reads: it returns the terminator and
leaves the engine reading what follows it. `condEnd_spec` builds on it: a terminator read
where the innermost conditional allows it skips on to that conditional's `\fi` and closes
it.

Both loops are bounded by a billion rounds; each round reads a token, so a text shorter than
that is skipped to its end.
-/

namespace Galley

open Std.Do

set_option mvcgen.warning false

/-- Where skipping at nesting level `lvl` stops: at the first `\fi` at level zero or, with
`branches`, also at an `\else` or `\or` there; with the terminator and what follows it. -/
def Engine.skip (e : Engine) (branches : Bool) : Nat → List Token → Option (Prim × List Token)
  | _, [] => none
  | lvl, t :: ts =>
    match e.meaning t with
    | .primitive _ p =>
      if p.isConditional then e.skip branches (lvl + 1) ts
      else if p = .fi then
        if lvl = 0 then some (.fi, ts) else e.skip branches (lvl - 1) ts
      else if p = .elseBranch ∨ p = .orBranch then
        if lvl = 0 ∧ branches then some (p, ts) else e.skip branches lvl ts
      else e.skip branches lvl ts
    | _ => e.skip branches lvl ts

namespace Engine

variable (e : Engine)

theorem skip_length {b : Bool} {lvl : Nat} {l ts : List Token} {p : Prim}
    (h : e.skip b lvl l = some (p, ts)) : ts.length < l.length := by
  induction l generalizing lvl with
  | nil => simp [skip] at h
  | cons t rest ih =>
    simp only [skip] at h
    split at h
    · split_ifs at h <;> first | (cases h; simp) | (have hlen := ih h; simp; omega)
    · have := ih h; simp; omega

/-- Skipping stops only at a terminator. -/
theorem skip_terminator {b : Bool} {lvl : Nat} {l ts : List Token} {p : Prim}
    (h : e.skip b lvl l = some (p, ts)) : p = .fi ∨ p = .elseBranch ∨ p = .orBranch := by
  induction l generalizing lvl with
  | nil => simp [skip] at h
  | cons t rest ih =>
    simp only [skip] at h
    split at h
    · split_ifs at h <;> first | (cases h; simp_all) | exact ih h
    · exact ih h

/-- Skipping to the `\fi` passes the `\else` or `\or` where skipping to a branch stops, and
goes on from there at level zero. -/
theorem skip_branches {lvl : Nat} {l ts : List Token} (h : e.skip false lvl l = some (.fi, ts)) :
    ∃ p ts', e.skip true lvl l = some (p, ts') ∧
      (p = .fi ∧ ts' = ts ∨ p ≠ .fi ∧ e.skip false 0 ts' = some (.fi, ts)) := by
  induction l generalizing lvl with
  | nil => simp [skip] at h
  | cons t rest ih =>
    simp only [skip] at h ⊢
    split
    · next p hm =>
      simp only [hm] at h
      split_ifs at h ⊢ <;> simp_all
    · next hm =>
      split at h
      · next p hp => exact absurd hp (hm _ p)
      · exact ih h

end Engine

namespace Engine.Reads

theorem skip_step {x e : Engine} {rest : List Token} {cs : List Cond}
    {b : Bool} {lvl : Nat} {p : Prim} {ts : List Token} (h : x.Reads e rest cs)
    (hs : e.skip b lvl rest = some (p, ts)) :
    ∃ u us, rest = u :: us ∧ x.pendingHead? = some (u, false) ∧ x.dropPending.Reads e us cs ∧
      e.meaning u = x.dropPending.meaning u := by
  cases rest with
  | nil => simp [Engine.skip] at hs
  | cons u us =>
    have hd := h.dropPending
    exact ⟨u, us, rfl, h.pendingHead, hd.1, (hd.1.meaning_eq u).symm⟩

theorem drop_succ_of_drop_eq_cons {α : Type} {l : List α} {k : Nat} {u : α} {us : List α}
    (h : l.drop k = u :: us) : l.drop (k + 1) = us := by
  rw [← List.tail_drop, h]
  rfl

end Engine.Reads

namespace EngineM

/-- The invariant of skipping: still under way at some level having read `k` tokens, or
stopped at the terminator `p` at the end of the loop. -/
def PassInv (e : Engine) (toks : List Token) (cs : List Cond) (p : Prim) (ts : List Token)
    (k : Nat) (suffix : List Nat) (st : Option Prim × Nat) (x : Engine) : Prop :=
  (st.1 = none ∧ x.Reads e (toks.drop k) cs ∧ e.skip true st.2 (toks.drop k) = some (p, ts)) ∨
    (st.1 = some p ∧ suffix = [] ∧ x.Reads e ts cs)

/-- `passText` skips the pending list to its first terminator at level zero, returns it, and
leaves the engine reading what follows. -/
theorem passText_spec (e : Engine) (t : Token) (toks : List Token) (cs : List Cond)
    (p : Prim) (ts : List Token) (hs : e.skip true 0 toks = some (p, ts))
    (hlen : toks.length < 1000000000) :
    ⦃fun x => ⌜x.Reads e toks cs⌝⦄ passText t ⦃⇓ r x => ⌜r = p ∧ x.Reads e ts cs⌝⦄ := by
  unfold passText
  rw [next_eq_pending]
  mvcgen invariants
  | inv1 => ⇓⟨cur, st⟩ x => ⌜PassInv e toks cs p ts cur.prefix.length cur.suffix st x⌝
  case vc10.pre => simp_all [PassInv]
  case vc11 => simp_all [PassInv]
  case vc12 =>
    -- the loop cannot run out: every round reads one of fewer than a billion tokens
    rcases ‹PassInv _ _ _ _ _ _ _ _ _› with ⟨-, -, hsk⟩ | ⟨h, -⟩
    · have hnil : toks.drop 1000000000 = [] := List.drop_of_length_le (by omega)
      simp [hnil, Engine.skip] at hsk
    · simp_all
  all_goals
    rcases ‹PassInv _ _ _ _ _ _ _ _ _› with ⟨-, hr, hsk⟩ | ⟨-, hsuf, -⟩
    · obtain ⟨u, us, hdrop, hph, hreads, hmean⟩ := hr.skip_step hsk
      have hnext := Engine.Reads.drop_succ_of_drop_eq_cons hdrop
      simp_all +zetaDelta [Engine.skip, PassInv] <;> grind
    · simp at hsuf

/-- The rank of a terminator read during expansion: `\fi` ends any branch, `\else` only one
that may have an else branch, and `\or` only a case of `\ifcase`. -/
def closeRank (op : Prim) : Nat :=
  if op = .fi then 2 else if op = .elseBranch then 3 else 4

/-- A terminator that the innermost conditional allows skips on to that conditional's `\fi`
and closes it; `\fi` itself skips nothing. -/
theorem condEnd_spec (e : Engine) (t : Token) (op : Prim) (toks ts : List Token) (c : Cond)
    (cs : List Cond) (hrank : closeRank op ≤ c.limit.rank)
    (hfi : op = .fi ∧ ts = toks ∨ op ≠ .fi ∧ e.skip false 0 toks = some (.fi, ts))
    (hlen : toks.length < 1000000000) :
    ⦃fun x => ⌜x.Reads e toks (c :: cs)⌝⦄ condEnd t op ⦃⇓ _ x => ⌜x.Reads e ts cs⌝⦄ := by
  unfold condEnd
  mvcgen -trivial [emit] invariants
  | inv1 => ⇓⟨cur, op'⟩ x => ⌜op' = .fi ∧ x.Reads e ts (c :: cs) ∨ op' ≠ .fi ∧
      ∃ rest, x.Reads e rest (c :: cs) ∧ e.skip false 0 rest = some (.fi, ts) ∧
        rest.length + cur.prefix.length ≤ toks.length⌝
  case vc4 =>
    rcases ‹_ ∨ _› with ⟨hfi', -⟩ | ⟨-, rest, hr, hsk, hk⟩
    · contradiction
    obtain ⟨p, ts', hst, hcase⟩ := e.skip_branches hsk
    have hshort := e.skip_length hst
    refine wp_of_spec (passText_spec e t rest (c :: cs) p ts' hst (by omega))
      (fun r x ⟨hrp, hx⟩ => ?_) hr
    subst hrp
    rcases hcase with ⟨rfl, rfl⟩ | ⟨hp, hsk'⟩
    · simp [hx]
    · simp only [WP.wp, List.length_append, List.length_cons, List.length_nil]
      exact .inr ⟨hp, ts', hx, hsk', by omega⟩
  case vc6 =>
    rcases ‹_ ∨ _› with ⟨-, hx⟩ | ⟨-, rest, -, -, hk⟩
    · simp only [Engine.reads_logged]
      simp_all +zetaDelta [Engine.reads_iff]
    · simp at hk
      omega
  case vc8 =>
    simp_all [Engine.reads_iff]
    grind
  case vc1 | vc2 =>
    rename_i hgt _
    obtain ⟨-, -, -, -, -, -, hc⟩ := ‹Engine.Reads _ _ _ _›
    simp only [hc, List.head?_cons, Option.some.injEq] at *
    subst_vars
    revert hgt
    simp +zetaDelta only
    split <;> (intro hgt; simp_all [closeRank, CondLimit.rank] <;> omega)
  case vc3 => simp_all
  case vc5 =>
    rcases hfi with ⟨rfl, rfl⟩ | ⟨hne, hsk⟩
    · exact .inl ⟨rfl, ‹_›⟩
    · exact .inr ⟨hne, toks, ‹_›, hsk, by simp⟩

end EngineM

end Galley
