import Mathlib
import Galley.Proofs.Commands

/-!
# A conditional selects one branch

A conditional as written (`CondText`) is the token that opens it, the operands of its test,
its branches and the terminators between them. Its test, or for `\ifcase` its number,
selects at most one branch (`CondText.pick`). `conditional_selects_branch` says that
expanding the conditional gives the commands of that branch and nothing else: as many calls
of `getX` give the same commands on the conditional followed by any text as on the branch
followed by it, and both then read on as an engine reading that text, with the conditionals
open that were open before.

Two conditions make this true. Skipping counts conditionals by meaning without reading their
tests, so every branch must be balanced (`Engine.Balanced`): each conditional in it closed by
a `\fi` in it, each `\else` and `\or` inside such a pair. And the selected branch is
expanded, so what expands in it must read exactly its operands: a nested conditional must
read its operands and be balanced too, and any other expansion must read its operands and
give plain tokens (`Engine.ExpandsTo`, as `\string` on a character does, and `\number` on a
number ended by a space, `Engine.expandsTo_number`). `Engine.Yields` describes such text and
the commands it gives. Neither part of the second condition can be dropped: in
`ifx_reading_else_fi_changes_commands` the branch is balanced, but its `\ifx` reads the
`\else` and `\fi` after it as its operands; and an expansion that gives a `\fi` closes the
conditional around it before the branch ends.

The proof runs on `Engine.Runs`. `CondText.passes` builds the run of a conditional from the
step of its test, the run of the selected branch and the step of the terminator after it;
`Engine.Yields.passes` builds the run of a whole text by induction on it.
-/

namespace Galley

open Std.Do

set_option mvcgen.warning false

/-- The primitive a token means, if it means one. -/
def Engine.prim (e : Engine) (t : Token) : Option Prim :=
  match e.meaning t with
  | .primitive _ p => some p
  | _ => none

/-- How skipping moves its nesting level over one token: up at a conditional, down at a
`\fi`; `none` at a `\fi`, `\else` or `\or` at level zero, where skipping stops or fails. -/
def Engine.nestStep (e : Engine) (lvl : Nat) (t : Token) : Option Nat :=
  match e.meaning t with
  | .primitive _ p =>
    if p.isConditional then some (lvl + 1)
    else if p = .fi ∨ p = .elseBranch ∨ p = .orBranch then
      if lvl = 0 then none else some (if p = .fi then lvl - 1 else lvl)
    else some lvl
  | _ => some lvl

/-- The nesting level after skipping over `toks` from level `lvl`, counting conditionals by
meaning; `none` where a terminator stands at level zero. -/
def Engine.nesting (e : Engine) : Nat → List Token → Option Nat
  | lvl, [] => some lvl
  | lvl, t :: ts => (e.nestStep lvl t).bind fun l => e.nesting l ts

/-- Balanced text: every conditional in it, by meaning, is closed by a later `\fi`, and every
`\else` and `\or` stands inside such a pair. -/
def Engine.Balanced (e : Engine) (toks : List Token) : Prop := e.nesting 0 toks = some 0

namespace Engine

variable (e : Engine)

theorem prim_eq_some {t : Token} {p : Prim} (h : e.prim t = some p) :
    ∃ n, e.meaning t = .primitive n p := by
  unfold prim at h
  split at h <;> simp_all

theorem skip_cons_of_nestStep {b : Bool} {lvl l' : Nat} {t : Token} (l : List Token)
    (h : e.nestStep lvl t = some l') : e.skip b lvl (t :: l) = e.skip b l' l := by
  unfold nestStep at h
  simp only [skip]
  split
  · next p hm =>
    simp only [hm] at h
    split_ifs at h ⊢ <;> simp_all
  · next hm =>
    split at h
    · next p hp => exact absurd hp (hm _ p)
    · simp_all

theorem nestStep_add {lvl l' : Nat} {t : Token} (h : e.nestStep lvl t = some l') (k : Nat) :
    e.nestStep (lvl + k) t = some (l' + k) := by
  unfold nestStep at h ⊢
  split at h
  · split_ifs at h ⊢ <;> simp_all <;> omega
  · simp_all

theorem skip_append_of_nesting {b : Bool} {lvl lvl' : Nat} {A : List Token} (l : List Token)
    (h : e.nesting lvl A = some lvl') : e.skip b lvl (A ++ l) = e.skip b lvl' l := by
  induction A generalizing lvl with
  | nil =>
    simp only [nesting, Option.some.injEq] at h
    simp [h]
  | cons t ts ih =>
    simp only [nesting, Option.bind_eq_some_iff] at h
    obtain ⟨l', hstep, hrest⟩ := h
    rw [List.cons_append, e.skip_cons_of_nestStep _ hstep]
    exact ih hrest

theorem nesting_add {lvl lvl' : Nat} {A : List Token} (h : e.nesting lvl A = some lvl')
    (k : Nat) : e.nesting (lvl + k) A = some (lvl' + k) := by
  induction A generalizing lvl with
  | nil => simp_all [nesting]
  | cons t ts ih =>
    simp only [nesting, Option.bind_eq_some_iff] at h ⊢
    obtain ⟨l', hstep, hrest⟩ := h
    exact ⟨l' + k, e.nestStep_add hstep k, ih hrest⟩

/-- Skipping passes balanced text at every level. -/
theorem skip_append_of_balanced {b : Bool} {lvl : Nat} {A : List Token} (hA : e.Balanced A)
    (l : List Token) : e.skip b lvl (A ++ l) = e.skip b lvl l := by
  have h := e.nesting_add hA lvl
  rw [Nat.zero_add] at h
  exact e.skip_append_of_nesting l h

theorem skip_fi {b : Bool} {t : Token} (ht : e.prim t = some .fi) (l : List Token) :
    e.skip b 0 (t :: l) = some (.fi, l) := by
  obtain ⟨n, hn⟩ := e.prim_eq_some ht
  simp [skip, hn, Prim.isConditional]

theorem skip_branch {t : Token} {p : Prim} (ht : e.prim t = some p)
    (hp : p = .elseBranch ∨ p = .orBranch) (l : List Token) :
    e.skip true 0 (t :: l) = some (p, l) := by
  obtain ⟨n, hn⟩ := e.prim_eq_some ht
  rcases hp with rfl | rfl <;> simp [skip, hn, Prim.isConditional]

theorem skip_past_branch {t : Token}
    (ht : e.prim t = some .orBranch ∨ e.prim t = some .elseBranch) (l : List Token) :
    e.skip false 0 (t :: l) = e.skip false 0 l := by
  rcases ht with ht | ht <;> obtain ⟨n, hn⟩ := e.prim_eq_some ht <;>
    simp [skip, hn, Prim.isConditional]

/-! ### Passing cases -/

theorem caseSkip_zero (toks : List Token) : e.caseSkip 0 toks = some (some .orElseFi, toks) := by
  rw [caseSkip, if_pos rfl]

theorem caseSkip_or {k : Int32} {toks ts : List Token} (hk : k ≠ 0)
    (h : e.skip true 0 toks = some (.orBranch, ts)) :
    e.caseSkip k toks = e.caseSkip (k - 1) ts := by
  rw [caseSkip, if_neg hk]
  split <;> simp_all

theorem caseSkip_else {k : Int32} {toks ts : List Token} (hk : k ≠ 0)
    (h : e.skip true 0 toks = some (.elseBranch, ts)) :
    e.caseSkip k toks = some (some .fiOnly, ts) := by
  rw [caseSkip, if_neg hk]
  split <;> simp_all

theorem caseSkip_fi {k : Int32} {toks ts : List Token} (hk : k ≠ 0)
    (h : e.skip true 0 toks = some (.fi, ts)) : e.caseSkip k toks = some (none, ts) := by
  rw [caseSkip, if_neg hk]
  split <;> simp_all

end Engine

/-- Counting down wraps only at the least value. -/
theorem Int32.toInt_sub_one (k : Int32) :
    (k - 1).toInt = if k.toInt = -2 ^ 31 then 2 ^ 31 - 1 else k.toInt - 1 := by
  have h1 := k.toInt_lt
  have h2 := k.le_toInt
  rw [Int32.toInt_sub, Int32.toInt_one]
  split
  · simp_all
  · rw [Int.bmod_eq_of_le] <;> omega

/-! ## Conditionals as written -/

/-- A conditional as written: the token that opens it and the operands of its test, its
first branch `arm`, the further cases of an `\ifcase` each after its `\or`, its else branch
after its `\else` if it has one, and its `\fi`. -/
structure CondText where
  tok : Token
  ops : List Token
  arm : List Token
  more : List (Token × List Token)
  other : Option (Token × List Token)
  fi : Token

namespace CondText

/-- Branches, each after the terminator that opens it. -/
def marked (bs : List (Token × List Token)) : List Token := (bs.map fun b => b.1 :: b.2).flatten

/-- The branches with their terminators, after the test. -/
def body (X : CondText) : List Token :=
  X.arm ++ (marked X.more ++ (marked X.other.toList ++ [X.fi]))

/-- The whole conditional. -/
def toks (X : CondText) : List Token := X.tok :: (X.ops ++ X.body)

/-- The branch that number `v` selects: case `v` counting the first branch as case zero,
or else the else branch if there is one. -/
def pick (X : CondText) (v : Int) : Option (List Token) :=
  if 0 ≤ v ∧ v ≤ X.more.length then some ((X.arm :: X.more.map (·.2)).getD v.toNat [])
  else X.other.map (·.2)

@[simp] theorem marked_nil : marked [] = [] := rfl

@[simp] theorem marked_cons (b : Token × List Token) (bs : List (Token × List Token)) :
    marked (b :: bs) = b.1 :: (b.2 ++ marked bs) := by
  simp [marked]

theorem marked_append (bs bs' : List (Token × List Token)) :
    marked (bs ++ bs') = marked bs ++ marked bs' := by
  simp [marked]

/-- Its branches are well formed: the operands and every branch are balanced, the further
cases begin with an `\or`, the else branch with an `\else`, and the `\fi` is one. -/
structure WellFormed (X : CondText) (e : Engine) : Prop where
  ops : e.Balanced X.ops
  arm : e.Balanced X.arm
  more : ∀ b ∈ X.more, e.prim b.1 = some .orBranch ∧ e.Balanced b.2
  other : ∀ b ∈ X.other, e.prim b.1 = some .elseBranch ∧ e.Balanced b.2
  fi : e.prim X.fi = some .fi

end CondText

namespace Engine

variable (e : Engine)

theorem skip_past_marked {bs : List (Token × List Token)}
    (hbs : ∀ b ∈ bs, (e.prim b.1 = some .orBranch ∨ e.prim b.1 = some .elseBranch) ∧
      e.Balanced b.2) (l : List Token) :
    e.skip false 0 (CondText.marked bs ++ l) = e.skip false 0 l := by
  induction bs with
  | nil => rfl
  | cons b bs ih =>
    obtain ⟨hb, hbal⟩ := hbs b (by simp)
    rw [CondText.marked_cons, List.cons_append, e.skip_past_branch hb, List.append_assoc,
      e.skip_append_of_balanced hbal, ih fun b' hb' => hbs b' (by simp [hb'])]

theorem skip_marked_or {A : List Token} {b : Token × List Token} {bs : List (Token × List Token)}
    (l : List Token) (hA : e.Balanced A) (hb : e.prim b.1 = some .orBranch) :
    e.skip true 0 (A ++ (CondText.marked (b :: bs) ++ l)) =
      some (.orBranch, b.2 ++ (CondText.marked bs ++ l)) := by
  rw [e.skip_append_of_balanced hA, CondText.marked_cons, List.cons_append,
    e.skip_branch hb (.inr rfl), List.append_assoc]

/-- `\ifcase` with number `j` passes `j` cases and enters the next. -/
theorem caseSkip_select {A : List Token} {bs : List (Token × List Token)} (l : List Token)
    (hA : e.Balanced A) (hbs : ∀ b ∈ bs, e.prim b.1 = some .orBranch ∧ e.Balanced b.2)
    {k : Int32} {j : Nat} (hj : j ≤ bs.length) (hk : k.toInt = j) :
    e.caseSkip k (A ++ (CondText.marked bs ++ l)) =
      some (some .orElseFi, (A :: bs.map (·.2)).getD j [] ++ (CondText.marked (bs.drop j) ++ l)) := by
  induction bs generalizing A k j with
  | nil =>
    obtain rfl : j = 0 := by simpa using hj
    obtain rfl : k = 0 := Int32.toInt_inj.mp (by simpa using hk)
    simp [caseSkip_zero]
  | cons b bs ih =>
    cases j with
    | zero =>
      obtain rfl : k = 0 := Int32.toInt_inj.mp (by simpa using hk)
      simp [caseSkip_zero]
    | succ j =>
      obtain ⟨hb, hbal⟩ := hbs b (by simp)
      have hk0 : k ≠ 0 := by
        rintro rfl
        simp at hk
        omega
      have hk' : (k - 1).toInt = j := by
        rw [Int32.toInt_sub_one]
        split <;> omega
      rw [e.caseSkip_or hk0 (e.skip_marked_or l hA hb), ih hbal (fun b' hb' => hbs b' (by simp [hb']))
        (by simpa using hj) hk']
      simp

/-- `\ifcase` with a number beyond its cases passes all of them, and goes on as with some
number other than zero from the balanced text of the last case. -/
theorem caseSkip_beyond {A : List Token} {bs : List (Token × List Token)} (l : List Token)
    (hA : e.Balanced A) (hbs : ∀ b ∈ bs, e.prim b.1 = some .orBranch ∧ e.Balanced b.2)
    {k : Int32} (hk : ¬(0 ≤ k.toInt ∧ k.toInt ≤ bs.length)) (hlen : bs.length < 2 ^ 31 - 1) :
    ∃ k' A', k' ≠ 0 ∧ e.Balanced A' ∧
      e.caseSkip k (A ++ (CondText.marked bs ++ l)) = e.caseSkip k' (A' ++ l) := by
  induction bs generalizing A k with
  | nil =>
    refine ⟨k, A, ?_, hA, by simp⟩
    rintro rfl
    simp at hk
  | cons b bs ih =>
    obtain ⟨hb, hbal⟩ := hbs b (by simp)
    have hk0 : k ≠ 0 := by
      rintro rfl
      simp at hk
      omega
    -- counting down keeps the number beyond the cases left, also where it wraps
    have hk' : ¬(0 ≤ (k - 1).toInt ∧ (k - 1).toInt ≤ bs.length) := by
      rw [Int32.toInt_sub_one]
      simp only [List.length_cons] at hk hlen
      split <;> omega
    rw [e.caseSkip_or hk0 (e.skip_marked_or l hA hb)]
    exact ih hbal (fun b' hb' => hbs b' (by simp [hb'])) hk' (by simp at hlen; omega)

/-- Skipping to a branch past a balanced text and the else part of a conditional stops at
its `\else`, or at its `\fi` when it has none. -/
theorem skip_other {A : List Token} {other : Option (Token × List Token)} {fi : Token}
    (R : List Token) (hA : e.Balanced A)
    (hother : ∀ b ∈ other, e.prim b.1 = some .elseBranch ∧ e.Balanced b.2)
    (hfi : e.prim fi = some .fi) :
    e.skip true 0 (A ++ (CondText.marked other.toList ++ fi :: R)) =
      some (other.elim (.fi, R) fun b => (.elseBranch, b.2 ++ fi :: R)) := by
  rw [e.skip_append_of_balanced hA]
  cases other with
  | none => simp [e.skip_fi hfi]
  | some b =>
    have hb := (hother b rfl).1
    simp [e.skip_branch hb (.inl rfl)]

end Engine

/-- The test of conditional `X` reads exactly its operands, with budget `m`, and selects
branch `v`: for `\ifcase` its number; for any other conditional, which then has no further
cases, the first branch when the test holds and the else branch when not. -/
def Engine.Selects (e : Engine) (m : Nat) (X : CondText) (v : Int) : Prop :=
  (e.prim X.tok = some .ifCase ∧ ∃ w : Int32, e.CaseReads m X.ops w ∧ v = w.toInt) ∨
    ∃ op, e.prim X.tok = some op ∧ op.isConditional ∧ op ≠ .ifCase ∧ X.more = [] ∧
      ∃ b, e.TestReads m X.tok op X.ops b ∧ v = if b then 0 else 1

/-! ## Passing a conditional -/

/-- Expansion passes the text `A` giving the commands `ys`: from any engine reading `A` with
more text after it, it gives `ys` and stops right after `A`, with the conditionals open that
were open before it. -/
def Engine.Passes (e : Engine) (m : Nat) (A ys : List Token) : Prop :=
  ∀ R cs, (A ++ R).length < 1000000000 → e.Runs m (A ++ R, cs) ys (R, cs)

/-- A branch that was entered ends at the terminator after it, which the conditional's limit
allows: skipping the branches after it closes the conditional at its `\fi`. -/
theorem Engine.Silent.close_marked {e : Engine} (m : Nat) {bs : List (Token × List Token)}
    {fi : Token} {c : Cond} (cs : List Cond) (R : List Token)
    (hbs : ∀ b ∈ bs, (e.prim b.1 = some .orBranch ∨ e.prim b.1 = some .elseBranch) ∧
      e.Balanced b.2)
    (hrank : ∀ b ∈ bs, ∀ p, e.prim b.1 = some p → EngineM.closeRank p ≤ c.limit.rank)
    (hfi : e.prim fi = some .fi) (hc : 2 ≤ c.limit.rank) :
    e.Silent m (CondText.marked bs ++ fi :: R, c :: cs) (R, cs) := by
  cases bs with
  | nil =>
    obtain ⟨n, hn⟩ := e.prim_eq_some hfi
    exact .close hn (.inl rfl) (by simpa [EngineM.closeRank] using hc) (.inl ⟨rfl, rfl⟩)
  | cons b bs =>
    obtain ⟨hb, hbal⟩ := hbs b (by simp)
    obtain ⟨p, hp, hpb⟩ : ∃ p, e.prim b.1 = some p ∧ (p = .orBranch ∨ p = .elseBranch) := by
      rcases hb with hb | hb
      · exact ⟨_, hb, .inl rfl⟩
      · exact ⟨_, hb, .inr rfl⟩
    obtain ⟨n, hn⟩ := e.prim_eq_some hp
    have hne : p ≠ .fi := by rcases hpb with rfl | rfl <;> simp
    rw [CondText.marked_cons, List.cons_append]
    refine .close hn (by rcases hpb with rfl | rfl <;> simp) (hrank b (by simp) p hp)
      (.inr ⟨hne, ?_⟩)
    rw [List.append_assoc, e.skip_append_of_balanced hbal,
      e.skip_past_marked (fun b' hb' => hbs b' (by simp [hb'])), e.skip_fi hfi]

theorem Engine.Passes.enter {e : Engine} {m : Nat} {A ys T R : List Token} {c : Cond}
    {cs : List Cond} (hA : e.Passes m A ys) (hclose : e.Silent m (T, c :: cs) (R, cs))
    (hlen : (A ++ T).length < 1000000000) : e.Runs m (A ++ T, c :: cs) ys (R, cs) := by
  simpa using (hA T (c :: cs) hlen).trans (.of_silent hclose)

theorem Engine.Passes.nil {e : Engine} {m : Nat} {ys : List Token} (hA : e.Passes m [] ys) :
    ys = [] := by
  by_contra hys
  simpa using (hA [] [] (by simp)).length_lt hys

theorem EngineM.closeRank_le (p : Prim) : closeRank p ≤ 4 := by
  unfold closeRank
  split_ifs <;> simp

theorem CondText.length_le_marked (bs : List (Token × List Token)) :
    bs.length ≤ (CondText.marked bs).length := by
  induction bs with
  | nil => simp
  | cons b bs ih =>
    simp only [List.length_cons, CondText.marked_cons, List.length_append]
    omega

/-- The else part of a conditional, entered where the test or the number selects no case:
its else branch is passed and its `\fi` closes it, or without one the conditional is over. -/
theorem CondText.runs_other {e : Engine} {m : Nat} (X : CondText) (hwf : X.WellFormed e)
    {s : List Token × List Cond} {ys R : List Token} {cs : List Cond}
    (hA : e.Passes m ((X.other.map (·.2)).getD []) ys)
    (hstep : e.Silent m s
      (X.other.elim (R, cs) fun b => (b.2 ++ X.fi :: R, ⟨.fiOnly, X.tok, e.line⟩ :: cs)))
    (hlen : s.1.length < 1000000000) :
    e.Runs m s ys (R, cs) := by
  have hshort := hstep.length_lt
  cases hother : X.other with
  | none =>
    rw [hother, Option.elim_none] at hstep
    rw [hother] at hA
    rw [hA.nil]
    exact .of_silent hstep
  | some b =>
    rw [hother, Option.elim_some] at hstep hshort
    rw [hother] at hA
    have hclose := @Engine.Silent.close_marked e m [] _ ⟨.fiOnly, X.tok, e.line⟩ cs R (by simp)
      (by simp) hwf.fi (by simp [CondLimit.rank])
    exact .silent hstep (hA.enter hclose (by simp at hshort ⊢; omega))

theorem CondText.toks_append (X : CondText) (R : List Token) :
    X.toks ++ R = X.tok :: (X.ops ++ (X.arm ++ (marked X.more ++
      (marked X.other.toList ++ X.fi :: R)))) := by
  simp [toks, body]

/-- `\ifcase` passes the cases before the one its number selects, then that case, and
closes at the terminator after it; with a number beyond the cases it goes to the else
part. -/
theorem CondText.runs_case {e : Engine} {m : Nat} (X : CondText) (hwf : X.WellFormed e)
    {n : String} {w : Int32} {ys R : List Token} {cs : List Cond}
    (hn : e.meaning X.tok = .primitive n .ifCase) (hw : e.CaseReads m X.ops w)
    (hA : e.Passes m ((X.pick w.toInt).getD []) ys) (hlen : (X.toks ++ R).length < 1000000000) :
    e.Runs m (X.toks ++ R, cs) ys (R, cs) := by
  rw [X.toks_append] at hlen ⊢
  by_cases hin : 0 ≤ w.toInt ∧ w.toInt ≤ X.more.length
  · -- the number selects case `j`
    obtain ⟨j, hj⟩ : ∃ j : Nat, w.toInt = j := ⟨w.toInt.toNat, by omega⟩
    have hsk := e.caseSkip_select (marked X.other.toList ++ X.fi :: R) hwf.arm hwf.more
      (j := j) (by omega) hj
    have hpick : X.pick w.toInt = some ((X.arm :: X.more.map (·.2)).getD j []) := by
      rw [pick, if_pos hin, hj, Int.toNat_natCast]
    rw [hpick, Option.getD_some] at hA
    have hstep : e.Silent m (X.tok :: (X.ops ++ (X.arm ++ (marked X.more ++
        (marked X.other.toList ++ X.fi :: R)))), cs)
        ((X.arm :: X.more.map (·.2)).getD j [] ++
          (marked (X.more.drop j ++ X.other.toList) ++ X.fi :: R),
          ⟨.orElseFi, X.tok, e.line⟩ :: cs) := by
      refine .case hn hw ?_
      simp [Engine.afterCase, hsk, marked_append]
    have hclose := @Engine.Silent.close_marked e m (X.more.drop j ++ X.other.toList) _
      ⟨.orElseFi, X.tok, e.line⟩ cs R
      (fun b hb => by
        rcases List.mem_append.mp hb with hb | hb
        · exact ⟨.inl (hwf.more b (List.mem_of_mem_drop hb)).1,
            (hwf.more b (List.mem_of_mem_drop hb)).2⟩
        · exact ⟨.inr (hwf.other b (by simpa using hb)).1, (hwf.other b (by simpa using hb)).2⟩)
      (fun _ _ p _ => by simpa [CondLimit.rank] using EngineM.closeRank_le p) hwf.fi
      (by simp [CondLimit.rank])
    have hshort := hstep.length_lt
    exact .silent hstep (hA.enter hclose (by simp only at hshort; omega))
  · -- a number beyond the cases: all of them are passed
    have hcount := CondText.length_le_marked X.more
    obtain ⟨k', A', hk', hA', hsk⟩ := e.caseSkip_beyond (marked X.other.toList ++ X.fi :: R)
      hwf.arm hwf.more hin (by simp at hlen; omega)
    have hpick : X.pick w.toInt = X.other.map (·.2) := by simp [pick, hin]
    rw [hpick] at hA
    refine X.runs_other hwf hA (.case hn hw ?_) (by simpa using hlen)
    have htail := e.skip_other R hA' hwf.other hwf.fi
    cases hother : X.other with
    | none =>
      rw [hother, Option.elim_none] at htail
      rw [hother] at hsk
      rw [Engine.afterCase, hsk, e.caseSkip_fi hk' htail]
    | some b =>
      rw [hother, Option.elim_some] at htail
      rw [hother] at hsk
      rw [Engine.afterCase, hsk, e.caseSkip_else hk' htail]

/-- A conditional other than `\ifcase` whose test holds enters its first branch and closes at
its `\else` or its `\fi`; one whose test fails goes to its else part. -/
theorem CondText.runs_test {e : Engine} {m : Nat} (X : CondText) (hwf : X.WellFormed e)
    {n : String} {op : Prim} {b : Bool} {ys R : List Token} {cs : List Cond}
    (hn : e.meaning X.tok = .primitive n op) (hcond : op.isConditional) (hne : op ≠ .ifCase)
    (hnil : X.more = []) (hb : e.TestReads m X.tok op X.ops b)
    (hA : e.Passes m ((X.pick (if b then 0 else 1)).getD []) ys)
    (hlen : (X.toks ++ R).length < 1000000000) :
    e.Runs m (X.toks ++ R, cs) ys (R, cs) := by
  rw [X.toks_append, hnil, marked_nil, List.nil_append] at hlen ⊢
  cases b with
  | true =>
    have hpick : X.pick 0 = some X.arm := by simp [pick]
    rw [if_pos rfl, hpick, Option.getD_some] at hA
    have hstep : e.Silent m (X.tok :: (X.ops ++ (X.arm ++ (marked X.other.toList ++ X.fi :: R))),
        cs) (X.arm ++ (marked X.other.toList ++ X.fi :: R), ⟨.elseOrFi, X.tok, e.line⟩ :: cs) :=
      .test hn hcond hne hb (by simp [Engine.afterTest])
    have hclose := @Engine.Silent.close_marked e m X.other.toList _ ⟨.elseOrFi, X.tok, e.line⟩
      cs R
      (fun b hb => ⟨.inr (hwf.other b (by simpa using hb)).1, (hwf.other b (by simpa using hb)).2⟩)
      (fun b hb p hp => by
        rw [(hwf.other b (by simpa using hb)).1, Option.some.injEq] at hp
        subst hp
        simp [EngineM.closeRank, CondLimit.rank])
      hwf.fi (by simp [CondLimit.rank])
    have hshort := hstep.length_lt
    exact .silent hstep (hA.enter hclose (by simp only at hshort; omega))
  | false =>
    have hpick : X.pick 1 = X.other.map (·.2) := by simp [pick, hnil]
    rw [if_neg Bool.false_ne_true, hpick] at hA
    refine X.runs_other hwf hA (.test hn hcond hne hb ?_) (by simpa using hlen)
    have htail := e.skip_other R hwf.arm hwf.other hwf.fi
    cases hother : X.other with
    | none =>
      rw [hother, Option.elim_none] at htail
      rw [Engine.afterTest, if_neg Bool.false_ne_true, htail]
    | some b =>
      rw [hother, Option.elim_some] at htail
      rw [Engine.afterTest, if_neg Bool.false_ne_true, htail]

/-- Expansion passes a well formed conditional giving the commands of the branch it selects. -/
theorem CondText.passes {e : Engine} {m : Nat} {X : CondText} {v : Int} {ys : List Token}
    (hsel : e.Selects m X v) (hwf : X.WellFormed e)
    (hA : e.Passes m ((X.pick v).getD []) ys) : e.Passes m X.toks ys := by
  intro R cs hlen
  rcases hsel with ⟨hcase, w, hw, rfl⟩ | ⟨op, hop, hcond, hne, hnil, b, hb, rfl⟩
  · obtain ⟨n, hn⟩ := e.prim_eq_some hcase
    exact X.runs_case hwf hn hw hA hlen
  · obtain ⟨n, hn⟩ := e.prim_eq_some hop
    exact X.runs_test hwf hn hcond hne hnil hb hA hlen

theorem CondText.length_lt_marked {b : Token × List Token} {bs : List (Token × List Token)}
    (hb : b ∈ bs) : b.2.length < (marked bs).length := by
  induction bs with
  | nil => simp at hb
  | cons b' bs ih =>
    simp only [marked_cons, List.length_cons, List.length_append]
    rcases List.mem_cons.mp hb with rfl | hb
    · omega
    · have := ih hb
      omega

theorem CondText.length_pick_lt (X : CondText) (v : Int) :
    ((X.pick v).getD []).length < X.toks.length := by
  have htoks : X.toks.length = X.ops.length + X.arm.length + (marked X.more).length +
      (marked X.other.toList).length + 2 := by
    simp [toks, body]
    omega
  unfold pick
  split
  · rw [Option.getD_some]
    cases v.toNat with
    | zero => simp; omega
    | succ j =>
      rw [List.getD_cons_succ, List.getD_eq_getElem?_getD]
      cases h : (X.more.map (·.2))[j]? with
      | none => simp; omega
      | some a =>
        obtain ⟨b, hb, rfl⟩ := List.mem_map.mp (List.mem_of_getElem? h)
        have := length_lt_marked hb
        simp only [Option.getD_some]
        omega
  · cases hother : X.other with
    | none => simp; omega
    | some b =>
      have := @length_lt_marked b [b] (by simp)
      simp only [hother, Option.toList_some] at htoks
      simp only [Option.map_some, Option.getD_some]
      omega

/-! ## Text that expansion passes -/

theorem Token.ofText_codeText {c : Nat} (hc : isScalar c = true) (hsp : c ≠ 32) :
    Token.ofText (codeText c) = [.char c .other] := by
  have hv : c.isValidChar := by
    simp only [isScalar, Bool.or_eq_true, decide_eq_true_eq, Bool.and_eq_true] at hc
    simp only [Nat.isValidChar]
    omega
  have hn : (Char.ofNat c).toNat = c := by
    simp [Char.ofNat, hv, Char.ofNatAux, Char.toNat]
  simp only [Token.ofText, codeText, hc, if_true, String.singleton_eq_ofList, String.toList_ofList,
    List.map_cons, List.map_nil, hn]
  rw [if_neg]
  intro h
  apply hsp
  rw [← hn, h]
  rfl

/-- An engine that reads over the stack of `e` has room for one more list when the stack of
`e` has room for two. -/
theorem Engine.Reads.room {x e : Engine} {R : List Token} {cs : List Cond} (h : x.Reads e R cs)
    (hroom : ¬(0 < e.options.maxDepth ∧ e.options.maxDepth ≤ (e.inputs.length : Int) + 1)) :
    ¬(0 < x.options.maxDepth ∧ x.options.maxDepth ≤ (x.inputs.length : Int)) := by
  have hp : (pendingOf R).length ≤ 1 := by
    unfold pendingOf
    split <;> simp
  rw [h.options, h.inputs, List.length_append]
  omega

/-- `\string` on a character other than a space reads exactly that character and gives it
back with category other, whatever follows, when the stack has room for one more list. -/
theorem Engine.expandsTo_string (e : Engine) (m : Nat) {t : Token} {n : String} {c : Nat}
    {cat : Category} (ht : e.meaning t = .primitive n .string) (hc : isScalar c = true)
    (hsp : c ≠ 32) (hlim : e.options.maxExpansions = 0)
    (hroom : ¬(0 < e.options.maxDepth ∧ e.options.maxDepth ≤ (e.inputs.length : Int) + 1)) :
    e.ExpandsTo m t [.char c cat] [.char c .other] := by
  refine ⟨by simp [ht], by simp [ht, Meaning.expands, Prim.expands], by simp, ?_, ?_⟩
  · simp [Engine.Plain, Engine.meaning, EngineM.Token.hasMeaning, Meaning.expands]
  · intro R cs
    have hnext : ⦃fun x => ⌜x.Reads e ([.char c cat] ++ R) cs⌝⦄ EngineM.next
        ⦃⇓ r x => ⌜r = some (.char c cat, false) ∧ x.Reads e R cs⌝⦄ :=
      EngineM.triple_of_run fun x hx => ⟨_, _, EngineM.next_run_reads hx, rfl, hx.dropPending.1⟩
    rw [ht, EngineM.expand]
    simp only [Prim.isConditional]
    rw [EngineM.expandPrimitive.eq_def]
    simp only
    mvcgen -trivial [hnext, EngineM.push, EngineM.printToken]
    case vc6 =>
      rename_i hfull
      obtain ⟨-, hs⟩ := ‹some _ = some _ ∧ _›
      exact absurd (by simpa using hfull) (hs.room hroom)
    all_goals simp_all +zetaDelta [Engine.reads_iff, pendingOf, Token.ofText_codeText hc hsp]

/-- The text `toks` gives the commands `ys` when expanded, its tests read with budget `m`:
plain tokens give themselves, a well formed conditional whose test reads exactly its
operands gives the commands of the branch it selects, and an expansion that reads exactly
its operands gives the plain tokens it puts in front. -/
inductive Engine.Yields (e : Engine) (m : Nat) : List Token → List Token → Prop
  | nil : Engine.Yields e m [] []
  | plain {t : Token} {toks ys : List Token} :
      e.Plain t → Engine.Yields e m toks ys → Engine.Yields e m (t :: toks) (t :: ys)
  | cond {X : CondText} {v : Int} {toks ys zs : List Token} :
      e.Selects m X v → X.WellFormed e → Engine.Yields e m ((X.pick v).getD []) ys →
      Engine.Yields e m toks zs → Engine.Yields e m (X.toks ++ toks) (ys ++ zs)
  | expand {u : Token} {ops out toks zs : List Token} :
      e.ExpandsTo m u ops out → Engine.Yields e m toks zs →
      Engine.Yields e m (u :: (ops ++ toks)) (out ++ zs)

/-- Expansion passes a text giving the commands it yields. -/
theorem Engine.Yields.passes {e : Engine} {m : Nat} {A ys : List Token} (h : e.Yields m A ys) :
    e.Passes m A ys := by
  induction h with
  | nil => exact fun R cs _ => .refl _
  | plain ht _ ih =>
    intro R cs hlen
    exact .plain ht (ih R cs (by simp at hlen ⊢; omega))
  | cond hsel hwf _ _ ihA ih =>
    intro R cs hlen
    rw [List.append_assoc] at hlen ⊢
    exact (CondText.passes hsel hwf ihA _ cs hlen).trans (ih R cs (by simp at hlen ⊢; omega))
  | expand hx _ ih =>
    intro R cs hlen
    simp only [List.cons_append, List.append_assoc] at hlen ⊢
    exact .expand hx (ih R cs (by simp at hlen ⊢; omega))

/-! ## One branch selected -/

/-- A conditional selects exactly one branch, at any nesting. Let `X` be a well formed
conditional whose test reads exactly its operands and selects branch `v`, and let the
selected branch yield the commands `ys` (none when no branch is selected): its tokens are
plain tokens, nested conditionals of the same kind, and expansions that read exactly their
operands and give plain tokens. Then as many calls of `getX` give the same commands on `X R`
as on the selected branch followed by `R`, for any rest `R`: the commands `ys`. After them,
reading on, some rounds of the loop of `getX` later, is reading on from an engine that reads
`R` with the conditionals open that were open before `X`. -/
theorem conditional_selects_branch (e : Engine) (m : Nat) (hlim : e.options.maxExpansions = 0)
    (X : CondText) (v : Int) (hsel : e.Selects m X v) (hwf : X.WellFormed e)
    (ys : List Token) (hys : e.Yields m ((X.pick v).getD []) ys) (R : List Token)
    (cs : List Cond) (hlen : (X.toks ++ R).length < 1000000000) :
    ⦃fun x => ⌜x.Reads e (X.toks ++ R) cs⌝⦄ EngineM.getXs (m + 3) ys.length
      ⦃⇓ cmds x => ⌜cmds = ys.map (fun u => some ⟨u, e.meaning u, false⟩) ∧
        ∃ w j, w.Reads e R cs ∧ ∀ k, (EngineM.getXLoop (m + 2) (k + j)).run.run x =
          (EngineM.getXLoop (m + 2) k).run.run w⌝⦄ ∧
    ⦃fun x => ⌜x.Reads e ((X.pick v).getD [] ++ R) cs⌝⦄ EngineM.getXs (m + 3) ys.length
      ⦃⇓ cmds x => ⌜cmds = ys.map (fun u => some ⟨u, e.meaning u, false⟩) ∧
        ∃ w j, w.Reads e R cs ∧ ∀ k, (EngineM.getXLoop (m + 2) (k + j)).run.run x =
          (EngineM.getXLoop (m + 2) k).run.run w⌝⦄ := by
  have hpass := hys.passes
  have hbranch : ((X.pick v).getD [] ++ R).length < 1000000000 := by
    have := X.length_pick_lt v
    simp at hlen ⊢
    omega
  exact ⟨EngineM.triple_post
      (EngineM.getXs_spec e m hlim (CondText.passes hsel hwf hpass R cs hlen) hlen)
      fun _ _ ⟨hcmds, hrest⟩ => ⟨hcmds, hrest.of_no_limit hlim⟩,
    EngineM.triple_post (EngineM.getXs_spec e m hlim (hpass R cs hbranch) hbranch)
      fun _ _ ⟨hcmds, hrest⟩ => ⟨hcmds, hrest.of_no_limit hlim⟩⟩

/-- In a fresh engine, `\iftrue\string a\else b\fi` followed by `\string c` gives `a` of
category other, and then reads on as an engine that reads `\string c`. -/
theorem conditional_selects_branch_of_iftrue :
    let e := Engine.create {}
    let X : CondText :=
      { tok := .cs "iftrue", ops := [], arm := [.cs "string", .char 97 .letter], more := [],
        other := some (.cs "else", [.char 98 .letter]), fi := .cs "fi" }
    let R : List Token := [.cs "string", .char 99 .letter]
    e.Selects 1 X 0 ∧ X.WellFormed e ∧
    ⦃fun x => ⌜x.Reads e (X.toks ++ R) []⌝⦄ EngineM.getXs 4 1
      ⦃⇓ cmds x => ⌜cmds = [some ⟨.char 97 .other, .charLet (.char 97 .other), false⟩] ∧
        ∃ w j, w.Reads e R [] ∧
          ∀ k, (EngineM.getXLoop 3 (k + j)).run.run x = (EngineM.getXLoop 3 k).run.run w⌝⦄ := by
  intro e X R
  have hchar : ∀ c cat, cat ≠ .active → e.meaning (.char c cat) = .charLet (.char c cat) := by
    intro c cat hcat
    simp [Engine.meaning, EngineM.Token.hasMeaning, hcat]
  have hstring : e.meaning (.cs "string") = .primitive "string" .string := by
    simp [e, Engine.meaning_create, primitives]
  have hbal : e.Balanced [.cs "string", .char 97 .letter] := by
    simp [Engine.Balanced, Engine.nesting, Engine.nestStep, hstring, hchar, Prim.isConditional]
  have hsel : e.Selects 1 X 0 :=
    .inr ⟨.ifTrue, by simp [X, e, Engine.prim, Engine.meaning_create, primitives], rfl, by decide,
      rfl, true, Engine.testReads_ifTrue e 0 _, rfl⟩
  have hwf : X.WellFormed e :=
    ⟨rfl, hbal, by simp [X],
      by simp [X, e, Engine.prim, Engine.meaning_create, primitives, Engine.Balanced,
        Engine.nesting, Engine.nestStep, hchar],
      by simp [X, e, Engine.prim, Engine.meaning_create, primitives]⟩
  have hx : e.ExpandsTo 1 (.cs "string") [.char 97 .letter] [.char 97 .other] :=
    e.expandsTo_string 1 hstring (by decide) (by decide) rfl (by simp [e, Engine.create])
  have hys : e.Yields 1 ((X.pick 0).getD []) [.char 97 .other] := by
    have hpick : (X.pick 0).getD [] = .cs "string" :: ([.char 97 .letter] ++ []) := by
      simp [X, CondText.pick]
    rw [hpick]
    exact .expand hx .nil
  refine ⟨hsel, hwf, ?_⟩
  have h := (conditional_selects_branch e 1 rfl X 0 hsel hwf [.char 97 .other] hys R []
    (by simp [X, R, CondText.toks, CondText.body, CondText.marked])).1
  simpa [hchar] using h

/-- A nested test that reads a terminator as an operand breaks the selection, though the
branches are balanced: in a fresh engine `\ifx` takes the `\else` and `\fi` after it as the
tokens it compares. Then `\iftrue\ifx\else\fi\else b\fi` followed by `\fi t` gives `b`
first, while its selected branch `\ifx\else\fi` followed by `\fi t` gives `t`. -/
theorem ifx_reading_else_fi_changes_commands :
    let e := Engine.create {}
    let X : CondText :=
      { tok := .cs "iftrue", ops := [], arm := [.cs "ifx", .cs "else", .cs "fi"], more := [],
        other := some (.cs "else", [.char 98 .letter]), fi := .cs "fi" }
    let R : List Token := [.cs "fi", .char 116 .letter]
    e.Selects 1 X 0 ∧ X.WellFormed e ∧
    ⦃fun x => ⌜x.Reads e (X.toks ++ R) []⌝⦄ EngineM.getX 4
      ⦃⇓ c _ => ⌜c = some ⟨.char 98 .letter, .charLet (.char 98 .letter), false⟩⌝⦄ ∧
    ⦃fun x => ⌜x.Reads e ((X.pick 0).getD [] ++ R) []⌝⦄ EngineM.getX 4
      ⦃⇓ c _ => ⌜c = some ⟨.char 116 .letter, .charLet (.char 116 .letter), false⟩⌝⦄ := by
  intro e X R
  have hiftrue : e.meaning (.cs "iftrue") = .primitive "iftrue" .ifTrue := by
    simp [e, Engine.meaning_create, primitives]
  have hifx : e.meaning (.cs "ifx") = .primitive "ifx" .ifX := by
    simp [e, Engine.meaning_create, primitives]
  have helse : e.meaning (.cs "else") = .primitive "else" .elseBranch := by
    simp [e, Engine.meaning_create, primitives]
  have hfi : e.meaning (.cs "fi") = .primitive "fi" .fi := by
    simp [e, Engine.meaning_create, primitives]
  have hchar : ∀ c, e.meaning (.char c .letter) = .charLet (.char c .letter) := by
    simp [Engine.meaning, EngineM.Token.hasMeaning]
  have hplain : ∀ c, e.Plain (.char c .letter) := by
    simp [Engine.Plain, hchar, Meaning.expands]
  have hsel : e.Selects 1 X 0 :=
    .inr ⟨.ifTrue, by simp [Engine.prim, X, hiftrue], rfl, by decide, rfl, true,
      Engine.testReads_ifTrue e 0 _, rfl⟩
  have hwf : X.WellFormed e :=
    ⟨rfl, by simp [X, Engine.Balanced, Engine.nesting, Engine.nestStep, hifx, helse, hfi,
      Prim.isConditional], by simp [X],
      by simp [X, Engine.prim, helse, Engine.Balanced, Engine.nesting, Engine.nestStep, hchar],
      by simp [X, Engine.prim, hfi]⟩
  have hifxtest := Engine.testReads_ifX e 0 (.cs "ifx") (.cs "else") (.cs "fi")
  rw [show (e.meaning (.cs "else")).same (e.meaning (.cs "fi")) = false by
    simp [helse, hfi, Meaning.same]] at hifxtest
  refine ⟨hsel, hwf, ?_, ?_⟩
  · -- the conditional: `\ifx` fails, skips to the `\else` of the outer branch, and `b` follows
    have h1 : e.Silent 1 (X.toks ++ R, [])
        ([.cs "ifx", .cs "else", .cs "fi", .cs "else", .char 98 .letter, .cs "fi"] ++ R,
          [⟨.elseOrFi, .cs "iftrue", e.line⟩]) :=
      @Engine.Silent.test e 1 _ _ _ [] _ _ _ _ _ hiftrue rfl (by decide)
        (Engine.testReads_ifTrue e 0 _)
        (by simp [Engine.afterTest, X, CondText.marked])
    have h2 : e.Silent 1
        ([.cs "ifx", .cs "else", .cs "fi", .cs "else", .char 98 .letter, .cs "fi"] ++ R,
          [⟨.elseOrFi, .cs "iftrue", e.line⟩])
        ([.char 98 .letter, .cs "fi"] ++ R,
          [⟨.fiOnly, .cs "ifx", e.line⟩, ⟨.elseOrFi, .cs "iftrue", e.line⟩]) :=
      @Engine.Silent.test e 1 _ _ _ [.cs "else", .cs "fi"] _ _ _ _ _ hifx rfl (by decide) hifxtest
        (by simp [Engine.afterTest, Engine.skip, R, helse, Prim.isConditional])
    refine EngineM.triple_post (EngineM.getX_spec e 1 rfl (.head h1 (.single h2)) (.plain (hplain 98))
      (by simp [X, R, CondText.toks, CondText.body, CondText.marked])) fun r s h => ?_
    rw [h.1, hchar]
  · -- the branch alone: `\ifx` fails and skips to the `\fi` of the rest
    have h1 : e.Silent 1 ((X.pick 0).getD [] ++ R, []) ([.char 116 .letter], []) :=
      @Engine.Silent.test e 1 _ _ _ [.cs "else", .cs "fi"] _ _ _ _ _ hifx rfl (by decide) hifxtest
        (by simp [Engine.afterTest, Engine.skip, R, hfi, Prim.isConditional])
    refine EngineM.triple_post (EngineM.getX_spec e 1 rfl (.single h1) (.plain (hplain 116))
      (by simp [X, R, CondText.pick])) fun r s h => ?_
    rw [h.1, hchar]

end Galley
