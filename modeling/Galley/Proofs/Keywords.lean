import Mathlib
import Galley.Proofs.Numbers

/-!
# Scanning a keyword

Units, `to` and `spread`, `plus` and `minus`, `by`, the rule dimensions and the font sizes
are all keywords: lowercase letters that `scanKeyword` matches case-insensitively against
the expanded input. It expands as it reads, skips blanks until the first letter matches, and
on a mismatch puts back the command that failed with its frozen flag, and in front of it the
letters it matched.

What expansion gives is described here without looking inside `getX`: `Engine.Gives n e cs e'`
says that successive calls of `getX n` from `e` give the commands `cs` and leave `e'`. Against
that stream `scanKeyword_backtracks` says, for every engine whose leading blanks are `B`: the
answer is `true` exactly when the commands after `B` spell the keyword, and then the engine
is the one after reading them (`KeywordMatched`); on `false` it is the engine after the
command that failed, or after the end of the text, with the letters matched and that command
put back in front, in order (`KeywordRefused`); and an error of expansion is the error the
scan fails with (`KeywordFailed`).

`getX` enters the proofs only through its results: `EngineM.eq_replay` states any program as
"run it, then set the state and answer its result", so that `mvcgen` goes through the loop
of `scanKeyword` with the result of each `getX` as a hypothesis. The stream is deterministic
(`Engine.Gives.prefix_of`), which turns the loop's invariant into an equivalence.
-/

namespace Galley

open Std.Do

set_option mvcgen.warning false

namespace EngineM

/-- Any program is its own run replayed: read the state, run the program from it, and set
the state and answer the result it gives. -/
theorem eq_replay {α : Type} (x : EngineM α) : x = (do
    let s ← get
    match x.run.run s with
    | (.ok a, s') => do set s'; pure a
    | (.error err, s') => do set s'; throw err) := by
  apply ExceptT.ext
  apply StateT.ext
  intro s
  rw [run_get_bind]
  rcases x.run.run s with ⟨err | a, s'⟩ <;> simp <;> rfl

theorem getX_run_of_readsPlainly {x : Engine} (m : Nat) (h : x.ReadsPlainly) :
    (getX (m + 1)).run.run x = (.ok x.nextCmd?, x.dropPending) := by
  rw [getX_eq_plain, run_get_bind, if_pos h]
  rfl

theorem getX_run_char {x : Engine} {c : Nat} {cat : Category} {us : List Token}
    {rest : List Source} (m : Nat) (hcat : cat ≠ .active)
    (hx : x.inputs = ⟨.char c cat :: us, false⟩ :: rest) :
    (getX (m + 1)).run.run x = (.ok (some ⟨.char c cat, .charLet (.char c cat), false⟩),
      { x with inputs := pendingOf us ++ rest, last := some (.char c cat) }) := by
  have hhead : x.pendingHead? = some (.char c cat, false) := by
    simp [Engine.pendingHead?, hx]
  rw [getX_run_of_readsPlainly m (.inl ⟨_, hhead, x.plain_char hcat⟩)]
  simp only [Engine.nextCmd?, hhead, Option.map_some, Engine.cmd, x.meaning_char hcat]
  cases us <;> simp [Engine.dropPending, hx, pendingOf]

theorem backList_wp (l : List Token) (Q : PostCond Unit (.except EngineError (.arg Engine .pure))) :
    ⦃fun x => Q.1 () { x with inputs := pendingOf l ++ x.inputs }⦄ backList l ⦃Q⦄ := by
  unfold backList
  mvcgen
  all_goals simp_all +zetaDelta [pendingOf]

end EngineM

/-! ### The commands expansion gives -/

/-- Successive calls of `getX n` from `e` give the commands `cs`, one each, and leave `e'`. -/
inductive Engine.Gives (n : Nat) : Engine → List Cmd → Engine → Prop
  | nil (e : Engine) : Engine.Gives n e [] e
  | cons {e e₁ e' : Engine} {c : Cmd} {cs : List Cmd} :
      (EngineM.getX n).run.run e = (.ok (some c), e₁) → Engine.Gives n e₁ cs e' →
      Engine.Gives n e (c :: cs) e'

namespace Engine.Gives

variable {n : Nat} {x y z : Engine} {F G : List Cmd} {c : Cmd}

theorem eq_of_nil (h : x.Gives n [] y) : x = y := by
  cases h
  rfl

theorem head (h : x.Gives n (c :: F) y) :
    ∃ z, (EngineM.getX n).run.run x = (.ok (some c), z) ∧ z.Gives n F y := by
  cases h with
  | cons hrun hrest => exact ⟨_, hrun, hrest⟩

theorem append (h : x.Gives n F y) (h' : y.Gives n G z) : x.Gives n (F ++ G) z := by
  induction h with
  | nil => exact h'
  | cons hrun _ ih => exact .cons hrun (ih h')

theorem concat (h : x.Gives n F y) (hrun : (EngineM.getX n).run.run y = (.ok (some c), z)) :
    x.Gives n (F ++ [c]) z :=
  h.append (.cons hrun (.nil z))

/-- Expansion is deterministic: a shorter stream of commands from the same engine is a
prefix of a longer one, and the longer goes on from where the shorter stops. -/
theorem prefix_of {F' : List Cmd} {y' : Engine} (h : x.Gives n F y) (h' : x.Gives n F' y')
    (hlen : F'.length ≤ F.length) : ∃ G, F = F' ++ G ∧ y'.Gives n G y := by
  induction h' generalizing F with
  | nil => exact ⟨F, rfl, h⟩
  | cons hrun' _ ih =>
    cases h with
    | nil => simp at hlen
    | cons hrun hrest =>
      rw [hrun] at hrun'
      obtain ⟨hc, rfl⟩ := Prod.mk.inj hrun'
      cases hc
      obtain ⟨G, rfl, hG⟩ := ih hrest (by simpa using hlen)
      exact ⟨G, rfl, hG⟩

theorem eq_of_length {F' : List Cmd} {y' : Engine} (h : x.Gives n F y) (h' : x.Gives n F' y')
    (hlen : F'.length = F.length) : F' = F ∧ y' = y := by
  obtain ⟨G, rfl, hG⟩ := h.prefix_of h' hlen.le
  have hG0 : G = [] := by simpa using hlen
  subst hG0
  exact ⟨by simp, hG.eq_of_nil⟩

end Engine.Gives

/-! ### Keyword letters -/

/-- A keyword: lowercase letters, at least one. -/
def Keyword (kw : String) : Prop := kw.toList ≠ [] ∧ ∀ k ∈ kw.toList, k.isLower = true

/-- The command is the letter `k` as an explicit character: not frozen, not active, and of
the code of `k` or of its capital. -/
def Cmd.Spells (k : Char) (c : Cmd) : Prop :=
  c.frozen = false ∧
    ∃ r cat, c.tok = .char r cat ∧ cat ≠ .active ∧ (r = k.toNat ∨ r = k.toUpper.toNat)

/-- A blank that scanning for the letters `chars` skips: a space that is not their first
letter. -/
def Cmd.SkippedBefore (chars : List Char) (c : Cmd) : Prop :=
  c.isSpace = true ∧ ∀ k ∈ chars.head?, ¬ c.Spells k

theorem Char.toNat_toUpper_add {k : Char} (hk : k.isLower = true) :
    k.toUpper.toNat + 32 = k.toNat := by
  simp only [Char.isLower, Bool.and_eq_true, decide_eq_true_eq] at hk
  have h97 : 97 ≤ k.toNat := by
    have h := hk.1
    rw [ge_iff_le, UInt32.le_iff_toNat_le] at h
    exact h
  have hlt : k.toNat < 4294967296 := k.val.toNat_lt
  simp only [Char.toUpper, Char.toNat]
  rw [dif_pos (by exact ⟨hk.1, hk.2⟩)]
  simp
  omega

/-- The test of the scan is `Cmd.Spells` for a lowercase letter. -/
theorem fits_iff_spells {k : Char} (hk : k.isLower = true) (c : Cmd) :
    (match c.frozen, c.tok with
      | false, .char r cat => cat != .active && (r == k.toNat || r + 32 == k.toNat)
      | _, _ => false) = true ↔ c.Spells k := by
  have hup := Char.toNat_toUpper_add hk
  obtain ⟨tok, m, frozen⟩ := c
  cases frozen <;> cases tok <;> simp [Cmd.Spells]
  omega

/-! ### The loop -/

/-- The engine `x` is the one after the letters of `chars`, spelled by the commands that
follow `e₁`. -/
def KeywordMatched (n : Nat) (chars : List Char) (e₁ x : Engine) : Prop :=
  ∃ F, e₁.Gives n F x ∧ List.Forall₂ Cmd.Spells chars F

/-- The engine `x` is what a refused keyword leaves: after some of its letters `F`, the next
command `c` was no letter of it, or the text ended; `x` is the engine after that, with `F` and
`c` put back in front of its input. -/
def KeywordRefused (n : Nat) (chars : List Char) (e₁ x : Engine) : Prop :=
  ∃ F x₂ x₃, e₁.Gives n F x₂ ∧ List.Forall₂ Cmd.Spells (chars.take F.length) F ∧
    ((∃ c k, (EngineM.getX n).run.run x₂ = (.ok (some c), x₃) ∧ chars[F.length]? = some k ∧
        ¬ c.Spells k ∧
        x = { x₃ with inputs := pendingOf (F.map Cmd.tok) ++
          { toks := [c.tok], frozen := c.frozen } :: x₃.inputs }) ∨
      ((EngineM.getX n).run.run x₂ = (.ok none, x₃) ∧ F.length < chars.length ∧
        x = { x₃ with inputs := pendingOf (F.map Cmd.tok) ++ x₃.inputs }))

/-- Expansion failed with `err`, leaving `x`, while some of the letters of `chars` were read. -/
def KeywordFailed (n : Nat) (chars : List Char) (e₁ : Engine) (err : EngineError) (x : Engine) :
    Prop :=
  ∃ F x₂, e₁.Gives n F x₂ ∧ List.Forall₂ Cmd.Spells (chars.take F.length) F ∧
    F.length < chars.length ∧ (EngineM.getX n).run.run x₂ = (.error err, x)

/-- The invariant of the loop after `j` rounds, with the early answer `r` and the letters
matched `m`: among the blanks `B` that lead to `e₁`, with the blank `b` next; or after letters
`F` read from `e₁`; or done, with the answer. -/
def KeywordInv (n : Nat) (chars : List Char) (e : Engine) (B : List Cmd) (e₁ : Engine)
    (j : Nat) (done : Prop) (r : Option Bool) (m : Array Token) (x : Engine) : Prop :=
  (r = none ∧ m = #[] ∧ ∃ B₁ b B₂, B = B₁ ++ b :: B₂ ∧ e.Gives n B₁ x ∧
      x.Gives n (b :: B₂) e₁ ∧ j = B₁.length) ∨
    (r = none ∧ ∃ F, e₁.Gives n F x ∧ m.toList = F.map Cmd.tok ∧
      List.Forall₂ Cmd.Spells (chars.take F.length) F ∧ F.length ≤ chars.length ∧
      j = B.length + F.length) ∨
    (r = some true ∧ done ∧ KeywordMatched n chars e₁ x) ∨
    (r = some false ∧ done ∧ KeywordRefused n chars e₁ x)

/-! ### Outcomes -/

section Outcomes

variable {n : Nat} {chars : List Char} {e₁ x y x₂ : Engine} {F : List Cmd}

theorem KeywordMatched.next (hm : KeywordMatched n chars e₁ y) (hF : e₁.Gives n F x₂)
    (hlt : F.length < chars.length) :
    ∃ c x₃, (EngineM.getX n).run.run x₂ = (.ok (some c), x₃) ∧
      ∀ k, chars[F.length]? = some k → c.Spells k := by
  obtain ⟨G, hG, hsp⟩ := hm
  obtain ⟨H, rfl, hH⟩ := hG.prefix_of hF (by rw [← hsp.length_eq]; omega)
  cases H with
  | nil =>
    have := hsp.length_eq
    simp only [List.append_nil] at this
    omega
  | cons c H =>
    obtain ⟨x₃, hrun, -⟩ := hH.head
    refine ⟨c, x₃, hrun, fun k hk => ?_⟩
    have hdrop := List.forall₂_drop F.length hsp
    rw [List.drop_eq_getElem_cons (List.getElem?_eq_some_iff.1 hk).1,
      List.drop_left] at hdrop
    rw [(List.getElem?_eq_some_iff.1 hk).2] at hdrop
    cases hdrop with
    | cons hc _ => exact hc

/-- The engine after a matched keyword is determined. -/
theorem KeywordMatched.unique (hx : KeywordMatched n chars e₁ x) (hy : KeywordMatched n chars e₁ y) :
    x = y := by
  obtain ⟨F, hF, hsp⟩ := hx
  obtain ⟨G, hG, hsp'⟩ := hy
  exact (hG.eq_of_length hF (by rw [← hsp.length_eq, ← hsp'.length_eq])).2

theorem KeywordRefused.not_matched (hx : KeywordRefused n chars e₁ x)
    (hy : KeywordMatched n chars e₁ y) : False := by
  obtain ⟨F, x₂, x₃, hF, -, ⟨c, k, hrun, hk, hc, -⟩ | ⟨hrun, hlt, -⟩⟩ := hx
  · obtain ⟨c', x₃', hrun', hsp⟩ := hy.next hF (List.getElem?_eq_some_iff.1 hk).1
    rw [hrun] at hrun'
    cases (Prod.mk.inj hrun').1
    exact hc (hsp k hk)
  · obtain ⟨c', x₃', hrun', -⟩ := hy.next hF hlt
    rw [hrun] at hrun'
    cases (Prod.mk.inj hrun').1

/-- Expansion does not fail in the middle of a keyword that is there. -/
theorem KeywordFailed.not_matched {err : EngineError} (hx : KeywordFailed n chars e₁ err x)
    (hy : KeywordMatched n chars e₁ y) : False := by
  obtain ⟨F, x₂, hF, -, hlt, hrun⟩ := hx
  obtain ⟨c', x₃', hrun', -⟩ := hy.next hF hlt
  rw [hrun] at hrun'
  cases (Prod.mk.inj hrun').1

end Outcomes

namespace KeywordInv

variable {n : Nat} {chars : List Char} {e e₁ x x' : Engine} {B : List Cmd} {j : Nat}
  {done : Prop} {r : Option Bool} {m : Array Token} {k : Char} {c : Cmd}

theorem start (hB : e.Gives n B e₁) : KeywordInv n chars e B e₁ 0 done none #[] e := by
  cases B with
  | nil =>
    obtain rfl := hB.eq_of_nil
    exact .inr (.inl ⟨rfl, [], .nil _, rfl, .nil, by simp, by simp⟩)
  | cons b B =>
    exact .inl ⟨rfl, rfl, [], b, B, rfl, .nil _, hB, rfl⟩

/-- A round that goes on reads either the next blank, or from `e₁` after some letters. -/
theorem reading (h : KeywordInv n chars e B e₁ j done r m x) (hd : ¬ done) :
    r = none ∧ ((m = #[] ∧ ∃ B₁ b B₂ y, B = B₁ ++ b :: B₂ ∧ e.Gives n B₁ x ∧
        (EngineM.getX n).run.run x = (.ok (some b), y) ∧ y.Gives n B₂ e₁ ∧ j = B₁.length) ∨
      ∃ F, e₁.Gives n F x ∧ m.toList = F.map Cmd.tok ∧
        List.Forall₂ Cmd.Spells (chars.take F.length) F ∧ F.length ≤ chars.length ∧
        j = B.length + F.length) := by
  rcases h with ⟨hr, hm, B₁, b, B₂, hsplit, h₁, h₂, hj⟩ | ⟨hr, hF⟩ | ⟨-, hdone, -⟩ | ⟨-, hdone, -⟩
  · obtain ⟨y, hrun, hy⟩ := h₂.head
    exact ⟨hr, .inl ⟨hm, B₁, b, B₂, y, hsplit, h₁, hrun, hy, hj⟩⟩
  · exact ⟨hr, .inr hF⟩
  · exact (hd hdone).elim
  · exact (hd hdone).elim

theorem size_eq {F : List Cmd} (hm : m.toList = F.map Cmd.tok) : m.size = F.length := by
  rw [← Array.length_toList, hm, List.length_map]

theorem full (hne : chars ≠ []) (h : KeywordInv n chars e B e₁ j done r m x) (hd : ¬ done)
    (hk : chars[m.size]? = none) (j' : Nat) :
    KeywordInv n chars e B e₁ j' True (some true) m x := by
  obtain ⟨-, ⟨rfl, -⟩ | ⟨F, hF, hm, hsp, hle, -⟩⟩ := h.reading hd
  · simp [List.length_pos_iff.2 hne] at hk
  · rw [size_eq hm, List.getElem?_eq_none_iff] at hk
    rw [List.take_of_length_le (by omega)] at hsp
    exact .inr (.inr (.inl ⟨rfl, trivial, F, hF, hsp⟩))

theorem spells_concat {F : List Cmd} (hsp : List.Forall₂ Cmd.Spells (chars.take F.length) F)
    (hk : chars[F.length]? = some k) (hc : c.Spells k) :
    List.Forall₂ Cmd.Spells (chars.take (F ++ [c]).length) (F ++ [c]) := by
  rw [List.length_append, List.length_singleton, List.take_add_one, hk]
  exact List.rel_append hsp (.cons hc .nil)

theorem not_spells_of_skipped {b : Cmd} (hb : b.SkippedBefore chars) (hk : chars[0]? = some k) :
    ¬ b.Spells k := by
  refine hb.2 k ?_
  rw [List.head?_eq_getElem?, hk]
  rfl

/-- A round that reads a letter of the keyword: one more letter matched. -/
theorem letter (hskip : ∀ b ∈ B, b.SkippedBefore chars) (h : KeywordInv n chars e B e₁ j done r m x) (hd : ¬ done)
    (hk : chars[m.size]? = some k) (hrun : (EngineM.getX n).run.run x = (.ok (some c), x'))
    (hc : c.Spells k) (done' : Prop) :
    KeywordInv n chars e B e₁ (j + 1) done' none (m.push c.tok) x' := by
  obtain ⟨-, ⟨rfl, B₁, b, B₂, y, rfl, -, hb, -, -⟩ | ⟨F, hF, hm, hsp, hle, hj⟩⟩ := h.reading hd
  · rw [hb] at hrun
    obtain ⟨hc', -⟩ := Prod.mk.inj hrun
    cases hc'
    exact absurd hc (not_spells_of_skipped (hskip c (by simp)) hk)
  · rw [size_eq hm] at hk
    refine .inr (.inl ⟨rfl, F ++ [c], hF.concat hrun, by simp [hm], spells_concat hsp hk hc, ?_, ?_⟩)
    · have := (List.getElem?_eq_some_iff.1 hk).1
      simp only [List.length_append, List.length_singleton]
      omega
    · simp only [hj, List.length_append, List.length_singleton]
      omega

theorem blank (hnext : ∀ c x', (EngineM.getX n).run.run e₁ = (.ok (some c), x') →
      ¬ c.SkippedBefore chars)
    (h : KeywordInv n chars e B e₁ j done r m x) (hd : ¬ done) (hk : chars[m.size]? = some k)
    (hrun : (EngineM.getX n).run.run x = (.ok (some c), x')) (hc : ¬ c.Spells k)
    (hsp : c.isSpace = true ∧ m.isEmpty = true) (done' : Prop) :
    KeywordInv n chars e B e₁ (j + 1) done' none m x' := by
  obtain ⟨-, ⟨rfl, B₁, b, B₂, y, rfl, h₁, hb, hy, hj⟩ | ⟨F, hF, hm, -, -, -⟩⟩ := h.reading hd
  · rw [hb] at hrun
    obtain ⟨hc', rfl⟩ := Prod.mk.inj hrun
    cases hc'
    cases B₂ with
    | nil =>
      obtain rfl := hy.eq_of_nil
      exact .inr (.inl ⟨rfl, [], .nil _, rfl, .nil, by simp, by simp [hj]⟩)
    | cons b' B₂ =>
      refine .inl ⟨rfl, rfl, B₁ ++ [c], b', B₂, by simp, h₁.concat hb, hy, by simp [hj]⟩
  · have hF0 : F = [] := by
      have := size_eq hm
      rw [Array.isEmpty_iff_size_eq_zero] at hsp
      exact List.eq_nil_of_length_eq_zero (by omega)
    subst hF0
    obtain rfl := hF.eq_of_nil
    rw [size_eq hm, List.length_nil] at hk
    refine absurd ⟨hsp.1, fun k' hk' => ?_⟩ (hnext c x' hrun)
    rw [List.head?_eq_getElem?, Option.mem_def, hk, Option.some.injEq] at hk'
    exact hk' ▸ hc

/-- A round that reads no letter and no blank to skip: the keyword is refused. -/
theorem mismatch (hskip : ∀ b ∈ B, b.SkippedBefore chars)
    (h : KeywordInv n chars e B e₁ j done r m x) (hd : ¬ done) (hk : chars[m.size]? = some k)
    (hrun : (EngineM.getX n).run.run x = (.ok (some c), x')) (hc : ¬ c.Spells k)
    (hsp : ¬ (c.isSpace = true ∧ m.isEmpty = true)) (j' : Nat) :
    KeywordInv n chars e B e₁ j' True (some false) m
      { x' with inputs := pendingOf m.toList ++ { toks := [c.tok], frozen := c.frozen } :: x'.inputs } := by
  obtain ⟨-, ⟨rfl, B₁, b, B₂, y, rfl, -, hb, -, -⟩ | ⟨F, hF, hm, hsp', -, -⟩⟩ := h.reading hd
  · rw [hb] at hrun
    obtain ⟨hc', -⟩ := Prod.mk.inj hrun
    cases hc'
    exact absurd ⟨(hskip c (by simp)).1, rfl⟩ hsp
  · rw [size_eq hm] at hk
    exact .inr (.inr (.inr ⟨rfl, trivial, F, x, x', hF, hsp', .inl ⟨c, k, hrun, hk, hc, by rw [hm]⟩⟩))

theorem ended {a : Option Cmd} (h : KeywordInv n chars e B e₁ j done r m x) (hd : ¬ done)
    (hk : chars[m.size]? = some k) (hrun : (EngineM.getX n).run.run x = (.ok a, x'))
    (ha : ∀ c, a = some c → False) (j' : Nat) :
    KeywordInv n chars e B e₁ j' True (some false) m
      { x' with inputs := pendingOf m.toList ++ x'.inputs } := by
  obtain ⟨-, ⟨rfl, B₁, b, B₂, y, rfl, -, hb, -, -⟩ | ⟨F, hF, hm, hsp, -, -⟩⟩ := h.reading hd
  · rw [hb] at hrun
    obtain ⟨hc', -⟩ := Prod.mk.inj hrun
    cases hc'
    exact (ha b rfl).elim
  · have ha' : a = none := by
      cases a with
      | none => rfl
      | some c => exact (ha c rfl).elim
    subst ha'
    rw [size_eq hm] at hk
    have hlt := (List.getElem?_eq_some_iff.1 hk).1
    exact .inr (.inr (.inr ⟨rfl, trivial, F, x, x', hF, hsp, .inr ⟨hrun, hlt, by rw [hm]⟩⟩))

/-- Expansion fails while the keyword is read: the scan fails with it. -/
theorem failed {err : EngineError} (h : KeywordInv n chars e B e₁ j done r m x) (hd : ¬ done)
    (hk : chars[m.size]? = some k) (hrun : (EngineM.getX n).run.run x = (.error err, x')) :
    KeywordFailed n chars e₁ err x' := by
  obtain ⟨-, ⟨rfl, B₁, b, B₂, y, rfl, -, hb, -, -⟩ | ⟨F, hF, hm, hsp, -, -⟩⟩ := h.reading hd
  · rw [hb] at hrun
    cases (Prod.mk.inj hrun).1
  · rw [size_eq hm] at hk
    exact ⟨F, x, hF, hsp, (List.getElem?_eq_some_iff.1 hk).1, hrun⟩

theorem answer {a : Bool} (h : KeywordInv n chars e B e₁ j True (some a) m x) :
    (a = true → KeywordMatched n chars e₁ x) ∧ (a = false → KeywordRefused n chars e₁ x) := by
  rcases h with ⟨h, -⟩ | ⟨h, -⟩ | ⟨h, -, hm⟩ | ⟨h, -, hr⟩
  · cases h
  · cases h
  · cases h
    exact ⟨fun _ => hm, by simp⟩
  · cases h
    exact ⟨by simp, fun _ => hr⟩

/-- The loop cannot run out: it answers within as many rounds as there are blanks and
letters, fewer than its billion. -/
theorem answered (hlen : B.length + chars.length < 1000000000)
    (h : KeywordInv n chars e B e₁ 1000000000 True r m x) : r ≠ none := by
  rintro rfl
  rcases h with ⟨-, -, B₁, b, B₂, rfl, -, -, hj⟩ | ⟨-, F, -, -, -, hle, hj⟩ | ⟨h, -⟩ | ⟨h, -⟩
  · simp at hlen
    omega
  · omega
  · cases h
  · cases h

end KeywordInv

namespace EngineM

/-- The loop of `scanKeyword`, run over the blanks `B` that lead to `e₁`: it answers `true`
with the keyword matched, `false` with it refused, or fails as expansion fails. -/
theorem scanKeyword_spec (n : Nat) (kw : String) (e e₁ : Engine) (B : List Cmd)
    (hkw : Keyword kw) (hB : e.Gives n B e₁) (hskip : ∀ b ∈ B, b.SkippedBefore kw.toList)
    (hnext : ∀ c x', (getX n).run.run e₁ = (.ok (some c), x') → ¬ c.SkippedBefore kw.toList)
    (hlen : B.length + kw.toList.length < 1000000000) :
    ⦃fun x => ⌜x = e⌝⦄ scanKeyword (n + 1) kw
    ⦃post⟨fun r x => ⌜(r = true → KeywordMatched n kw.toList e₁ x) ∧
        (r = false → KeywordRefused n kw.toList e₁ x)⌝,
      fun err x => ⌜KeywordFailed n kw.toList e₁ err x⌝⟩⦄ := by
  rw [scanKeyword, eq_replay (getX n)]
  mvcgen [backCmd_wp, backList_wp, -getX_keeps, -forIn_range_keeps, -backList_keeps,
    -backCmd_keeps] invariants
  | inv1 => post⟨fun p x => ⌜KeywordInv n kw.toList e B e₁ p.fst.prefix.length (p.fst.suffix = [])
      p.snd.fst p.snd.snd x⌝, fun err x => ⌜KeywordFailed n kw.toList e₁ err x⌝⟩
  case vc1 => exact KeywordInv.full hkw.1 ‹_› (List.cons_ne_nil _ _) ‹_› _
  case vc2 =>
    rename_i k hk x h a x' hrun c hac fits hfit
    subst hac
    have hlow := hkw.2 k (List.mem_of_getElem? hk)
    rw [List.length_append, List.length_singleton]
    exact KeywordInv.letter hskip h (List.cons_ne_nil _ _) hk hrun ((fits_iff_spells hlow c).1 hfit) _
  case vc3 =>
    rename_i k hk x h a x' hrun c hac fits hfit hsp
    subst hac
    have hlow := hkw.2 k (List.mem_of_getElem? hk)
    rw [List.length_append, List.length_singleton]
    exact KeywordInv.blank hnext h (List.cons_ne_nil _ _) hk hrun
      (fun hc => hfit ((fits_iff_spells hlow c).2 hc)) hsp _
  case vc4 =>
    rename_i k hk x h a x' hrun c hac fits hfit hsp
    subst hac
    have hlow := hkw.2 k (List.mem_of_getElem? hk)
    exact KeywordInv.mismatch hskip h (List.cons_ne_nil _ _) hk hrun
      (fun hc => hfit ((fits_iff_spells hlow c).2 hc)) hsp _
  case vc5 =>
    rename_i k hk x h a x' hrun a' ha' haa
    subst haa
    exact KeywordInv.ended h (List.cons_ne_nil _ _) hk hrun ha' _
  case vc6 => exact KeywordInv.failed ‹_› (List.cons_ne_nil _ _) ‹_› ‹_›
  case vc7 =>
    rename_i x hx
    subst hx
    exact KeywordInv.start hB
  case vc8 =>
    rename_i st a hst x h
    rw [hst] at h
    exact KeywordInv.answer h
  case vc9 =>
    rename_i st hst x h
    have hrounds : ([:1000000000] : Std.Legacy.Range).toList.length = 1000000000 := by simp
    rw [hrounds] at h
    exact absurd hst (KeywordInv.answered hlen h)

/-- Keyword scanning backtracks without loss or duplication. Let the commands that expansion
gives first be the blanks `B`, each a space that is not the keyword's first letter, leading
to `e₁`. Then `scanKeyword` answers `true` exactly when the commands that follow spell the
keyword, and then it has read exactly them; when it answers `false`, the letters it matched
and the command that failed (with its frozen flag) are put back, in order, in front of what
expansion left; and when expansion fails, the scan fails with that error. -/
theorem scanKeyword_backtracks {n : Nat} {kw : String} {e e₁ : Engine} {B : List Cmd}
    (hkw : Keyword kw) (hB : e.Gives n B e₁) (hskip : ∀ b ∈ B, b.SkippedBefore kw.toList)
    (hnext : ∀ c x', (getX n).run.run e₁ = (.ok (some c), x') → ¬ c.SkippedBefore kw.toList)
    (hlen : B.length + kw.toList.length < 1000000000) :
    (∀ e', (scanKeyword (n + 1) kw).run.run e = (.ok true, e') ↔
      KeywordMatched n kw.toList e₁ e') ∧
    (∀ e', (scanKeyword (n + 1) kw).run.run e = (.ok false, e') →
      KeywordRefused n kw.toList e₁ e') ∧
    (∀ err e', (scanKeyword (n + 1) kw).run.run e = (.error err, e') →
      KeywordFailed n kw.toList e₁ err e') := by
  have hrun := run_of_triple (scanKeyword_spec n kw e e₁ B hkw hB hskip hnext hlen) rfl
  refine ⟨fun e' => ⟨fun h => ?_, fun hm => ?_⟩, fun e' h => ?_, fun err e' h => ?_⟩
  · rw [h] at hrun
    exact hrun.1 rfl
  · rcases hres : (scanKeyword (n + 1) kw).run.run e with ⟨err | b, e''⟩
    · rw [hres] at hrun
      exact (KeywordFailed.not_matched hrun hm).elim
    · rw [hres] at hrun
      cases b with
      | false => exact (KeywordRefused.not_matched (hrun.2 rfl) hm).elim
      | true => rw [KeywordMatched.unique (hrun.1 rfl) hm]
  · rw [h] at hrun
    exact hrun.2 rfl
  · rw [h] at hrun
    exact hrun

/-- A space, then `P` and `t`, then `!`: the keyword `pt` is there, in mixed case, and the
scan leaves the engine reading `!`. -/
theorem scanKeyword_reads_mixed_case :
    (scanKeyword 4 "pt").run.run
        { Engine.create {} with inputs := [⟨[.space, .char 80 .letter, .char 116 .letter, .char 33 .other], false⟩] } =
      (.ok true,
        { Engine.create {} with inputs := [⟨[.char 33 .other], false⟩], last := some (.char 116 .letter) }) := by
  have hs := getX_run_char 2 (x := { Engine.create {} with
    inputs := [⟨[.space, .char 80 .letter, .char 116 .letter, .char 33 .other], false⟩] }) (by decide) rfl
  have hP := getX_run_char 2 (x := { Engine.create {} with
    inputs := [⟨[.char 80 .letter, .char 116 .letter, .char 33 .other], false⟩],
    last := some (.char 32 .space) })
    (by decide) rfl
  have ht := getX_run_char 2 (x := { Engine.create {} with
    inputs := [⟨[.char 116 .letter, .char 33 .other], false⟩], last := some (.char 80 .letter) })
    (by decide) rfl
  simp only [pendingOf, if_neg (List.cons_ne_nil _ _), List.append_nil] at hs hP ht
  have hchars : "pt".toList = ['p', 't'] := by simp
  have hkw : Keyword "pt" := by
    refine ⟨by simp [hchars], fun k hk => ?_⟩
    rw [hchars] at hk
    simp only [List.mem_cons, List.not_mem_nil, or_false] at hk
    rcases hk with rfl | rfl <;> rfl
  have hspells : ∀ (k : Char) (r : Nat), (r = k.toNat ∨ r = k.toUpper.toNat) →
      (⟨.char r .letter, .charLet (.char r .letter), false⟩ : Cmd).Spells k :=
    fun k r hr => ⟨rfl, r, .letter, rfl, by decide, hr⟩
  refine ((scanKeyword_backtracks hkw (.cons hs (.nil _)) (fun b hb => ?_) (fun c x' hc => ?_)
    (by rw [hchars]; decide)).1 _).2 ⟨_, .cons hP (.cons ht (.nil _)), ?_⟩
  · simp only [List.mem_singleton] at hb
    subst hb
    refine ⟨rfl, fun k hk => ?_⟩
    rintro ⟨-, r, cat, htok, -, hr⟩
    cases htok
    rw [hchars] at hk
    simp at hk
    subst hk
    revert hr
    decide
  · rw [hP] at hc
    cases (Prod.mk.inj hc).1
    exact fun h => absurd h.1 (by decide)
  · rw [hchars]
    exact .cons (hspells 'p' 80 (.inr rfl)) (.cons (hspells 't' 116 (.inl rfl)) .nil)

end EngineM

end Galley
