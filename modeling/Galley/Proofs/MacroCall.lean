import Mathlib
import Galley.Proofs.MacroArguments
import Galley.Proofs.DumpLoad
import Galley.Proofs.Trace

/-!
# Calling a macro consumes exactly its instance

A macro whose parameter text is `L₀ #1 L₁ … #n Ln` is called on an input that begins with an
instance `L₀ a₁ L₁ … an Ln` of it, each `aᵢ` an argument its parameter takes whole
(`Braces.Argument`). Then `macroCall` reads exactly that instance and nothing after it, and
pushes the body with each `#i` replaced by `aᵢ` without the braces `Braces.strip` removes
(`macroCall_consumes_instance`).

The call is built from three readers, each given a spec on an engine that reads a token list
ahead (`Engine.Reads`):

* `undelimited` takes one token, or reads a group from level one until the level drops back
  to zero (`GroupInv`); inside a balanced group it never does before the closing brace.
* `delimited` reads `a ++ L` keeping the level of every token, and tests after each token
  whether the tokens read end with `L` at level zero (`DelimInv`); by
  `Braces.delimiter_found_iff` the test first passes after the last token of `L`.
* the loop of `macroCall` goes through the parameter text split by `splitParams`: literal
  tokens of `L₀` first, then one argument per part (`CallInv`).

Each loop is bounded by a billion rounds; each round reads a token, so an instance shorter than
that is read to its end. The body is pushed only when the stack of pending lists has room.
-/

namespace Galley

open Std.Do

set_option mvcgen.warning false

namespace Engine.Reads

variable {x e : Engine} {cs : List Cond}

theorem pendingHead_of_ne_nil {l : List Token} (h : x.Reads e l cs) (hl : l ≠ []) :
    ∃ u, x.pendingHead? = some (u, false) := by
  obtain ⟨u, us, rfl⟩ := List.exists_cons_of_ne_nil hl
  exact ⟨u, h.pendingHead⟩

end Engine.Reads

namespace EngineM

/-! ### Blanks and single tokens -/

theorem nextNonBlank_reads (e : Engine) (u : Token) (us : List Token) (cs : List Cond)
    (hu : u.isCat .space = false) :
    ⦃fun x => ⌜x.Reads e (u :: us) cs⌝⦄ nextNonBlank
    ⦃⇓ r x => ⌜r = some u ∧ x.Reads e us cs⌝⦄ := by
  unfold nextNonBlank
  rw [next_eq_pending]
  mvcgen [-next_keeps, -forIn_range_keeps] invariants
  | inv1 => ⇓p x => ⌜(p.snd.fst = none ∧ p.fst.prefix = [] ∧ x.Reads e (u :: us) cs) ∨
      (p.snd.fst = some (some u) ∧ p.fst.suffix = [] ∧ x.Reads e us cs)⌝
  case vc5.pre => exact .inl ⟨trivial, trivial, ‹_›⟩
  all_goals
    rcases ‹_ ∨ _› with ⟨-, hpre, hr⟩ | ⟨hb, hsuf, hr⟩
    · have hhead := hr.pendingHead
      have hdrop := hr.dropPending.1
      simp_all
    · simp_all

theorem undelimited_single (e : Engine) (t : Token) (long : Bool) (cs : List Cond) {u : Token}
    (rest : List Token) (hs : u.isCat .space = false) (hb : u.isCat .beginGroup = false)
    (he : u.isCat .endGroup = false) (hpar : long = true ∨ u ≠ parToken) :
    ⦃fun x => ⌜x.Reads e (u :: rest) cs⌝⦄ undelimited t long
    ⦃⇓ a x => ⌜a = [u] ∧ x.Reads e rest cs⌝⦄ := by
  have hnb := nextNonBlank_reads e u rest cs hs
  unfold undelimited
  mvcgen [hnb, -next_keeps, -forIn_range_keeps, -nextNonBlank_keeps, -fail_keeps, -runaway_keeps,
    -parInArgument_keeps] invariants
  | inv1 => ⇓_ _ => ⌜False⌝
  all_goals simp_all

/-! ### Groups -/

/-- The invariant of reading a group's contents `c`, closed by `r`: the part `pre` of `c` read
and kept, at its level; or the group closed and `c` returned. -/
def GroupInv (e : Engine) (c : List Token) (r : Token) (rest : List Token) (cs : List Cond)
    (k : Nat) (suffix : List Nat) (st : Option (List Token) × Array Token × Nat) (x : Engine) :
    Prop :=
  (st.1 = none ∧ ∃ pre post, c = pre ++ post ∧ pre.length = k ∧ st.2.1.toList = pre ∧
      st.2.2 = Braces.level 1 pre ∧ x.Reads e (post ++ r :: rest) cs) ∨
    (st.1 = some c ∧ suffix = [] ∧ x.Reads e rest cs)

theorem GroupInv.reading {e x : Engine} {c : List Token} {r u : Token} {rest : List Token}
    {cs : List Cond} {k j : Nat} {suff : List Nat} {st : Option (List Token) × Array Token × Nat}
    {f : Bool} (h : GroupInv e c r rest cs k (j :: suff) st x)
    (hp : x.pendingHead? = some (u, f)) :
    st.1 = none ∧ ∃ pre, pre.length = k ∧ st.2.1.toList = pre ∧ st.2.2 = Braces.level 1 pre ∧
      ((∃ post, c = pre ++ u :: post ∧ x.dropPending.Reads e (post ++ r :: rest) cs) ∨
        (c = pre ∧ u = r ∧ x.dropPending.Reads e rest cs)) := by
  rcases h with ⟨hnone, pre, post, rfl, hk, harg, hlev, hr⟩ | ⟨-, hsuf, -⟩
  · refine ⟨hnone, pre, hk, harg, hlev, ?_⟩
    cases post with
    | nil =>
      obtain ⟨hu, -⟩ := Prod.mk.inj (Option.some.inj (hr.pendingHead.symm.trans hp))
      exact .inr ⟨List.append_nil pre, hu.symm, hr.dropPending.1⟩
    | cons v post =>
      rw [List.cons_append] at hr
      obtain ⟨hu, -⟩ := Prod.mk.inj (Option.some.inj (hr.pendingHead.symm.trans hp))
      exact .inl ⟨post, by rw [hu], hr.dropPending.1⟩
  · cases hsuf

/-- An undelimited parameter given a group `b c r` takes its inside `c`. -/
theorem undelimited_group (e : Engine) (t : Token) (long : Bool) (cs : List Cond) {b r : Token}
    {c : List Token} (rest : List Token) (hb : b.isCat .beginGroup = true)
    (hr : r.isCat .endGroup = true) (hc : Braces.Balanced c)
    (hpar : long = true ∨ parToken ∉ c) (hlen : c.length < 1000000000) :
    ⦃fun x => ⌜x.Reads e (b :: (c ++ r :: rest)) cs⌝⦄ undelimited t long
    ⦃⇓ a x => ⌜a = c ∧ x.Reads e rest cs⌝⦄ := by
  have hbs : b.isCat .space = false := Braces.isCat_of_isCat (by decide) hb
  have hnb := nextNonBlank_reads e b (c ++ r :: rest) cs hbs
  have hbe : b.isCat .endGroup = false := Braces.isCat_of_isCat (by decide) hb
  have hbp : b ≠ parToken := by rintro rfl; exact absurd hb (by decide)
  have hrb : r.isCat .beginGroup = false := Braces.isCat_of_isCat (by decide) hr
  have hrp : r ≠ parToken := by rintro rfl; exact absurd hr (by decide)
  have hc1 : Braces.level 1 c = 1 := Braces.level_eq_of_depth (Braces.depth_of_balanced hc 1)
  unfold undelimited
  rw [next_eq_pending]
  mvcgen [hnb, -next_keeps, -forIn_range_keeps, -nextNonBlank_keeps, -fail_keeps, -runaway_keeps,
    -parInArgument_keeps] invariants
  | inv1 => ⇓p x => ⌜GroupInv e c r rest cs p.fst.prefix.length p.fst.suffix p.snd x⌝
  case vc2 | vc3 | vc4 =>
    obtain rfl := Option.some.inj ‹some _ = some b ∧ _›.1
    simp_all
  case vc5 =>
    obtain ⟨-, pre, -, -, -, ⟨post, rfl, -⟩ | ⟨-, rfl, -⟩⟩ :=
      ‹GroupInv _ _ _ _ _ _ _ _ _›.reading ‹_›
    · simp_all
    · simp_all
  case vc6 | vc8 | vc9 =>
    obtain ⟨-, pre, hk, harg, hlev, ⟨post, rfl, hnext⟩ | ⟨rfl, rfl, -⟩⟩ :=
      ‹GroupInv _ _ _ _ _ _ _ _ _›.reading ‹_›
    · refine .inl ⟨rfl, _, post, List.append_cons _ _ _, by simp [hk],
        by simp +zetaDelta [harg], ?_, hnext⟩
      simp_all +zetaDelta [Braces.level_concat]
    · simp_all +zetaDelta
  case vc7 =>
    -- the level drops to zero only at `r`: inside `c` it stays positive
    obtain ⟨-, pre, -, harg, hlev, ⟨post, rfl, hnext⟩ | ⟨rfl, rfl, hnext⟩⟩ :=
      ‹GroupInv _ _ _ _ _ _ _ _ _›.reading ‹_›
    · have := Braces.level_ne_zero_of_prefix hc (List.append_cons pre _ post)
      simp_all +zetaDelta [Braces.level_concat]
    · exact .inr ⟨by simp +zetaDelta [harg], rfl, hnext⟩
  case vc10 | vc11 =>
    rcases ‹GroupInv _ _ _ _ _ _ _ _ _› with ⟨-, pre, post, -, -, -, -, hr⟩ | ⟨-, hsuf, -⟩
    · obtain ⟨u, hu⟩ := hr.pendingHead_of_ne_nil (by simp)
      grind
    · simp at hsuf
  case vc12 => exact .inl ⟨rfl, [], c, rfl, rfl, rfl, rfl, by simpa using ‹_ ∧ _›.2⟩
  case vc13 | vc14 =>
    -- the loop cannot run out: each round reads a token of `c`
    rcases ‹GroupInv _ _ _ _ _ _ _ _ _› with ⟨hnone, pre, post, rfl, hk, -⟩ | ⟨hsome, -, hr⟩
    · simp at hk
      simp at hlen
      omega
    · simp_all
  case vc16 =>
    intro s hsome _
    exact (‹∀ u, _ = some u → False› b hsome).elim

/-- An undelimited parameter takes its argument whole, without the braces of a group. -/
theorem undelimited_reads (e : Engine) (t : Token) (long : Bool) (cs : List Cond)
    {a : List Token} (rest : List Token) (ha : Braces.Undelimited a) (hpar : Braces.ParFree long a)
    (hlen : a.length ≤ 1000000000) :
    ⦃fun x => ⌜x.Reads e (a ++ rest) cs⌝⦄ undelimited t long
    ⦃⇓ r x => ⌜r = Braces.strip a ∧ x.Reads e rest cs⌝⦄ := by
  rcases ha with ⟨u, rfl, hs, hb, he⟩ | ⟨b, c, r, rfl, hb, hr, hc⟩
  · rw [Braces.strip_single]
    exact undelimited_single e t long cs rest hs hb he
      (Or.imp id (fun h hu => h (hu ▸ List.mem_singleton_self u)) hpar)
  · have hsplit : b :: (c ++ [r]) ++ rest = b :: (c ++ r :: rest) := by simp
    have hlen' : c.length < 1000000000 := by simp at hlen; omega
    rw [Braces.strip_group hb hr hc, hsplit]
    exact undelimited_group e t long cs rest hb hr hc
      (Or.imp id (fun h hp => h (List.mem_cons_of_mem _ (List.mem_append_left _ hp))) hpar) hlen'

/-! ### Delimited arguments -/

theorem scanned_open {pre : List Token} {u : Token} {st : Array Token × Array Nat × Nat}
    (hopen : u.isCat .beginGroup = true) (h1 : st.1 = pre.toArray)
    (h2 : st.2.1 = (Braces.levels 0 pre).toArray) (h3 : st.2.2 = Braces.level 0 pre) :
    st.1.push u = (pre ++ [u]).toArray ∧
      st.2.1.push st.2.2 = (Braces.levels 0 (pre ++ [u])).toArray ∧
      st.2.2 + 1 = Braces.level 0 (pre ++ [u]) := by
  have hclose := Braces.isCat_of_isCat (b := .endGroup) (by decide) hopen
  exact ⟨by simp [h1], by simp [h2, h3, Braces.levels_concat hclose],
    by simp [h3, Braces.level_concat, hopen]⟩

theorem scanned_close {pre : List Token} {u : Token} {st : Array Token × Array Nat × Nat}
    (hclose : u.isCat .endGroup = true) (h1 : st.1 = pre.toArray)
    (h2 : st.2.1 = (Braces.levels 0 pre).toArray) (h3 : st.2.2 = Braces.level 0 pre) :
    st.1.push u = (pre ++ [u]).toArray ∧
      (st.2.1.push st.2.2).set! ((st.2.1.push st.2.2).size - 1) (st.2.2 - 1) =
        (Braces.levels 0 (pre ++ [u])).toArray ∧
      st.2.2 - 1 = Braces.level 0 (pre ++ [u]) := by
  have hopen := Braces.isCat_of_isCat (b := .beginGroup) (by decide) hclose
  exact ⟨by simp [h1], by simp [h2, h3, Braces.levels_concat_close hclose, Braces.length_levels],
    by simp [h3, Braces.level_concat, hclose, hopen]⟩

theorem scanned_other {pre : List Token} {u : Token} {st : Array Token × Array Nat × Nat}
    (hopen : u.isCat .beginGroup = false) (hclose : u.isCat .endGroup = false)
    (h1 : st.1 = pre.toArray) (h2 : st.2.1 = (Braces.levels 0 pre).toArray)
    (h3 : st.2.2 = Braces.level 0 pre) :
    st.1.push u = (pre ++ [u]).toArray ∧
      st.2.1.push st.2.2 = (Braces.levels 0 (pre ++ [u])).toArray ∧
      st.2.2 = Braces.level 0 (pre ++ [u]) := by
  exact ⟨by simp [h1], by simp [h2, h3, Braces.levels_concat hclose],
    by simp [h3, Braces.level_concat, hopen, hclose]⟩

/-- The invariant of reading an argument up to its delimiter `L`: the part `pre` of `a ++ L`
read, kept with its levels and its level, something of `a ++ L` still to come; or the
delimiter found and taken off, `a` kept with its levels. -/
def DelimInv (e : Engine) (a L rest : List Token) (cs : List Cond) (k : Nat) (suffix : List Nat)
    (st : Array Token × Array Nat × Nat) (x : Engine) : Prop :=
  (∃ pre post, a ++ L = pre ++ post ∧ post ≠ [] ∧ pre.length = k ∧ st.1 = pre.toArray ∧
      st.2.1 = (Braces.levels 0 pre).toArray ∧ st.2.2 = Braces.level 0 pre ∧
      x.Reads e (post ++ rest) cs) ∨
    (suffix = [] ∧ st.1 = a.toArray ∧ st.2.1 = (Braces.levels 0 a).toArray ∧ x.Reads e rest cs)

theorem DelimInv.reading {e x : Engine} {a L rest : List Token} {cs : List Cond} {k j : Nat}
    {suff : List Nat} {st : Array Token × Array Nat × Nat} {u : Token} {f : Bool}
    (h : DelimInv e a L rest cs k (j :: suff) st x) (hp : x.pendingHead? = some (u, f)) :
    ∃ pre post, a ++ L = pre ++ u :: post ∧ pre.length = k ∧ st.1 = pre.toArray ∧
      st.2.1 = (Braces.levels 0 pre).toArray ∧ st.2.2 = Braces.level 0 pre ∧
      x.dropPending.Reads e (post ++ rest) cs := by
  rcases h with ⟨pre, post, hsplit, hne, hk, h1, h2, h3, hr⟩ | ⟨hsuf, -⟩
  · cases post with
    | nil => exact absurd rfl hne
    | cons v post =>
      rw [List.cons_append] at hr
      obtain ⟨hu, -⟩ := Prod.mk.inj (Option.some.inj (hr.pendingHead.symm.trans hp))
      exact ⟨pre, post, hu ▸ hsplit, hk, h1, h2, h3, hr.dropPending.1⟩
  · cases hsuf

/-- A round of the delimited loop that reads `u` and does not find the delimiter keeps
`DelimInv`, its state pushed on as reading `u` after the tokens read pushes it. -/
theorem DelimInv.step {e x : Engine} {a L rest : List Token} {cs : List Cond} {k j : Nat}
    {suff : List Nat} {st st' : Array Token × Array Nat × Nat} {u : Token} {f : Bool}
    (hL : Braces.Delimiter L) (ha : Braces.Balanced a) (hfirst : Braces.FirstAfter a L)
    (h : DelimInv e a L rest cs k (j :: suff) st x) (hp : x.pendingHead? = some (u, f))
    (hnot : ¬(st.2.2 = 0 ∧ endsWithDelimiter (st.1.push u) (st.2.1.push st.2.2) L = true))
    (hst : ∀ pre : List Token, st.1 = pre.toArray → st.2.1 = (Braces.levels 0 pre).toArray →
      st.2.2 = Braces.level 0 pre → st'.1 = (pre ++ [u]).toArray ∧
        st'.2.1 = (Braces.levels 0 (pre ++ [u])).toArray ∧ st'.2.2 = Braces.level 0 (pre ++ [u])) :
    DelimInv e a L rest cs (k + 1) suff st' x.dropPending := by
  obtain ⟨pre, post, hsplit, hk, h1, h2, h3, hnext⟩ := h.reading hp
  have hpost : post ≠ [] := fun hnil => hnot (by
    simpa [h1, h2, h3] using (Braces.delimiter_found_iff hL ha hfirst hsplit).mpr hnil)
  obtain ⟨g1, g2, g3⟩ := hst pre h1 h2 h3
  exact .inl ⟨pre ++ [u], post, by simpa using hsplit, hpost, by simp [hk], g1, g2, g3, hnext⟩

/-- The loop has ended: it cannot run out before the delimiter, having fewer rounds than
`a ++ L` has tokens, so it left at the delimiter with `a` and its levels. -/
theorem DelimInv.finished {e x : Engine} {a L rest : List Token} {cs : List Cond} {k : Nat}
    {st : Array Token × Array Nat × Nat} (hk : (a ++ L).length ≤ k)
    (h : DelimInv e a L rest cs k [] st x) :
    st.1 = a.toArray ∧ st.2.1 = (Braces.levels 0 a).toArray ∧ x.Reads e rest cs := by
  rcases h with ⟨pre, post, hsplit, hne, rfl, -⟩ | ⟨-, h1, h2, hr⟩
  · have hlens : (a ++ L).length = pre.length + post.length := by
      rw [hsplit, List.length_append]
    have hpost : post.length ≠ 0 := by simpa using hne
    omega
  · exact ⟨h1, h2, hr⟩

/-- A delimited parameter takes everything up to its delimiter, the delimiter consumed, without
one pair of braces that encloses all of it. -/
theorem delimited_reads (e : Engine) (t : Token) (long : Bool) (cs : List Cond)
    {a L : List Token} (rest : List Token) (hL : Braces.Delimiter L) (ha : Braces.Balanced a)
    (hfirst : Braces.FirstAfter a L) (hpar : Braces.ParFree long (a ++ L))
    (hlen : (a ++ L).length ≤ 1000000000) :
    ⦃fun x => ⌜x.Reads e (a ++ L ++ rest) cs⌝⦄ delimited t L long
    ⦃⇓ r x => ⌜r = Braces.strip a ∧ x.Reads e rest cs⌝⦄ := by
  unfold delimited
  rw [next_eq_pending]
  mvcgen [-next_keeps, -forIn_range_keeps, -fail_keeps, -runaway_keeps,
    -parInArgument_keeps] invariants
  | inv1 => ⇓p x => ⌜DelimInv e a L rest cs p.fst.prefix.length p.fst.suffix p.snd x⌝
  case vc1 =>
    obtain ⟨pre, post, hsplit, -⟩ := ‹DelimInv _ _ _ _ _ _ _ _ _›.reading ‹_›
    have hmem : _ ∈ a ++ L := hsplit ▸ List.mem_append_right pre List.mem_cons_self
    simp_all [Braces.ParFree]
  case vc2 =>
    have hfound := ‹_ ∧ endsWithDelimiter _ _ _ = true›
    obtain ⟨pre, post, hsplit, -, h1, h2, h3, hnext⟩ :=
      ‹DelimInv _ _ _ _ _ _ _ _ _›.reading ‹_›
    have hnil : post = [] := (Braces.delimiter_found_iff hL ha hfirst hsplit).mp
      (by simpa +zetaDelta [h1, h2, h3] using hfound)
    subst hnil
    obtain ⟨htake, hlevels⟩ := Braces.found_take hL hsplit
    refine .inr ⟨rfl, ?_, ?_, by simpa using hnext⟩
    · simp +zetaDelta [h1, ← htake]
    · simp +zetaDelta [h2, h3, ← hlevels, Braces.length_levels]
  case vc3 =>
    rw [List.length_append, List.length_singleton]
    exact ‹DelimInv _ _ _ _ _ _ _ _ _›.step hL ha hfirst ‹_› ‹_› fun _ => scanned_open ‹_›
  case vc4 =>
    have hzero := ‹(_ : Nat) = 0›
    obtain ⟨pre, post, hsplit, -, -, -, h3, -⟩ := ‹DelimInv _ _ _ _ _ _ _ _ _›.reading ‹_›
    exact Braces.level_ne_zero_at_close hL ha hsplit ‹_› (by simpa +zetaDelta [h3] using hzero)
  case vc5 =>
    rw [List.length_append, List.length_singleton]
    exact ‹DelimInv _ _ _ _ _ _ _ _ _›.step hL ha hfirst ‹_› ‹_› fun _ => scanned_close ‹_›
  case vc6 =>
    rw [List.length_append, List.length_singleton]
    exact ‹DelimInv _ _ _ _ _ _ _ _ _›.step hL ha hfirst ‹_› ‹_› fun _ =>
      scanned_other (by simpa using ‹¬Token.isCat _ Category.beginGroup = true›)
        (by simpa using ‹¬Token.isCat _ Category.endGroup = true›)
  case vc7 | vc8 =>
    rcases ‹DelimInv _ _ _ _ _ _ _ _ _› with ⟨pre, post, -, hne, -, -, -, -, hr⟩ | ⟨hsuf, -⟩
    · obtain ⟨u, hu⟩ := hr.pendingHead_of_ne_nil (List.append_ne_nil_of_left_ne_nil hne rest)
      grind
    · simp at hsuf
  case vc9 =>
    exact .inl ⟨[], a ++ L, rfl, List.append_ne_nil_of_right_ne_nil a hL.1, rfl, rfl, rfl, rfl, ‹_›⟩
  case vc10 _ _ _ _ _ _ _ _ hcond _ hinv =>
    obtain ⟨h1, h2, hr⟩ := hinv.finished (by simpa using hlen)
    refine ⟨?_, hr⟩
    simp +zetaDelta only [h1, h2, List.size_toArray, List.getElem?_toArray] at hcond ⊢
    rw [Braces.strip, if_pos ((Braces.strip_test_iff ha).mp hcond)]
    simp [List.dropLast_eq_take]
  case vc11 _ _ _ _ _ _ _ _ hcond _ hinv =>
    obtain ⟨h1, h2, hr⟩ := hinv.finished (by simpa using hlen)
    refine ⟨?_, hr⟩
    simp +zetaDelta only [h1, h2, List.size_toArray, List.getElem?_toArray] at hcond ⊢
    rw [Braces.strip, if_neg fun h => hcond ((Braces.strip_test_iff ha).mpr h)]

/-- A paragraph end in an argument of a short macro is refused as a runaway argument. -/
theorem parInArgument_refuses {α : Type} (t : Token) :
    ⦃fun _ => ⌜True⌝⦄ (parInArgument t : EngineM α)
    ⦃post⟨fun _ _ => ⌜False⌝, fun err _ => ⌜err.kind = .runawayArgument ∧
      err.msg = "paragraph ended before " ++ t.text ++ " was complete"⌝⟩⦄ := by
  unfold parInArgument fail
  mvcgen

/-- The invariant of reading a delimited argument of a short macro toward a `\par` still
ahead: the part `pre` of `a ++ L` read, kept with its levels and its level, and a `\par` in
the part `post` still to come. -/
def ParInv (e : Engine) (a L rest : List Token) (cs : List Cond) (k : Nat)
    (st : Array Token × Array Nat × Nat) (x : Engine) : Prop :=
  ∃ pre post, a ++ L = pre ++ post ∧ parToken ∈ post ∧ pre.length = k ∧ st.1 = pre.toArray ∧
    st.2.1 = (Braces.levels 0 pre).toArray ∧ st.2.2 = Braces.level 0 pre ∧
    x.Reads e (post ++ rest) cs

theorem ParInv.reading {e x : Engine} {a L rest : List Token} {cs : List Cond} {k : Nat}
    {st : Array Token × Array Nat × Nat} {u : Token} {f : Bool}
    (h : ParInv e a L rest cs k st x) (hp : x.pendingHead? = some (u, f)) :
    ∃ pre post, a ++ L = pre ++ u :: post ∧ parToken ∈ u :: post ∧ pre.length = k ∧
      st.1 = pre.toArray ∧ st.2.1 = (Braces.levels 0 pre).toArray ∧
      st.2.2 = Braces.level 0 pre ∧ x.dropPending.Reads e (post ++ rest) cs := by
  obtain ⟨pre, post, hsplit, hmem, hk, h1, h2, h3, hr⟩ := h
  cases post with
  | nil => cases hmem
  | cons v post =>
    rw [List.cons_append] at hr
    obtain ⟨hu, -⟩ := Prod.mk.inj (Option.some.inj (hr.pendingHead.symm.trans hp))
    exact ⟨pre, post, hu ▸ hsplit, hu ▸ hmem, hk, h1, h2, h3, hr.dropPending.1⟩

theorem ParInv.step {e x : Engine} {a L rest : List Token} {cs : List Cond} {k : Nat}
    {st st' : Array Token × Array Nat × Nat} {u : Token} {f : Bool}
    (h : ParInv e a L rest cs k st x) (hp : x.pendingHead? = some (u, f)) (hu : u ≠ parToken)
    (hst : ∀ pre : List Token, st.1 = pre.toArray → st.2.1 = (Braces.levels 0 pre).toArray →
      st.2.2 = Braces.level 0 pre → st'.1 = (pre ++ [u]).toArray ∧
        st'.2.1 = (Braces.levels 0 (pre ++ [u])).toArray ∧ st'.2.2 = Braces.level 0 (pre ++ [u])) :
    ParInv e a L rest cs (k + 1) st' x.dropPending := by
  obtain ⟨pre, post, hsplit, hmem, hk, h1, h2, h3, hnext⟩ := h.reading hp
  obtain ⟨g1, g2, g3⟩ := hst pre h1 h2 h3
  exact ⟨pre ++ [u], post, by simpa using hsplit,
    (List.mem_cons.mp hmem).resolve_left fun h => hu h.symm, by simp [hk], g1, g2, g3, hnext⟩

/-- A delimited parameter of a short macro whose argument or delimiter holds `\par` fails: the
`\par` is refused as it is read, before the delimiter can be found after it. -/
theorem delimited_refuses_par (e : Engine) (t : Token) (cs : List Cond)
    {a L : List Token} (rest : List Token) (hL : Braces.Delimiter L) (ha : Braces.Balanced a)
    (hfirst : Braces.FirstAfter a L) (hpar : parToken ∈ a ++ L)
    (hlen : (a ++ L).length ≤ 1000000000) :
    ⦃fun x => ⌜x.Reads e (a ++ L ++ rest) cs⌝⦄ delimited t L false
    ⦃post⟨fun _ _ => ⌜False⌝, fun err _ => ⌜err.kind = .runawayArgument ∧
      err.msg = "paragraph ended before " ++ t.text ++ " was complete"⌝⟩⦄ := by
  unfold delimited
  rw [next_eq_pending]
  mvcgen [-next_keeps, -forIn_range_keeps, -fail_keeps, -runaway_keeps,
    -parInArgument_keeps, parInArgument_refuses] invariants
  | inv1 => post⟨fun p x => ⌜ParInv e a L rest cs p.fst.prefix.length p.snd x⌝,
      fun err _ => ⌜err.kind = .runawayArgument ∧
        err.msg = "paragraph ended before " ++ t.text ++ " was complete"⌝⟩
  case vc6 => exact fun _ hk hm => ⟨hk, hm⟩
  case vc7 =>
    have hfound := ‹_ ∧ endsWithDelimiter _ _ _ = true›
    have hnot := ‹¬(_ = parToken ∧ _)›
    obtain ⟨pre, post, hsplit, hmem, -, h1, h2, h3, -⟩ := ‹ParInv _ _ _ _ _ _ _ _›.reading ‹_›
    have hnil : post = [] := (Braces.delimiter_found_iff hL ha hfirst hsplit).mp
      (by simpa +zetaDelta [h1, h2, h3] using hfound)
    subst hnil
    simp_all
  case vc8 =>
    rw [List.length_append, List.length_singleton]
    exact ‹ParInv _ _ _ _ _ _ _ _›.step ‹_› (fun h => ‹¬(_ = parToken ∧ _)› ⟨h, rfl⟩)
      fun _ => scanned_open ‹_›
  case vc9 =>
    have hzero := ‹(_ : Nat) = 0›
    obtain ⟨pre, post, hsplit, -, -, -, -, h3, -⟩ := ‹ParInv _ _ _ _ _ _ _ _›.reading ‹_›
    exact absurd (by simpa +zetaDelta [h3] using hzero)
      (Braces.level_ne_zero_at_close hL ha hsplit ‹_›)
  case vc10 =>
    rw [List.length_append, List.length_singleton]
    exact ‹ParInv _ _ _ _ _ _ _ _›.step ‹_› (fun h => ‹¬(_ = parToken ∧ _)› ⟨h, rfl⟩)
      fun _ => scanned_close ‹_›
  case vc11 =>
    rw [List.length_append, List.length_singleton]
    exact ‹ParInv _ _ _ _ _ _ _ _›.step ‹_› (fun h => ‹¬(_ = parToken ∧ _)› ⟨h, rfl⟩)
      fun _ => scanned_other (by simpa using ‹¬Token.isCat _ Category.beginGroup = true›)
        (by simpa using ‹¬Token.isCat _ Category.endGroup = true›)
  case vc12 | vc13 =>
    obtain ⟨pre, post, -, hmem, -, -, -, -, hr⟩ := ‹ParInv _ _ _ _ _ _ _ _›
    obtain ⟨u, hu⟩ := hr.pendingHead_of_ne_nil
      (List.append_ne_nil_of_left_ne_nil (List.ne_nil_of_mem hmem) rest)
    grind
  case vc14 => exact ⟨[], a ++ L, rfl, hpar, rfl, rfl, rfl, rfl, ‹_›⟩
  case vc15 | vc16 =>
    obtain ⟨pre, post, hsplit, hmem, hk, -⟩ := ‹ParInv _ _ _ _ _ _ _ _›
    have hlens : (a ++ L).length = pre.length + post.length := by
      rw [hsplit, List.length_append]
    have hpost : post.length ≠ 0 := by simpa using List.ne_nil_of_mem hmem
    simp at hk
    omega

/-! ### The call -/

theorem forIn_list_yields {α β : Type} (xs : List α) (init : β)
    (f : α → β → EngineM (ForInStep β)) (I : List α → β → Engine → Prop)
    (hstep : ∀ pre a suf b, xs = pre ++ a :: suf →
      ⦃fun x => ⌜I pre b x⌝⦄ f a b ⦃⇓ r x => ⌜∃ b', r = .yield b' ∧ I (pre ++ [a]) b' x⌝⦄) :
    ⦃fun x => ⌜I [] init x⌝⦄ forIn xs init f ⦃⇓ r x => ⌜I xs r x⌝⦄ := by
  mvcgen [-forIn_list_keeps] invariants
  | inv1 => ⇓p x => ⌜I p.fst.prefix p.snd x⌝
  case vc2 => exact id
  case vc4 pre a suf hxs b =>
    intro x hx
    refine wp_of_spec (hstep pre a suf b hxs) (fun r y ⟨b', hr, hy⟩ => ?_) hx
    subst hr
    exact hy

/-- Pushing a list where the stack of pending lists has room puts it in front of what the
engine reads. -/
theorem push_reads (e : Engine) (l R : List Token) (t : Token) (cs : List Cond)
    (hroom : ¬(0 < e.options.maxDepth ∧
      e.options.maxDepth ≤ ((pendingOf R ++ e.inputs).length : Int))) :
    ⦃fun x => ⌜x.Reads e R cs⌝⦄ push l t
    ⦃⇓ _ x => ⌜x.Reads { e with inputs := pendingOf R ++ e.inputs } l cs⌝⦄ := by
  unfold push
  mvcgen [-fail_keeps]
  case vc2 =>
    have hr := ‹Engine.Reads _ _ _ _›
    have hfull := ‹_ ∧ _ ≥ _›
    rw [hr.options, hr.inputs] at hfull
    exact (hroom ⟨hfull.1, hfull.2⟩).elim
  all_goals simp_all [Engine.reads_iff, pendingOf]

/-- The invariant of matching the parameter text `L₀ #1 L₁ … #n Ln` against its instance: the
literal tokens `l₁` of `L₀` matched, or all of `L₀` and the arguments of the parts `p₁` taken;
the rest of the instance is read next. -/
def CallInv (e : Engine) (L₀ : List Token) (parts : List (List Token × List Token))
    (R : List Token) (cs : List Cond) (k : Nat) (args : Array (List Token)) (x : Engine) : Prop :=
  ∃ l₁ l₂ p₁ p₂, L₀ = l₁ ++ l₂ ∧ parts = p₁ ++ p₂ ∧ (l₂ = [] ∨ p₁ = []) ∧
    l₁.length + p₁.length = k ∧ args = (p₁.map fun p => Braces.strip p.1).toArray ∧
    x.Reads e (instanceOf l₂ p₂ ++ R) cs

/-- A round of the loop of `macroCall`: the next item of the split parameter text is a literal
token `v` of `L₀`, read next, or the delimiter of a part `p`, whose argument and delimiter
are read next. -/
theorem CallInv.step {e x : Engine} {L₀ : List Token} {parts : List (List Token × List Token)}
    {R : List Token} {cs : List Cond} {args : Array (List Token)}
    {pre suf : List (Sum Token (List Token))} {s : Sum Token (List Token)}
    (hxs : L₀.map Sum.inl ++ (parts.map Prod.snd).map Sum.inr = pre ++ s :: suf)
    (h : CallInv e L₀ parts R cs pre.length args x) :
    (∃ v l₁ l₂, L₀ = l₁ ++ v :: l₂ ∧ l₁.length = pre.length ∧ s = .inl v ∧ args = #[] ∧
        x.Reads e (v :: (instanceOf l₂ parts ++ R)) cs) ∨
      (∃ p p₁ p₂, parts = p₁ ++ p :: p₂ ∧ L₀.length + p₁.length = pre.length ∧ s = .inr p.2 ∧
        args = (p₁.map fun p => Braces.strip p.1).toArray ∧
        x.Reads e (p.1 ++ p.2 ++ (instanceOf [] p₂ ++ R)) cs) := by
  obtain ⟨l₁, l₂, p₁, p₂, rfl, rfl, hor, hk, hargs, hr⟩ := h
  cases l₂ with
  | cons v l₂ =>
    obtain rfl : p₁ = [] := hor.resolve_left (List.cons_ne_nil v l₂)
    have hsplit : (l₁ ++ v :: l₂).map Sum.inl ++ ((([] : List (List Token × List Token)) ++ p₂).map
        Prod.snd).map Sum.inr = l₁.map Sum.inl ++ Sum.inl v ::
          (l₂.map Sum.inl ++ (p₂.map Prod.snd).map Sum.inr) := by simp
    rw [hsplit] at hxs
    have hcur := (List.append_inj hxs.symm (by simpa using hk.symm)).2
    refine .inl ⟨v, l₁, l₂, rfl, by simpa using hk, ?_, by simpa using hargs, ?_⟩
    · exact (List.cons.inj hcur).1
    · simpa [instanceOf] using hr
  | nil =>
    cases p₂ with
    | nil =>
      have hlen := congrArg List.length hxs
      simp at hlen hk
      omega
    | cons p p₂ =>
      have hsplit : (l₁ ++ []).map Sum.inl ++ ((p₁ ++ p :: p₂).map Prod.snd).map Sum.inr =
          (l₁.map Sum.inl ++ (p₁.map Prod.snd).map Sum.inr) ++ Sum.inr p.2 ::
            (p₂.map Prod.snd).map Sum.inr := by simp
      rw [hsplit] at hxs
      have hcur := (List.append_inj hxs.symm (by simpa using hk.symm)).2
      refine .inr ⟨p, p₁, p₂, rfl, by simpa using hk, ?_, hargs, ?_⟩
      · exact (List.cons.inj hcur).1
      · simpa [instanceOf] using hr

theorem CallInv.literal {e x : Engine} {l₁ l₂ : List Token} {v : Token}
    {parts : List (List Token × List Token)} {R : List Token} {cs : List Cond} {k : Nat}
    (hk : l₁.length = k) (hx : x.Reads e (instanceOf l₂ parts ++ R) cs) :
    CallInv e (l₁ ++ v :: l₂) parts R cs (k + 1) #[] x :=
  ⟨l₁ ++ [v], l₂, [], parts, by simp, rfl, .inr rfl, by simp [hk], rfl, hx⟩

theorem CallInv.argument {e x : Engine} {L₀ : List Token} {p : List Token × List Token}
    {p₁ p₂ : List (List Token × List Token)} {R : List Token} {cs : List Cond} {k : Nat}
    (hk : L₀.length + p₁.length = k) (hx : x.Reads e (instanceOf [] p₂ ++ R) cs) :
    CallInv e L₀ (p₁ ++ p :: p₂) R cs (k + 1)
      ((p₁.map fun p => Braces.strip p.1).toArray.push (Braces.strip p.1)) x :=
  ⟨L₀, [], p₁ ++ [p], p₂, by simp, by simp, .inl rfl, by simp; omega, by simp, hx⟩

theorem CallInv.finished {e x : Engine} {L₀ : List Token} {parts : List (List Token × List Token)}
    {R : List Token} {cs : List Cond} {args : Array (List Token)}
    (h : CallInv e L₀ parts R cs (L₀.length + parts.length) args x) :
    args = (parts.map fun p => Braces.strip p.1).toArray ∧ x.Reads e R cs := by
  obtain ⟨l₁, l₂, p₁, p₂, rfl, rfl, -, hk, hargs, hr⟩ := h
  simp only [List.length_append] at hk
  obtain rfl : l₂ = [] := List.eq_nil_of_length_eq_zero (by omega)
  obtain rfl : p₂ = [] := List.eq_nil_of_length_eq_zero (by omega)
  exact ⟨by simpa using hargs, by simpa [instanceOf] using hr⟩

/-- The loop of `macroCall` over the parameter text `L₀ #1 L₁ … #n Ln`, given that each round
keeps `CallInv`, reads the whole instance and collects the arguments. -/
theorem callLoop_reads (e : Engine) (L₀ : List Token) (parts : List (List Token × List Token))
    (R : List Token) (cs : List Cond)
    (f : Sum Token (List Token) → Array (List Token) → EngineM (ForInStep (Array (List Token))))
    (hstep : ∀ pre a suf b, L₀.map Sum.inl ++ (parts.map Prod.snd).map Sum.inr = pre ++ a :: suf →
      ⦃fun x => ⌜CallInv e L₀ parts R cs pre.length b x⌝⦄ f a b
      ⦃⇓ r x => ⌜∃ b', r = .yield b' ∧ CallInv e L₀ parts R cs (pre.length + 1) b' x⌝⦄) :
    ⦃fun x => ⌜x.Reads e (instanceOf L₀ parts ++ R) cs⌝⦄
    forIn (L₀.map Sum.inl ++ (parts.map Prod.snd).map Sum.inr) #[] f
    ⦃⇓ r x => ⌜r = (parts.map fun p => Braces.strip p.1).toArray ∧ x.Reads e R cs⌝⦄ := by
  have hloop := forIn_list_yields _ #[] f
    (fun pre args x => CallInv e L₀ parts R cs pre.length args x)
    (fun pre a suf b hxs => by simpa using hstep pre a suf b hxs)
  apply Triple.of_entails_wp
  intro s hs
  refine wp_of_spec hloop (fun r y hy => CallInv.finished (by simpa using hy))
    ⟨[], L₀, [], parts, rfl, rfl, .inr rfl, rfl, rfl, by simpa [instanceOf] using hs⟩

/-- A call on an instance of the parameter text reads the instance and pushes the body with
the arguments in place, over the rest `R` of the input. -/
theorem macroCall_reads_instance (e : Engine) (t : Token) (m : Macro) (cs : List Cond)
    (L₀ : List Token) (parts : List (List Token × List Token)) (R : List Token)
    (hparams : m.params = paramText L₀ (parts.map Prod.snd))
    (hargs : ∀ p ∈ parts, Braces.Argument m.long p.1 p.2)
    (hroom : ¬(0 < e.options.maxDepth ∧
      e.options.maxDepth ≤ ((pendingOf R ++ e.inputs).length : Int)))
    (hlen : (instanceOf L₀ parts).length ≤ 1000000000) :
    ⦃fun x => ⌜x.Reads e (instanceOf L₀ parts ++ R) cs⌝⦄ macroCall t m
    ⦃⇓ _ x => ⌜x.Reads { e with inputs := pendingOf R ++ e.inputs }
      (instantiate (parts.map fun p => Braces.strip p.1).toArray m.body) cs⌝⦄ := by
  unfold macroCall
  rw [hparams, splitParams_paramText]
  refine Triple.bind _ _ (callLoop_reads e L₀ parts R cs _ ?_) fun args => ?_
  · intro pre a suf b hxs
    rcases a with lit | delim
    · -- a literal token of `L₀` is read and matches
      rw [next_eq_pending]
      mvcgen [-next_keeps, -fail_keeps, -runaway_keeps]
      all_goals
        obtain ⟨v, l₁, l₂, rfl, hk, ⟨⟩, rfl, hr⟩ | ⟨_, _, _, _, _, ⟨⟩, _⟩ := CallInv.step hxs ‹_›
        have hhead := hr.pendingHead
        have hdrop := hr.dropPending.1
      case vc2 => exact ⟨#[], rfl, CallInv.literal hk hdrop⟩
      all_goals grind
    · -- an argument is taken with its delimiter
      mvcgen [-undelimited_keeps, -delimited_keeps]
      all_goals
        obtain ⟨_, _, _, _, _, ⟨⟩, _⟩ | ⟨p, p₁, p₂, rfl, hk, ⟨⟩, rfl, hr⟩ := CallInv.step hxs ‹_›
        have harg := hargs p (by simp)
        have hbound : (p.1 ++ p.2).length ≤ 1000000000 := by
          simp [instanceOf] at hlen
          simp
          omega
      case vc1 =>
        have hnil : p.2 = [] := by simpa using ‹p.2.isEmpty = true›
        obtain ⟨-, hund⟩ := harg.shape.resolve_right fun h => h.1.1 hnil
        refine wp_of_spec (undelimited_reads e t m.long cs (instanceOf [] p₂ ++ R) hund
          (by simpa [hnil] using harg.par) (by simpa [hnil] using hbound))
          (fun r y hry => ?_) (by simpa [hnil] using hr)
        obtain ⟨hr', hy⟩ := hry
        subst hr'
        exact ⟨_, rfl, CallInv.argument hk hy⟩
      case vc2 =>
        have hne : p.2 ≠ [] := by simpa using ‹¬p.2.isEmpty = true›
        obtain ⟨hL, hbal, hfirst⟩ := harg.shape.resolve_left fun h => hne h.1
        refine wp_of_spec (delimited_reads e t m.long cs (instanceOf [] p₂ ++ R) hL hbal hfirst
          harg.par hbound) (fun r y hry => ?_) hr
        obtain ⟨hr', hy⟩ := hry
        subst hr'
        exact ⟨_, rfl, CallInv.argument hk hy⟩
  · have hpush := push_reads e (instantiate args m.body) R t cs hroom
    mvcgen [hpush, -emit_keeps, -push_keeps]
    all_goals obtain ⟨rfl, hr⟩ := ‹_ ∧ Engine.Reads _ _ _ _›
    · simpa using hr
    · exact id

/-- Calling a macro whose parameter text is `L₀ #1 L₁ … #n Ln` on an input that begins with an
instance `L₀ a₁ L₁ … an Ln`, each `aᵢ` an argument its parameter takes whole, consumes exactly
that instance: the call succeeds and leaves the engine reading the body, with each `#i`
replaced by `aᵢ` less the braces of a group enclosing all of it, then the rest `R` of the input,
everything else as it was. A `\par` in an argument or in a delimiter of a macro that is not
long, a push onto a full stack of pending lists, and an instance of a billion tokens or more
are excluded, and so is a body with a placeholder past the parameters, which only a loaded
format gives and on which the original stops. -/
theorem macroCall_consumes_instance (e : Engine) (t : Token) (m : Macro) (cs : List Cond)
    (L₀ : List Token) (parts : List (List Token × List Token)) (R : List Token)
    (hparams : m.params = paramText L₀ (parts.map Prod.snd))
    (hargs : ∀ p ∈ parts, Braces.Argument m.long p.1 p.2)
    (hroom : ¬(0 < e.options.maxDepth ∧
      e.options.maxDepth ≤ ((pendingOf R ++ e.inputs).length : Int)))
    (hlen : (instanceOf L₀ parts).length ≤ 1000000000) : m.Numbered →
    ⦃fun x => ⌜x.Reads e (instanceOf L₀ parts ++ R) cs⌝⦄ macroCall t m
    ⦃⇓ _ x => ⌜x.Reads { e with inputs := pendingOf R ++ e.inputs }
      (instantiate (parts.map fun p => Braces.strip p.1).toArray m.body) cs⌝⦄ :=
  fun _ => macroCall_reads_instance e t m cs L₀ parts R hparams hargs hroom hlen

/-- `\a#1#2.` with the body `#2#1`, used as `\a x{y}.` before `z`: `x` is taken alone, `{y}` up
to the dot and without its braces, and the engine goes on with `y x`, then `z`. -/
theorem macroCall_takes_group_braces_off :
    let x : Token := .char 120 .letter
    let y : Token := .char 121 .letter
    let z : Token := .char 122 .letter
    let dot : Token := .char 46 .other
    let m : Macro := { params := paramText [] [[], [dot]], body := [.param 2, .param 1] }
    let parts := [([x], []), ([.char 123 .beginGroup, y, .char 125 .endGroup], [dot])]
    let e : Engine := default
    m.params = paramText [] (parts.map Prod.snd) ∧
      (∀ p ∈ parts, Braces.Argument m.long p.1 p.2) ∧
      ¬(0 < e.options.maxDepth ∧ e.options.maxDepth ≤ ((pendingOf [z] ++ e.inputs).length : Int)) ∧
      (instanceOf [] parts).length ≤ 1000000000 ∧ m.Numbered ∧
      ⦃fun s => ⌜s.Reads e (instanceOf [] parts ++ [z]) []⌝⦄ macroCall (.cs "a") m
      ⦃⇓ _ s => ⌜s.Reads { e with inputs := pendingOf [z] ++ e.inputs } [y, x] []⌝⦄ := by
  intro x y z dot m parts e
  have hparams : m.params = paramText [] (parts.map Prod.snd) := rfl
  have hargs : ∀ p ∈ parts, Braces.Argument m.long p.1 p.2 := by
    simp only [parts, List.mem_cons, List.not_mem_nil, or_false]
    rintro p (rfl | rfl)
    · exact ⟨by decide, .inl ⟨rfl, .inl ⟨x, rfl, rfl, rfl, rfl⟩⟩⟩
    · exact ⟨by decide, .inr ⟨⟨by simp, .inl (by decide)⟩, by decide, by decide⟩⟩
  have hroom : ¬(0 < e.options.maxDepth ∧
      e.options.maxDepth ≤ ((pendingOf [z] ++ e.inputs).length : Int)) := by decide
  have hbody : instantiate (parts.map fun p => Braces.strip p.1).toArray m.body = [y, x] := by
    decide
  have hnum : m.Numbered := by
    intro p hp
    simp only [m, List.mem_cons, MacroElem.param.injEq, List.not_mem_nil, or_false] at hp
    rcases hp with rfl | rfl <;> decide
  refine ⟨hparams, hargs, hroom, by decide, hnum, ?_⟩
  rw [← hbody]
  exact macroCall_consumes_instance e (.cs "a") m [] [] parts [z] hparams hargs hroom (by decide)
    hnum

/-- `\a#1\par` with a short `\a`, used as `\a x\par`: every condition on the instance holds
but the one on `\par`, and the call fails as the `\par` that delimits the argument is read. -/
theorem macroCall_refuses_par_delimiter :
    let x : Token := .char 120 .letter
    let m : Macro := { params := paramText [] [[parToken]], body := [.param 1] }
    let parts := [([x], [parToken])]
    m.params = paramText [] (parts.map Prod.snd) ∧ parToken ∉ [x] ∧ Braces.Delimiter [parToken] ∧
      Braces.Balanced [x] ∧ Braces.FirstAfter [x] [parToken] ∧
      ∀ e R cs, ⦃fun s => ⌜s.Reads e (instanceOf [] parts ++ R) cs⌝⦄ macroCall (.cs "a") m
      ⦃post⟨fun _ _ => ⌜False⌝, fun err _ => ⌜err.kind = .runawayArgument ∧
        err.msg = "paragraph ended before \\a was complete"⌝⟩⦄ := by
  intro x m parts
  have hL : Braces.Delimiter [parToken] := ⟨by simp, .inl (by decide)⟩
  have ha : Braces.Balanced [x] := by decide
  have hfirst : Braces.FirstAfter [x] [parToken] := by decide
  refine ⟨rfl, by decide, hL, ha, hfirst, fun e R cs => ?_⟩
  have hdel := delimited_refuses_par e (.cs "a") cs R hL ha hfirst (by decide) (by decide)
  unfold macroCall
  simp only [m, splitParams_paramText, List.map, List.nil_append, List.forIn_cons, List.forIn_nil]
  mvcgen [hdel, -delimited_keeps]

end EngineM

end Galley
