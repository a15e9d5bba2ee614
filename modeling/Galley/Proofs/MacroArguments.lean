import Mathlib
import Galley.Engine.Macro

/-!
# Macro arguments as token lists

What a macro call takes from its input is decided by braces: begin-group characters open a
group and end-group characters close one. This module states, on plain token lists, what a
well-formed argument is and what the call makes of it.

* `Braces.depth` is the brace depth after a list, `none` when a group is closed that was not
  opened, and `Braces.Balanced` says the braces of a list match.
* `Braces.levels` and `Braces.level` are the levels `delimited` keeps while it reads: the
  level before each token, or after it for an end-group character.
* `Braces.FirstAfter a L` says that the delimiter `L` follows a balanced stretch of `a ++ L`
  only after the whole of `a`, and `Braces.strip` removes one pair of braces that encloses a
  whole argument.
* `Braces.Argument long a L` is what a parameter delimited by `L` takes whole: one token or a
  group when `L` is empty, otherwise a balanced list that `L` follows first.
* `paramText L₀ [L₁, …, Ln]` is the parameter text `L₀ #1 L₁ … #n Ln` and `instanceOf` the
  text a use of it consumes, `L₀ a₁ L₁ … an Ln`.

The lemmas are what reading an argument needs: how levels and depths run along an appended
list, that the levels stay nonzero inside a group exactly when the group is balanced, and
that a delimiter of the right shape is found exactly after `a`. `splitParams_paramText` says
how a parameter text is matched: its literal tokens first, then one parameter per `Li`.
-/

namespace Galley

namespace Braces

/-- The brace depth after reading `l` from depth `d`; `none` when an end-group character
comes at depth zero. -/
def depth : Nat → List Token → Option Nat
  | d, [] => some d
  | d, u :: us =>
    if u.isCat .beginGroup then depth (d + 1) us
    else if u.isCat .endGroup then
      match d with
      | 0 => none
      | d + 1 => depth d us
    else depth d us

/-- The braces of `l` match. -/
def Balanced (l : List Token) : Prop := depth 0 l = some 0

instance : DecidablePred Balanced := fun _ => inferInstanceAs (Decidable (_ = _))

theorem isCat_of_isCat {u : Token} {a b : Category} (hne : a ≠ b) (h : u.isCat a = true) :
    u.isCat b = false := by
  cases u with
  | char code cat =>
    simp only [Token.isCat, beq_iff_eq] at h ⊢
    subst h
    simpa using hne
  | cs n => rfl

/-- The level `delimited` keeps for each token of `l` read from level `d`: the level before
the token, or after it for an end-group character. -/
def levels : Nat → List Token → List Nat
  | _, [] => []
  | d, u :: us =>
    if u.isCat .beginGroup then d :: levels (d + 1) us
    else if u.isCat .endGroup then (d - 1) :: levels (d - 1) us
    else d :: levels d us

/-- The level after reading `l` from level `d`, as `delimited` counts it. -/
def level : Nat → List Token → Nat
  | d, [] => d
  | d, u :: us =>
    if u.isCat .beginGroup then level (d + 1) us
    else if u.isCat .endGroup then level (d - 1) us
    else level d us

/-- No token of `l` is a brace. -/
def BraceFree (l : List Token) : Prop :=
  ∀ u ∈ l, u.isCat .beginGroup = false ∧ u.isCat .endGroup = false

instance (l : List Token) : Decidable (BraceFree l) := inferInstanceAs (Decidable (∀ u ∈ l, _))

/-- The tokens that delimit a parameter: brace-free, or brace-free up to a last begin-group
character (the `#{` of a parameter text). -/
def Delimiter (L : List Token) : Prop :=
  L ≠ [] ∧ (BraceFree L ∨ ∃ L' b, L = L' ++ [b] ∧ BraceFree L' ∧ b.isCat .beginGroup = true)

/-- `L` follows a balanced stretch of `a ++ L` nowhere before the end of `a`. -/
def FirstAfter (a L : List Token) : Prop :=
  ∀ j < a.length, Balanced ((a ++ L).take j) → ¬ L.IsPrefix ((a ++ L).drop j)

instance (a L : List Token) : Decidable (FirstAfter a L) :=
  inferInstanceAs (Decidable (∀ j < a.length, _))

/-- `a` without one pair of braces that encloses all of it: a begin-group character first, an
end-group character last, and balanced braces between them. -/
def strip (a : List Token) : List Token :=
  if 2 ≤ a.length ∧ (a.head?.map (·.isCat .beginGroup)) = some true ∧
      (a.getLast?.map (·.isCat .endGroup)) = some true ∧ Balanced (a.drop 1).dropLast then
    (a.drop 1).dropLast
  else a

/-! ### Depth and levels along a list -/

theorem depth_append (d : Nat) (l₁ l₂ : List Token) :
    depth d (l₁ ++ l₂) = (depth d l₁).bind fun d' => depth d' l₂ := by
  induction l₁ generalizing d with
  | nil => rfl
  | cons u us ih =>
    simp only [List.cons_append, depth]
    split
    · exact ih _
    · split
      · split <;> simp [ih]
      · exact ih _

theorem levels_append (d : Nat) (l₁ l₂ : List Token) :
    levels d (l₁ ++ l₂) = levels d l₁ ++ levels (level d l₁) l₂ := by
  induction l₁ generalizing d with
  | nil => rfl
  | cons u us ih =>
    simp only [List.cons_append, levels, level]
    split
    · rw [ih]; rfl
    · split <;> rw [ih] <;> rfl

theorem level_append (d : Nat) (l₁ l₂ : List Token) :
    level d (l₁ ++ l₂) = level (level d l₁) l₂ := by
  induction l₁ generalizing d with
  | nil => rfl
  | cons u us ih =>
    simp only [List.cons_append, level]
    split
    · exact ih _
    · split <;> exact ih _

theorem length_levels (d : Nat) (l : List Token) : (levels d l).length = l.length := by
  induction l generalizing d with
  | nil => rfl
  | cons u us ih =>
    simp only [levels]
    split
    · simp [ih]
    · split <;> simp [ih]

theorem level_eq_of_depth {d n : Nat} {l : List Token} (h : depth d l = some n) :
    level d l = n := by
  induction l generalizing d with
  | nil => simpa [depth, level] using h
  | cons u us ih =>
    simp only [depth] at h
    simp only [level]
    split
    · rw [if_pos ‹_›] at h
      exact ih h
    · rw [if_neg ‹_›] at h
      split
      · rw [if_pos ‹_›] at h
        cases d with
        | zero => simp at h
        | succ d => exact ih h
      · rw [if_neg ‹_›] at h
        exact ih h

theorem depth_isSome_of_append {d : Nat} {l₁ l₂ : List Token} (h : (depth d (l₁ ++ l₂)).isSome) :
    (depth d l₁).isSome := by
  rw [depth_append] at h
  cases hd : depth d l₁ with
  | none => simp [hd] at h
  | some n => rfl

theorem depth_succ {d n : Nat} {l : List Token} (h : depth d l = some n) :
    depth (d + 1) l = some (n + 1) := by
  induction l generalizing d with
  | nil => simpa [depth] using h
  | cons u us ih =>
    simp only [depth] at h ⊢
    split
    · rw [if_pos ‹_›] at h
      exact ih h
    · rw [if_neg ‹_›] at h
      split
      · rw [if_pos ‹_›] at h
        cases d with
        | zero => simp at h
        | succ d => exact ih h
      · rw [if_neg ‹_›] at h
        exact ih h

/-- Inside a group, the kept levels stay nonzero exactly as long as the group is not closed:
read from one level above `d`, no level is zero exactly when the depth from `d` is defined. -/
theorem levels_succ_ne_zero (d : Nat) (l : List Token) :
    (∀ x ∈ levels (d + 1) l, x ≠ 0) ↔ (depth d l).isSome := by
  induction l generalizing d with
  | nil => simp [levels, depth]
  | cons u us ih =>
    simp only [levels, depth]
    split
    · simp [ih]
    · split
      · cases d with
        | zero => simp
        | succ d => simp [ih]
      · simp [ih]

theorem depth_of_balanced {l : List Token} (h : Balanced l) (d : Nat) : depth d l = some d := by
  induction d with
  | zero => exact h
  | succ d ih => exact depth_succ ih

theorem levels_concat {u : Token} (hu : u.isCat .endGroup = false) (d : Nat) (l : List Token) :
    levels d (l ++ [u]) = levels d l ++ [level d l] := by
  rw [levels_append]
  simp only [levels, hu, Bool.false_eq_true, if_false]
  split <;> rfl

theorem level_concat (d : Nat) (l : List Token) (u : Token) :
    level d (l ++ [u]) =
      if u.isCat .beginGroup then level d l + 1
      else if u.isCat .endGroup then level d l - 1 else level d l := by
  induction l generalizing d with
  | nil => simp only [List.nil_append, level]
  | cons v vs ih =>
    simp only [List.cons_append, level]
    split
    · exact ih _
    · split <;> exact ih _

theorem levels_concat_close {u : Token} (hu : u.isCat .endGroup = true) (d : Nat)
    (l : List Token) : levels d (l ++ [u]) = levels d l ++ [level d l - 1] := by
  rw [levels_append]
  simp [levels, hu, isCat_of_isCat (b := .beginGroup) (by decide) hu]

/-! ### Delimiters -/

/-- A brace-free list keeps the level it is read at. -/
theorem BraceFree.levels {L : List Token} (h : BraceFree L) (d : Nat) :
    levels d L = List.replicate L.length d ∧ level d L = d ∧ depth d L = some d := by
  induction L with
  | nil => simp [Braces.levels, level, depth]
  | cons u us ih =>
    obtain ⟨hb, he⟩ := h u List.mem_cons_self
    obtain ⟨hl, hlev, hdep⟩ := ih fun v hv => h v (List.mem_cons_of_mem _ hv)
    simp [Braces.levels, level, depth, hb, he, hl, hlev, hdep, List.replicate_succ]

/-- Each token of a delimiter is kept at the level the delimiter starts at, and reading it
closes no group. -/
theorem Delimiter.levels {L : List Token} (h : Delimiter L) (d : Nat) :
    levels d L = List.replicate L.length d ∧ (depth d L).isSome := by
  obtain ⟨-, hfree | ⟨L', b, rfl, hfree, hb⟩⟩ := h
  · obtain ⟨hl, -, hdep⟩ := hfree.levels d
    simp [hl, hdep]
  · obtain ⟨hl, hlev, hdep⟩ := hfree.levels d
    simp [levels_append, depth_append, hl, hlev, hdep, Braces.levels, depth, hb,
      List.replicate_succ']

theorem Delimiter.getLast_not_close {L : List Token} (h : Delimiter L) :
    ∃ u, L.getLast? = some u ∧ u.isCat .endGroup = false := by
  obtain ⟨hne, hfree | ⟨L', b, rfl, -, hb⟩⟩ := h
  · obtain ⟨u, hu⟩ := List.getLast?_isSome.mpr hne |> Option.isSome_iff_exists.mp
    exact ⟨u, hu, (hfree u (List.mem_of_getLast? hu)).2⟩
  · exact ⟨b, by simp, isCat_of_isCat (by decide) hb⟩

theorem Delimiter.dropLast {L : List Token} (h : Delimiter L) : BraceFree L.dropLast := by
  obtain ⟨-, hfree | ⟨L', b, rfl, hfree, -⟩⟩ := h
  · exact fun u hu => hfree u (List.dropLast_subset _ hu)
  · simpa using hfree

/-- `endsWithDelimiter` asks that the tokens read end with the delimiter, each of its tokens
kept at level zero. -/
theorem endsWithDelimiter_iff {P L : List Token} {lv : List Nat} (hlen : lv.length = P.length) :
    EngineM.endsWithDelimiter P.toArray lv.toArray L = true ↔
      ∃ Q, P = Q ++ L ∧ ∀ x ∈ lv.drop Q.length, x = 0 := by
  simp only [EngineM.endsWithDelimiter, List.size_toArray, Bool.and_eq_true, decide_eq_true_eq,
    List.all_eq_true, List.mem_range, beq_iff_eq, List.getElem?_toArray]
  constructor
  · rintro ⟨hk, hall⟩
    have hdrop : P.drop (P.length - L.length) = L := by
      apply List.ext_getElem?
      intro i
      rw [List.getElem?_drop]
      by_cases hi : i < L.length
      · exact (hall i hi).1
      · rw [List.getElem?_eq_none (by omega), List.getElem?_eq_none (by omega)]
    refine ⟨P.take (P.length - L.length), ?_, ?_⟩
    · conv_lhs => rw [← List.take_append_drop (P.length - L.length) P, hdrop]
    · intro x hx
      rw [List.length_take, Nat.min_eq_left (by omega)] at hx
      obtain ⟨i, hi, hxi⟩ := List.getElem_of_mem hx
      have h0 := (hall i (by simp at hi; omega)).2
      rw [← List.getElem?_drop, List.getElem?_eq_getElem hi, hxi] at h0
      exact Option.some.inj h0
  · rintro ⟨Q, rfl, hzero⟩
    simp only [List.length_append, Nat.add_sub_cancel]
    refine ⟨by omega, fun i hi => ⟨?_, ?_⟩⟩
    · rw [List.getElem?_append_right (by omega), Nat.add_sub_cancel_left]
    · have hi' : i < (lv.drop Q.length).length := by simp [hlen]; omega
      rw [← List.getElem?_drop, List.getElem?_eq_getElem hi', hzero _ (List.getElem_mem hi')]

/-- The test `delimited` makes after reading `k + 1` tokens of `a ++ L`: at level zero, the
tokens read end with `L`, each kept at level zero. -/
def DelimiterTest (a L : List Token) (k : Nat) : Prop :=
  level 0 ((a ++ L).take k) = 0 ∧
    EngineM.endsWithDelimiter ((a ++ L).take (k + 1)).toArray
      (levels 0 ((a ++ L).take k) ++ [level 0 ((a ++ L).take k)]).toArray L = true

/-- Reading `a ++ L` token by token, `delimited` finds its delimiter exactly after the last
token: the test passes after `k + 1` tokens exactly when they are all of `a ++ L`. -/
theorem delimiterTest_iff {a L : List Token} (hL : Delimiter L) (ha : Balanced a)
    (hfirst : FirstAfter a L) {k : Nat} (hk : k < (a ++ L).length) :
    DelimiterTest a L k ↔ k + 1 = (a ++ L).length := by
  obtain ⟨z, hz, hzclose⟩ := hL.getLast_not_close
  have hLne : L ≠ [] := hL.1
  obtain ⟨L₀, hL₀⟩ : ∃ L₀, L = L₀ ++ [z] :=
    ⟨L.dropLast, (List.dropLast_append_getLast? z hz).symm⟩
  have hlenAL : (a ++ L).length = a.length + L.length := List.length_append
  have hsucc : (a ++ L).take (k + 1) = (a ++ L).take k ++ [(a ++ L)[k]] :=
    (List.take_concat_get' _ _ hk).symm
  constructor
  · rintro ⟨-, htest⟩
    have hlv : (levels 0 ((a ++ L).take k) ++ [level 0 ((a ++ L).take k)]).length =
        ((a ++ L).take (k + 1)).length := by
      simp only [List.length_append, length_levels, List.length_take, List.length_singleton]
      omega
    rw [endsWithDelimiter_iff hlv] at htest
    obtain ⟨Q, hQ, hzero⟩ := htest
    have hlast : (a ++ L)[k] = z := by
      have h := congrArg List.getLast? hQ
      rw [hsucc, List.getLast?_append, List.getLast?_append, hz] at h
      simpa using h
    rw [← levels_concat (hlast ▸ hzclose), ← hsucc, hQ, levels_append, (hL.levels _).1,
      List.drop_left' (length_levels _ _)] at hzero
    have hlevel : level 0 Q = 0 := by
      obtain ⟨x, hx⟩ := List.exists_mem_of_ne_nil L hLne
      exact hzero _ (List.mem_replicate.mpr ⟨List.length_pos_of_mem hx |>.ne', rfl⟩)
    have hprefix : Q ++ L <+: a ++ L := hQ ▸ List.take_prefix _ _
    have hall : (depth 0 (a ++ L)).isSome := by
      rw [depth_append, ha]
      exact (hL.levels 0).2
    obtain ⟨rest, hrest⟩ := hprefix
    have hQsome : (depth 0 Q).isSome := by
      rw [← hrest, List.append_assoc] at hall
      exact depth_isSome_of_append hall
    obtain ⟨m, hm⟩ := Option.isSome_iff_exists.mp hQsome
    have hbal : Balanced Q := by
      rw [Balanced, hm, ← level_eq_of_depth hm, hlevel]
    have hlenQ : Q.length + L.length = k + 1 := by
      have h := congrArg List.length hQ
      simp only [List.length_take, List.length_append] at h
      omega
    by_contra hne
    have hshort : Q.length < a.length := by omega
    refine hfirst Q.length hshort ?_ ?_
    · rwa [← hrest, List.append_assoc, List.take_left]
    · rw [← hrest, List.append_assoc, List.drop_left]
      exact List.prefix_append _ _
  · intro hend
    have htake : (a ++ L).take (k + 1) = a ++ L := List.take_of_length_le (by omega)
    have hbefore : (a ++ L).take k = a ++ L₀ := by
      have hk' : k = (a ++ L₀).length := by
        simp only [hL₀, List.length_append] at hend ⊢
        simp at hend
        omega
      rw [hL₀, ← List.append_assoc, List.take_left' hk'.symm]
    have hfree : BraceFree L₀ := by simpa [hL₀] using hL.dropLast
    obtain ⟨hlv, hlev, -⟩ := hfree.levels 0
    have ha0 : level 0 a = 0 := level_eq_of_depth ha
    refine ⟨by rw [hbefore, level_append, ha0, hlev], ?_⟩
    rw [htake, hbefore, endsWithDelimiter_iff (by simp [length_levels, hL₀]; omega)]
    refine ⟨a, rfl, fun x hx => ?_⟩
    rw [levels_append, ha0, hlv, level_append, ha0, hlev, List.append_assoc,
      List.drop_left' (length_levels _ _)] at hx
    simp only [List.mem_append, List.mem_replicate, List.mem_singleton] at hx
    rcases hx with ⟨-, hx⟩ | hx <;> exact hx

/-- `delimiterTest_iff` along a split of `a ++ L`: after reading `pre` and then `v`, the test
passes exactly when nothing of `a ++ L` is left. -/
theorem delimiter_found_iff {a L pre post : List Token} {v : Token} (hL : Delimiter L)
    (ha : Balanced a) (hfirst : FirstAfter a L) (h : a ++ L = pre ++ v :: post) :
    (level 0 pre = 0 ∧ EngineM.endsWithDelimiter (pre ++ [v]).toArray
      (levels 0 pre ++ [level 0 pre]).toArray L = true) ↔ post = [] := by
  have hlen : pre.length < (a ++ L).length := by rw [h]; simp
  have htake : (pre ++ v :: post).take (pre.length + 1) = pre ++ [v] := by
    rw [List.take_append, List.take_of_length_le (by omega), Nat.add_sub_cancel_left]
    rfl
  have htest := delimiterTest_iff hL ha hfirst hlen
  rw [DelimiterTest, h, List.take_left, htake] at htest
  rw [htest]
  simp

theorem depth_isSome_of_split {a L pre post : List Token} (hL : Delimiter L) (ha : Balanced a)
    (h : a ++ L = pre ++ post) : (depth 0 pre).isSome := by
  have hall : (depth 0 (a ++ L)).isSome := by
    rw [depth_append, ha]
    exact (hL.levels 0).2
  rw [h] at hall
  exact depth_isSome_of_append hall

/-- Once the delimiter is read, cutting it off the tokens and the levels read leaves `a` and
the levels of `a`. -/
theorem found_take {a L pre : List Token} {v : Token} (hL : Delimiter L)
    (h : a ++ L = pre ++ [v]) :
    (pre ++ [v]).take ((pre ++ [v]).length - L.length) = a ∧
      (levels 0 pre ++ [level 0 pre]).take ((pre ++ [v]).length - L.length) = levels 0 a := by
  obtain ⟨z, hz, hzclose⟩ := hL.getLast_not_close
  have hv : v = z := by
    have hlast := congrArg List.getLast? h
    rw [List.getLast?_append, hz, List.getLast?_concat] at hlast
    simpa using hlast.symm
  subst hv
  rw [← levels_concat hzclose, ← h, levels_append]
  constructor
  · simp
  · rw [List.length_append, Nat.add_sub_cancel, List.take_left' (length_levels _ _)]

/-! ### Reading inside a group -/

theorem level_ne_zero_of_close {P : List Token} {u : Token} (hu : u.isCat .endGroup = true)
    (h : (depth 0 (P ++ [u])).isSome) : level 0 P ≠ 0 := by
  obtain ⟨m, hm⟩ := Option.isSome_iff_exists.mp (depth_isSome_of_append h)
  rw [depth_append, hm] at h
  rw [level_eq_of_depth hm]
  rintro rfl
  simp [depth, hu, isCat_of_isCat (b := .beginGroup) (by decide) hu] at h

/-- Reading `a ++ L` from level zero, an end-group character never comes at level zero. -/
theorem level_ne_zero_at_close {a L pre post : List Token} {u : Token} (hL : Delimiter L)
    (ha : Balanced a) (h : a ++ L = pre ++ u :: post) (hu : u.isCat .endGroup = true) :
    level 0 pre ≠ 0 :=
  level_ne_zero_of_close hu (depth_isSome_of_split hL ha (h.trans (List.append_cons pre u post)))

theorem level_ne_zero_of_prefix {c p q : List Token} (hc : Balanced c) (h : c = p ++ q) :
    level 1 p ≠ 0 := by
  have hp : (depth 0 p).isSome := depth_isSome_of_append (by rw [← h, hc]; rfl)
  obtain ⟨m, hm⟩ := Option.isSome_iff_exists.mp hp
  rw [level_eq_of_depth (depth_succ hm)]
  omega

/-! ### Taking off the braces of a group -/

theorem strip_group {b r : Token} {c : List Token} (hb : b.isCat .beginGroup = true)
    (hr : r.isCat .endGroup = true) (hc : Balanced c) : strip (b :: (c ++ [r])) = c := by
  have hlast : (b :: (c ++ [r])).getLast? = some r := by
    rw [← List.cons_append, List.getLast?_concat]
  have hinner : ((b :: (c ++ [r])).drop 1).dropLast = c := by simp
  rw [strip, if_pos ⟨by simp, by simp [hb], by simp [hlast, hr], by rw [hinner]; exact hc⟩, hinner]

theorem strip_single (u : Token) : strip [u] = [u] := by
  simp [strip]

/-- `delimited`'s test for one group enclosing the whole argument, made on the levels it kept
(none zero between the first and the last token), is the test of `strip`. -/
theorem strip_test_iff {a : List Token} (ha : Balanced a) :
    (2 ≤ a.length ∧ (a[0]?.map (·.isCat .beginGroup)) = some true ∧
      (a[a.length - 1]?.map (·.isCat .endGroup)) = some true ∧
      ((levels 0 a).toArray.extract 1 (a.length - 1)).all (· ≠ 0) = true) ↔
    (2 ≤ a.length ∧ (a.head?.map (·.isCat .beginGroup)) = some true ∧
      (a.getLast?.map (·.isCat .endGroup)) = some true ∧ Balanced (a.drop 1).dropLast) := by
  rw [List.head?_eq_getElem?, List.getLast?_eq_getElem?]
  refine and_congr_right fun hlen => and_congr_right fun hb => and_congr_right fun hr => ?_
  obtain ⟨b, c, r, rfl⟩ : ∃ b c r, a = b :: (c ++ [r]) := by
    match a, hlen with
    | b :: rest, h =>
      exact ⟨b, rest.dropLast, rest.getLast (by rintro rfl; simp at h),
        by rw [List.dropLast_append_getLast]⟩
  have hb' : b.isCat .beginGroup = true := by simpa using hb
  have hr' : r.isCat .endGroup = true := by simpa using hr
  have hin : ((levels 0 (b :: (c ++ [r]))).toArray.extract 1
      ((b :: (c ++ [r])).length - 1)).all (· ≠ 0) = true ↔ ∀ x ∈ levels 1 c, x ≠ 0 := by
    simp [levels, hb', levels_append, List.take_left' (length_levels 1 c)]
  -- the braces of the argument match, so `c` is balanced as soon as its depth is defined
  have hbal : Balanced c ↔ (depth 0 c).isSome := by
    refine ⟨fun h => by rw [h]; rfl, fun h => ?_⟩
    obtain ⟨m, hm⟩ := Option.isSome_iff_exists.mp h
    have h1 : depth 0 (b :: (c ++ [r])) = some m := by
      simp [depth, hb', depth_append, depth_succ hm, hr',
        isCat_of_isCat (b := .beginGroup) (by decide) hr']
    rw [Balanced, h1] at ha
    rw [Balanced, hm, ha]
  rw [hin, levels_succ_ne_zero, ← hbal]
  simp

/-! ### Arguments -/

/-- `l` holds no `\par`, or the macro is long. -/
def ParFree (long : Bool) (l : List Token) : Prop := long = true ∨ EngineM.parToken ∉ l

instance (long : Bool) (l : List Token) : Decidable (ParFree long l) :=
  inferInstanceAs (Decidable (_ ∨ _))

/-- What an undelimited parameter takes whole: one token that is no blank and no brace, or a
braced group whose inside is balanced. -/
def Undelimited (a : List Token) : Prop :=
  (∃ u, a = [u] ∧ u.isCat .space = false ∧ u.isCat .beginGroup = false ∧
      u.isCat .endGroup = false) ∨
    ∃ b c r, a = b :: (c ++ [r]) ∧ b.isCat .beginGroup = true ∧ r.isCat .endGroup = true ∧
      Balanced c

/-- `a` is an argument that a parameter delimited by `L` (undelimited when `L` is empty) takes
whole from `a ++ L`: no `\par` in either unless the macro is long; for an undelimited
parameter one token or a group, for a delimited one a balanced list after which `L` comes
first. -/
structure Argument (long : Bool) (a L : List Token) : Prop where
  par : ParFree long (a ++ L)
  shape : L = [] ∧ Undelimited a ∨ Delimiter L ∧ Balanced a ∧ FirstAfter a L

end Braces

/-! ### Parameter texts and their instances -/

/-- Parameters `#k`, `#(k+1)`, …, each followed by the literal tokens that delimit it. -/
def paramsFrom : Nat → List (List Token) → List MacroElem
  | _, [] => []
  | k, L :: Ls => .param k :: L.map .tok ++ paramsFrom (k + 1) Ls

/-- The parameter text `L₀ #1 L₁ … #n Ln`. -/
def paramText (L₀ : List Token) (Ls : List (List Token)) : List MacroElem :=
  L₀.map .tok ++ paramsFrom 1 Ls

/-- The text a use of a macro consumes: the literal tokens `L₀`, then each argument followed by
the tokens that delimit it. -/
def instanceOf (L₀ : List Token) (parts : List (List Token × List Token)) : List Token :=
  L₀ ++ parts.flatMap fun p => p.1 ++ p.2

namespace EngineM

theorem splitParams_toks (L : List Token) (rest : List MacroElem) :
    splitParams (L.map .tok ++ rest) = L.map .inl ++ splitParams rest := by
  induction L with
  | nil => rfl
  | cons t L ih =>
    rw [List.map_cons, List.cons_append, splitParams, ih]
    rfl

theorem takeWhile_delimiter {p : MacroElem → Bool} (hp : ∀ t, p (.tok t) = true)
    (hq : ∀ n, p (.param n) = false) (L : List Token) (k : Nat) (Ls : List (List Token)) :
    (L.map MacroElem.tok ++ paramsFrom k Ls).takeWhile p = L.map .tok := by
  rw [List.takeWhile_append_of_pos (by simp [hp])]
  cases Ls with
  | nil => simp [paramsFrom]
  | cons L' Ls => simp [paramsFrom, hq]

theorem filterMap_toks {f : MacroElem → Option Token} (hf : ∀ t, f (.tok t) = some t)
    (L : List Token) : (L.map .tok).filterMap f = L := by
  induction L with
  | nil => rfl
  | cons t L ih => simp [hf, ih]

theorem splitParams_paramsFrom (k : Nat) (Ls : List (List Token)) :
    splitParams (paramsFrom k Ls) = Ls.map .inr := by
  induction Ls generalizing k with
  | nil => simp [paramsFrom, splitParams]
  | cons L Ls ih =>
    -- the predicate and the projection of `splitParams` are given by their values on tokens
    -- and parameters, so no matcher of the definition is named here
    rw [paramsFrom, List.cons_append, splitParams,
      takeWhile_delimiter (fun _ => rfl) (fun _ => rfl), filterMap_toks (fun _ => rfl),
      List.length_map, List.drop_left' (List.length_map _), ih]
    rfl

/-- The parameter text `L₀ #1 L₁ … #n Ln` is matched as the literal tokens of `L₀`, then one
parameter for each `Li`, delimited by it. -/
theorem splitParams_paramText (L₀ : List Token) (Ls : List (List Token)) :
    splitParams (paramText L₀ Ls) = L₀.map .inl ++ Ls.map .inr := by
  rw [paramText, splitParams_toks, splitParams_paramsFrom]

end EngineM

end Galley
