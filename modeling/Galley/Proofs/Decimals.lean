import Mathlib
import Galley.Proofs.SpaceFactor
import Galley.Proofs.FractionDigits

/-!
# Reading a decimal constant

The text of a dimension is a decimal constant: digits, a point and fraction digits, all
characters of category other. `scanDecimal` reads its whole part with the digit loop of
integers (`DigitLoopInv`) and its fraction with a second loop that collects the digits;
`EngineM.scanDecimal_reads` says that on such text it returns the value of the digits and
the rounding of the fraction, and leaves the engine at the token after them.
-/

namespace Galley

open Std.Do

set_option mvcgen.warning false

/-! ### The tokens of a dimension's text -/

/-- The token of a decimal digit, as text gives it: a character of category other. -/
def numeral (d : Nat) : Token := .char (48 + d) .other

theorem Scaled.digitChar_eq {d : Nat} (hd : d < 10) : Scaled.digitChar d = Nat.digitChar d := by
  rw [Scaled.digitChar, ← Nat.toNat_digitChar_of_lt_ten hd, Char.ofNat_toNat]

theorem Token.ofText_char_digitChar {d : Nat} (hd : d < 10) :
    (if Scaled.digitChar d = ' ' then Token.space else .char (Scaled.digitChar d).toNat .other) =
      numeral d := by
  have hcode : (Scaled.digitChar d).toNat = 48 + d := by
    rw [Scaled.digitChar_eq hd, Nat.toNat_digitChar_of_lt_ten hd]
  have hne : Scaled.digitChar d ≠ ' ' := by
    intro h
    have := congrArg Char.toNat h
    rw [hcode] at this
    simp at this
    omega
  rw [if_neg hne, hcode, numeral]

theorem Token.ofText_digits {ds : List Nat} (hds : ∀ d ∈ ds, d < 10) :
    Token.ofText (String.ofList (ds.map Scaled.digitChar)) = ds.map numeral := by
  simp only [Token.ofText, String.toList_ofList, List.map_map]
  apply List.map_congr_left
  intro d hd
  exact Token.ofText_char_digitChar (hds d hd)

/-- The decimal digits of a natural number, as `toString` writes them. -/
theorem toDigits_ten_eq (n : Nat) :
    ∃ ds : List Nat, Nat.toDigits 10 n = ds.map Scaled.digitChar ∧ ds ≠ [] ∧
      (∀ d ∈ ds, d < 10) ∧ Scaled.digitsValue ds = n ∧ ds.length ≤ n + 1 := by
  induction n using Nat.strong_induction_on with
  | _ n ih =>
    rw [Nat.toDigits_eq_if (by norm_num)]
    split
    · exact ⟨[n], by simp [Scaled.digitChar_eq ‹n < 10›], by simp, by simpa,
        by simp [Scaled.digitsValue], by simp⟩
    · obtain ⟨ds, hds, hne, hdig, hval, hlen⟩ := ih (n / 10) (by omega)
      refine ⟨ds ++ [n % 10], ?_, by simp, ?_, ?_, by simp; omega⟩
      · simp [hds, Scaled.digitChar_eq (Nat.mod_lt n (by norm_num : 10 > 0))]
      · intro d hd
        rcases List.mem_append.1 hd with hd | hd
        · exact hdig d hd
        · simp at hd
          omega
      · simp only [Scaled.digitsValue, List.reverse_append, List.reverse_singleton,
          List.singleton_append, Nat.ofDigits_cons] at hval ⊢
        rw [hval]
        omega

/-! ### Reading a decimal constant -/

theorem numeral_digit {d : Nat} (hd : d < 10) : Radix.decimal.Digit (numeral d) d :=
  .numeral hd (by simp [Radix.base]; omega)

theorem Numeral.value_decimal (ds : List Nat) :
    (Numeral.digits .decimal (ds.map fun d => (numeral d, d))).value = Scaled.digitsValue ds := by
  simp [Numeral.value, Radix.base, Scaled.digitsValue, Function.comp_def]

theorem Radix.decimal_digit_iff {u : Token} {d : Nat} :
    Radix.decimal.Digit u d ↔ d < 10 ∧ u = numeral d := by
  constructor
  · intro h
    cases h with
    | numeral h10 _ => exact ⟨h10, rfl⟩
  · rintro ⟨h10, rfl⟩
    exact numeral_digit h10

theorem not_digit_point (k : Nat) : ¬ Radix.decimal.Digit (.char 46 .other) k := by
  rw [Radix.decimal_digit_iff]
  rintro ⟨-, h⟩
  simp only [numeral, Token.char.injEq] at h
  omega

/-- After `k` fraction digits of `fs`, which `tail` follows: their values collected in `acc`,
and the engine reading the rest. -/
def FractionRead (e : Engine) (fs : List Nat) (tail : List Token) (cs : List Cond) (k : Nat)
    (acc : Array Int32) (x : Engine) : Prop :=
  acc.toList = (fs.take k).map Int32.ofNat ∧ k ≤ fs.length ∧
    x.Reads e ((fs.drop k).map numeral ++ tail) cs

namespace FractionRead

variable {e x : Engine} {fs : List Nat} {tail : List Token} {cs : List Cond} {k : Nat}
  {acc : Array Int32} {c : Cmd} {d : Nat}

theorem plainAhead (hp : e.PlainAhead tail) (hk : k ≤ fs.length) :
    e.PlainAhead ((fs.drop k).map numeral ++ tail) := by
  rcases Nat.lt_or_eq_of_le hk with hlt | rfl
  · rw [List.drop_eq_getElem_cons hlt]
    exact e.plain_char (by simp)
  · simpa using hp

theorem readPlain (hp : e.PlainAhead tail)
    (h : FractionRead e fs tail cs k acc x) :
    x.ReadsPlainly ∧ x.nextCmd? = ((fs.drop k).map numeral ++ tail).head?.map e.cmd ∧
      x.dropPending.Reads e ((fs.drop k).map numeral ++ tail).tail cs :=
  h.2.2.readPlain (plainAhead hp h.2.1)

/-- A digit read is the next fraction digit: it is collected. -/
theorem digit (hp : e.PlainAhead tail)
    (hstop : ∀ t ∈ tail.head?, ∀ d, ¬ Radix.decimal.Digit t d)
    (h : FractionRead e fs tail cs k acc x) (hc : x.nextCmd? = some c) (hd : c.digit? 10 = some d) :
    FractionRead e fs tail cs (k + 1) (acc.push (Int32.ofNat d)) x.dropPending := by
  obtain ⟨hacc, hk, hx⟩ := h
  obtain ⟨-, hcmd, hdrop⟩ := readPlain hp ⟨hacc, hk, hx⟩
  rw [hc] at hcmd
  rcases Nat.lt_or_eq_of_le hk with hlt | rfl
  · have hsplit : (fs.drop k).map numeral ++ tail =
        numeral fs[k] :: ((fs.drop (k + 1)).map numeral ++ tail) := by
      rw [List.drop_eq_getElem_cons hlt]
      rfl
    rw [hsplit] at hcmd hdrop
    simp only [List.head?_cons, Option.map_some, Option.some_inj] at hcmd
    subst hcmd
    obtain ⟨-, hnum⟩ := Radix.decimal_digit_iff.1 ((Radix.digit?_cmd (r := .decimal) e).1 hd)
    have hval : d = fs[k] := by
      simp only [numeral, Token.char.injEq] at hnum
      omega
    subst hval
    refine ⟨?_, hlt, hdrop⟩
    rw [Array.toList_push, hacc, List.take_add_one, List.getElem?_eq_getElem hlt,
      Option.toList_some, List.map_append]
    rfl
  · simp only [List.drop_length, List.map_nil, List.nil_append] at hcmd
    obtain ⟨t, ht, rfl⟩ := Option.map_eq_some_iff.1 hcmd.symm
    exact absurd ((Radix.digit?_cmd e).1 hd) (hstop t ht d)

/-- A command that is no digit, or the end of the text, comes after all the fraction digits. -/
theorem stop (hfs : ∀ d ∈ fs, d < 10) (hp : e.PlainAhead tail)
    (h : FractionRead e fs tail cs k acc x)
    (hc : ∀ c, x.nextCmd? = some c → c.digit? 10 = none) :
    acc.toList = fs.map Int32.ofNat ∧ x.nextCmd? = tail.head?.map e.cmd ∧
      x.dropPending.Reads e tail.tail cs := by
  obtain ⟨hacc, hk, hx⟩ := h
  obtain ⟨-, hcmd, hdrop⟩ := readPlain hp ⟨hacc, hk, hx⟩
  rcases Nat.lt_or_eq_of_le hk with hlt | rfl
  · rw [List.drop_eq_getElem_cons hlt] at hcmd
    simp only [List.map_cons, List.cons_append, List.head?_cons, Option.map_some] at hcmd
    have hdig : (e.cmd (numeral fs[k])).digit? 10 = some fs[k] :=
      (Radix.digit?_cmd (r := .decimal) e).2 (numeral_digit (hfs _ (List.getElem_mem hlt)))
    rw [hc _ hcmd] at hdig
    exact absurd hdig (by simp)
  · simp only [List.drop_length, List.map_nil, List.nil_append, List.take_length] at hcmd hdrop hacc
    exact ⟨hacc, hcmd, hdrop⟩

end FractionRead

/-- The invariant of the fraction loop after `k` rounds, with the rounds `suffix` left: as many
digits read as rounds, or all of them and the token after them once the loop is left. -/
def FractionLoopInv (e : Engine) (fs : List Nat) (tail : List Token) (cs : List Cond)
    (k : Nat) (suffix : List Nat) (st : Option Cmd × Array Int32) (x : Engine) : Prop :=
  FractionRead e fs tail cs k st.2 x ∨
    (suffix = [] ∧ st.2.toList = fs.map Int32.ofNat ∧ st.1 = tail.head?.map e.cmd ∧
      x.Reads e tail.tail cs)

theorem FractionLoopInv.finish {e x : Engine} {fs : List Nat} {tail : List Token}
    {cs : List Cond} {K : Nat} {st : Option Cmd × Array Int32}
    (h : FractionLoopInv e fs tail cs K [] st x) (hK : fs.length < K) :
    st.2.toList = fs.map Int32.ofNat ∧ st.1 = tail.head?.map e.cmd ∧ x.Reads e tail.tail cs := by
  rcases h with ⟨-, hk, -⟩ | ⟨-, h⟩
  · omega
  · exact h

namespace EngineM

/-- A decimal constant with a point: digits `d :: ds`, the point, fraction digits `fs` and a
token `u` that is no digit. `scanDecimal` returns the value of the digits and the rounding of
the fraction, and leaves `u` to be read next unless it is a space. -/
theorem scanDecimal_reads (e : Engine) (m : Nat) (d : Nat) (ds fs : List Nat) (u : Token)
    (rest : List Token) (cs : List Cond)
    (hdigits : ∀ x ∈ d :: ds, x < 10) (hfs : ∀ x ∈ fs, x < 10)
    (hfit : Scaled.digitsValue (d :: ds) ≤ 2147483647)
    (hu : e.Plain u) (hstop : ∀ k, ¬ Radix.decimal.Digit u k)
    (hlen : ds.length + fs.length < 999999999) :
    ⦃fun x => ⌜x.Reads e (ds.map numeral ++ .char 46 .other :: (fs.map numeral ++ u :: rest)) cs⌝⦄
    scanDecimal (m + 2) (e.cmd (numeral d))
    ⦃⇓ r x => ⌜r = (Int32.ofNat (Scaled.digitsValue (d :: ds)),
        Scaled.roundDecimals (fs.map Int32.ofNat)) ∧ x.ReadsAfterNumber e (u :: rest) cs⌝⦄ := by
  have hW : ∀ p ∈ (d :: ds).map (fun x => (numeral x, x)), Radix.decimal.Digit p.1 p.2 := by
    simp only [List.mem_map]
    rintro _ ⟨x, hx, rfl⟩
    exact numeral_digit (hdigits x hx)
  have hWtoks :
      ((d :: ds).map fun x => (numeral x, x)).map Prod.fst = numeral d :: ds.map numeral := by
    simp [Function.comp_def]
  have hval := Numeral.value_decimal (d :: ds)
  have hstopR : ∀ t ∈ (Token.char 46 .other :: fs.map numeral ++ u :: rest).head?,
      ∀ k, ¬ Radix.decimal.Digit t k := by
    simpa using not_digit_point
  have hpR : e.PlainAhead (Token.char 46 .other :: fs.map numeral ++ u :: rest) :=
    e.plain_char (by simp)
  have hstopT : ∀ t ∈ (u :: rest).head?, ∀ k, ¬ Radix.decimal.Digit t k := by
    simpa using hstop
  have hpT : e.PlainAhead (u :: rest) := hu
  have hpoint : (e.cmd (.char 46 .other)).isOther 46 = true := by simp [e.cmd_isOther]
  rw [scanDecimal]
  -- the whole part goes through the digit loop of integers, whose state `(cur, acc, digits)`
  -- is kept here as `(acc, digits, cur)`; the second loop collects the fraction digits
  mvcgen [getX_plain, backCmd_wp, -getX_keeps, -forIn_range_keeps, -missingNumber_keeps,
    -notNumber_keeps, -fail_keeps, -backCmd_keeps, -back_keeps] invariants
  | inv1 => ⇓p x => ⌜DigitLoopInv e .decimal ((d :: ds).map fun x => (numeral x, x))
      (.char 46 .other :: fs.map numeral ++ u :: rest) cs p.fst.prefix.length p.fst.suffix
      (p.snd.2.2, p.snd.1, p.snd.2.1) x⌝
  | inv2 => ⇓p x => ⌜FractionLoopInv e fs (u :: rest) cs p.fst.prefix.length p.fst.suffix p.snd x⌝
  case vc1 =>
    rename_i b _ _ _ _ hc x h
    rw [← show b.2.2 = none from hc]
    exact h.stop_none hW hc _
  case vc2 =>
    rename_i b _ _ _ _ c hc hd x h
    rw [← show b.2.2 = some c from hc]
    exact h.stop_some hW hc hd rfl _
  case vc3 =>
    rename_i hc _ hd _ _ _ hbig _ h
    have := h.overflow hW hstopR hc hd hbig rfl
    omega
  case vc4 =>
    rename_i hc _ hd _ _ _ hsmall _ h
    obtain ⟨hpl, hn⟩ := h.next hW hstopR hpR hc hd hsmall rfl
    refine ⟨hpl, ?_⟩
    simp only [List.length_append, List.length_singleton]
    exact hn
  case vc5 =>
    rename_i x hx
    refine ⟨DigitsRead.start_first ?_ (by rw [hWtoks]; rfl), .inl rfl⟩
    rw [hWtoks]
    exact hx
  case vc6 =>
    rename_i h
    rcases h with h | ⟨hnil, -⟩
    · obtain ⟨hpl, -⟩ := h.readPlain hpT
      refine ⟨hpl, ?_⟩
      split
      · rename_i hnone
        have hend := h.stop hfs hpT (fun c hc => by rw [hnone] at hc; cases hc)
        exact .inr ⟨rfl, hend.1, hend.2.1, hend.2.2⟩
      · rename_i c hc
        split
        · rename_i hd
          have hend := h.stop hfs hpT (fun c' hc' => by
            rw [hc, Option.some_inj] at hc'
            rw [← hc']
            exact hd)
          exact .inr ⟨rfl, hend.1, hend.2.1, hend.2.2⟩
        · rename_i k hd
          have hnext := h.digit hpT hstopT hc hd
          simp only [List.length_append, List.length_singleton]
          exact .inl hnext
    · exact absurd hnil (List.cons_ne_nil _ _)
  case vc7 =>
    rename_i c hc _ x h
    obtain ⟨-, -, -, -, hx⟩ := h.result (by simp; omega)
    refine .inl ⟨by simp, Nat.zero_le _, ?_⟩
    rw [List.length_nil, List.drop_zero]
    exact hx
  case vc11 =>
    obtain ⟨-, -, hacc, -, -⟩ := ‹DigitLoopInv _ _ _ _ _ _ _ _ _›.result (by simp; omega)
    obtain ⟨hds, hcur, hx⟩ := ‹FractionLoopInv _ _ _ _ _ _ _ _›.finish (by simp; omega)
    dsimp only at hacc
    refine ⟨by rw [hacc, hval, hds], ?_⟩
    rename_i c hc hsp _ _ 
    exact (hx.afterNumber_some (hcur.symm.trans hc)).2 hsp
  case vc10 =>
    obtain ⟨-, -, hacc, -, -⟩ := ‹DigitLoopInv _ _ _ _ _ _ _ _ _›.result (by simp; omega)
    obtain ⟨hds, hcur, hx⟩ := ‹FractionLoopInv _ _ _ _ _ _ _ _›.finish (by simp; omega)
    dsimp only at hacc
    refine ⟨by rw [hacc, hval, hds], ?_⟩
    rename_i c hc hsp _ _
    exact (hx.afterNumber_some (hcur.symm.trans hc)).1 hsp
  case vc12 =>
    obtain ⟨-, -, hacc, -, -⟩ := ‹DigitLoopInv _ _ _ _ _ _ _ _ _›.result (by simp; omega)
    obtain ⟨hds, hcur, hx⟩ := ‹FractionLoopInv _ _ _ _ _ _ _ _›.finish (by simp; omega)
    dsimp only at hacc
    refine ⟨by rw [hacc, hval, hds], ?_⟩
    rename_i hc _ _
    exact hx.afterNumber_none (hcur.symm.trans hc)
  case vc14 | vc15 | vc16 =>
    have hc : _ = some _ := ‹_ = some _›
    obtain ⟨-, -, -, hcur, -⟩ := ‹DigitLoopInv _ _ _ _ _ _ _ _ _›.result (by simp; omega)
    dsimp only at hcur
    have hpt := Option.some_inj.1 (hc.symm.trans hcur)
    exact absurd (.inl (hpt ▸ hpoint)) ‹¬(_ ∨ _)›
  case vc17 | vc18 =>
    have hc : _ = none := ‹_ = none›
    obtain ⟨-, -, -, hcur, -⟩ := ‹DigitLoopInv _ _ _ _ _ _ _ _ _›.result (by simp; omega)
    dsimp only at hcur
    exact absurd (hc.symm.trans hcur) (by simp)

end EngineM

end Galley
