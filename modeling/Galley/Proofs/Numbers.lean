import Mathlib
import Galley.Proofs.MacroCall

/-!
# Reading a number

`scanInt` reads TeX's `<number>`: blanks and signs, then digits in radix ten, or eight after
`'`, or sixteen after `"`, or an alphabetic constant, a backquote and one token. The grammar
is stated here on its own (`Token.IsSign`, `Radix.Digit`, `Numeral`), and
`scanInt_reads_number` says that on every input of that form the scan gives the denoted value,
negated for an odd number of minus signs, and reads exactly the number and a space after it;
or, when the value does not fit a word, fails with a syntax error.

The tokens of a number are plain: read by `getX`, none expands. `getX_eq_plain` states what
`getX` does on an engine whose next token is plain, as a program, so that `mvcgen` goes on with
the command read. The loops are read by invariants: the parity of the minus signs read so far
for the signs, and `DigitsRead` for the digits, whose value is checked against a word after
every digit. `Nat.ofDigits` gives the value of the digits, most significant first.
-/

namespace Galley

open Std.Do

set_option mvcgen.warning false

/-! ### Reading a command without expanding -/

/-- The command `getX` gives for token `u` read unfrozen and not expanded. -/
def Engine.cmd (e : Engine) (u : Token) : Cmd := ⟨u, e.meaning u, false⟩

/-- The command read next from `x` without expanding, if a pending token is there. -/
def Engine.nextCmd? (x : Engine) : Option Cmd :=
  x.pendingHead?.map fun p => x.cmd p.1

/-- `x` can be read by `getX` without expanding: its next pending token is unfrozen and
plain, or nothing is pending and there is no lexer. -/
def Engine.ReadsPlainly (x : Engine) : Prop :=
  (∃ u, x.pendingHead? = some (u, false) ∧ x.Plain u) ∨ (x.pendingHead? = none ∧ x.lexer = none)

@[simp] theorem Engine.meaning_dropPending (x : Engine) (t : Token) :
    x.dropPending.meaning t = x.meaning t := by
  apply Engine.meaning_congr
  unfold Engine.dropPending
  split
  · split <;> rfl
  · rfl

theorem Engine.dropPending_of_pendingHead_none {x : Engine} (h : x.pendingHead? = none) :
    x.dropPending = x := by
  unfold Engine.pendingHead? at h
  unfold Engine.dropPending
  split
  · rename_i s rest hs
    rw [hs] at h
    cases ht : s.toks with
    | nil => rfl
    | cons t ts => simp [ht] at h
  · rfl

theorem Engine.meaning_char (e : Engine) {c : Nat} {cat : Category} (h : cat ≠ .active) :
    e.meaning (.char c cat) = .charLet (.char c cat) := by
  cases cat <;> simp_all [Engine.meaning, EngineM.Token.hasMeaning]

theorem Engine.plain_char (e : Engine) {c : Nat} {cat : Category} (h : cat ≠ .active) :
    e.Plain (.char c cat) := by
  simp [Engine.Plain, e.meaning_char h, Meaning.expands]

theorem Engine.cmd_isOther (e : Engine) (k j : Nat) :
    (e.cmd (.char k .other)).isOther j = (k == j) := by
  simp [Engine.cmd, e.meaning_char, Cmd.isOther, Cmd.char?]

theorem Engine.cmd_level (e : Engine) {c : Nat} {cat : Category} (h : cat ≠ .active) :
    (e.cmd (.char c cat)).level? = none := by
  simp [Engine.cmd, e.meaning_char h, Cmd.level?]

/-- What `e` has ahead of `toks` can be read without expanding: the first token of `toks` is
plain, or `toks` is empty and nothing is left to read after it. -/
def Engine.PlainAhead (e : Engine) : List Token → Prop
  | [] => e.pendingHead? = none ∧ e.lexer = none
  | u :: _ => e.Plain u

theorem Engine.Reads.readPlain {x e : Engine} {toks : List Token} {cs : List Cond}
    (h : x.Reads e toks cs) (hp : e.PlainAhead toks) :
    x.ReadsPlainly ∧ x.nextCmd? = toks.head?.map e.cmd ∧ x.dropPending.Reads e toks.tail cs := by
  cases toks with
  | nil =>
    have hph : x.pendingHead? = none := by
      simp [Engine.pendingHead?, h.inputs, pendingOf] at hp ⊢
      exact hp.1
    have hlex : x.lexer = none := h.lexer.trans hp.2
    refine ⟨.inr ⟨hph, hlex⟩, by simp [Engine.nextCmd?, hph], ?_⟩
    rw [Engine.dropPending_of_pendingHead_none hph]
    exact h
  | cons u us =>
    have hph := h.pendingHead
    have hmean : x.meaning u = e.meaning u := h.meaning_eq u
    refine ⟨.inl ⟨u, hph, ?_⟩, ?_, h.dropPending.1⟩
    · simpa [Engine.PlainAhead, Engine.Plain, hmean] using hp
    · simp [Engine.nextCmd?, hph, Engine.cmd, hmean]

namespace EngineM

theorem next_at_end (Q : PostCond (Option (Token × Bool)) (.except EngineError (.arg Engine .pure))) :
    ⦃fun x => ⌜x.pendingHead? = none ∧ x.lexer = none⌝ ∧ Q.1 none x⦄ next ⦃Q⦄ := by
  unfold next
  mvcgen [-fail_keeps]
  all_goals simp_all [Engine.pendingHead?]

theorem getX_plain (m : Nat) (Q : PostCond (Option Cmd) (.except EngineError (.arg Engine .pure))) :
    ⦃fun x => ⌜x.ReadsPlainly⌝ ∧ Q.1 x.nextCmd? x.dropPending⦄ getX (m + 1) ⦃Q⦄ := by
  rw [getX, next_eq_pending]
  mvcgen [next_at_end, -next_keeps, -forIn_range_keeps, -meaningOf_keeps, -fail_keeps,
    -expand_keeps] invariants
  | inv1 => ⇓p x => ⌜(p.snd.fst = none ∧ p.fst.prefix = [] ∧ x.ReadsPlainly ∧
      (Q.1 x.nextCmd? x.dropPending).down) ∨
      (∃ c, p.snd.fst = some c ∧ p.fst.suffix = [] ∧ (Q.1 c x).down)⌝
  case vc7.pre => exact .inl ⟨trivial, trivial, ‹_›⟩
  all_goals simp_all [Engine.ReadsPlainly, Engine.Plain, Engine.nextCmd?, Engine.cmd,
    Engine.dropPending_of_pendingHead_none]

open Classical in
/-- `getX` on an engine that reads plainly reads one pending command, or nothing at the end;
stated as a program, so that `mvcgen` goes on with the command read. -/
theorem getX_eq_plain (m : Nat) : getX (m + 1) = (do
    let x ← get
    if x.ReadsPlainly then
      set x.dropPending
      pure x.nextCmd?
    else getX (m + 1)) := by
  apply ExceptT.ext
  apply StateT.ext
  intro x
  rw [run_get_bind]
  by_cases hx : x.ReadsPlainly
  · rw [if_pos hx]
    have hspec := getX_plain m (post⟨fun r y => ⌜r = x.nextCmd? ∧ y = x.dropPending⌝,
      fun _ _ => ⌜False⌝⟩ : PostCond (Option Cmd) (.except EngineError (.arg Engine .pure)))
    have h := hspec x ⟨hx, rfl, rfl⟩
    simp only [WP.wp, PredTrans.apply, PredTrans.pushExcept, PredTrans.pushArg, StateT.run] at h
    rcases hrun : (getX (m + 1)).run.run x with ⟨err | r, y⟩
    · simp only [StateT.run] at hrun
      simp only [hrun] at h
      exact h.elim
    · simp only [StateT.run] at hrun
      simp only [hrun] at h
      obtain ⟨rfl, rfl⟩ := h
      rfl
  · rw [if_neg hx]

theorem back_wp (t : Token) (frozen : Bool)
    (Q : PostCond Unit (.except EngineError (.arg Engine .pure))) :
    ⦃fun x => Q.1 () { x with inputs := { toks := [t], frozen } :: x.inputs }⦄ back t frozen ⦃Q⦄ := by
  unfold back
  mvcgen

theorem backCmd_wp (c : Cmd) (Q : PostCond Unit (.except EngineError (.arg Engine .pure))) :
    ⦃fun x => Q.1 () { x with inputs := { toks := [c.tok], frozen := c.frozen } :: x.inputs }⦄
      backCmd c ⦃Q⦄ := by
  unfold backCmd
  exact back_wp c.tok c.frozen Q

end EngineM

/-- A token put back in front of an engine reading `us` is read next, unfrozen, and then
`us`. -/
theorem Engine.Reads.putBack {x e : Engine} {us : List Token} {cs : List Cond}
    (h : x.Reads e us cs) (u : Token) :
    ({ x with inputs := { toks := [u], frozen := false } :: x.inputs } : Engine).pendingHead? =
      some (u, false) ∧
    ({ x with inputs := { toks := [u], frozen := false } :: x.inputs } : Engine).dropPending.Reads
      e us cs := by
  obtain ⟨ho, ht, hl, hn, hd, hi, hc⟩ := h
  refine ⟨by simp [Engine.pendingHead?], ?_⟩
  simp only [Engine.dropPending, List.dropWhile_cons, List.isEmpty_cons, Bool.false_eq_true,
    if_false, List.isEmpty_nil, if_true]
  exact ⟨ho, ht, hl, hn, hd, hi, hc⟩

/-! ### The grammar of a number -/

theorem char_toNat_lt (c : Char) : c.toNat < 1114112 := by
  rcases c.valid with h | ⟨-, h⟩ <;> simp only [Char.toNat] <;> omega

/-- A token of the signs before a number: an explicit blank, plus sign or minus sign. -/
def Token.IsSign (t : Token) : Prop :=
  (∃ c, t = .char c .space) ∨ t = .char 43 .other ∨ t = .char 45 .other

theorem Token.IsSign.plain {t : Token} (ht : t.IsSign) (e : Engine) {l : List Token} :
    e.PlainAhead (t :: l) := by
  rcases ht with ⟨c, rfl⟩ | rfl | rfl <;> exact e.plain_char (by simp)

/-- Whether an odd number of minus signs makes a number negative. -/
def minusOdd (signs : List Token) : Bool :=
  signs.count (.char 45 .other) % 2 = 1

theorem minusOdd_concat (l : List Token) (t : Token) :
    minusOdd (l ++ [t]) = if t = .char 45 .other then !minusOdd l else minusOdd l := by
  by_cases h : t = .char 45 .other
  · subst h
    simp only [minusOdd, List.count_append, List.count_singleton_self, if_true]
    cases Nat.mod_two_eq_zero_or_one (l.count (.char 45 .other)) <;> simp [Nat.add_mod, *]
  · simp [minusOdd, List.count_append, h]

theorem neg_one_pow_count (signs : List Token) :
    (-1 : Int) ^ signs.count (.char 45 .other) = if minusOdd signs then -1 else 1 := by
  rcases Nat.even_or_odd (signs.count (.char 45 .other)) with h | h
  · simp [minusOdd, h.neg_one_pow, Nat.even_iff.1 h]
  · simp [minusOdd, h.neg_one_pow, Nat.odd_iff.1 h]

/-- A magnitude that fits a word, negated or not, keeps its value as a word. -/
theorem toInt_ofNat_signed {a : Nat} (ha : a ≤ 2147483647) (neg : Bool) :
    (if neg then -Int32.ofNat a else Int32.ofNat a).toInt = (if neg then -1 else 1) * (a : Int) := by
  have hpos : (Int32.ofNat a).toInt = a := Int32.toInt_ofNat_of_lt (by omega)
  cases neg
  · simp [hpos]
  · simp only [if_true, Int32.toInt_neg, hpos]
    rw [Int.bmod_eq_of_le] <;> omega

/-- The radix of a number's digits. -/
inductive Radix
  | decimal
  | octal
  | hex
deriving DecidableEq, Repr

namespace Radix

def base : Radix → Nat
  | decimal => 10
  | octal => 8
  | hex => 16

/-- The token that selects the radix: none for decimal, `'` for octal, `"` for hexadecimal. -/
def mark : Radix → List Token
  | decimal => []
  | octal => [.char 39 .other]
  | hex => [.char 34 .other]

/-- `t` is a digit of value `d` in radix `r`: `0`–`9` of category other below the base, and
in hexadecimal `A`–`F` of category other or letter. -/
inductive Digit : Radix → Token → Nat → Prop
  | numeral {r : Radix} {d : Nat} : d < 10 → d < r.base → Digit r (.char (48 + d) .other) d
  | letter {d : Nat} {cat : Category} : d < 6 → (cat = .other ∨ cat = .letter) →
      Digit hex (.char (65 + d) cat) (10 + d)

end Radix

/-- What follows the signs of a number: digits with their values after the mark of their
radix, or an alphabetic constant, a backquote and the token whose code it gives. -/
inductive Numeral
  | digits (r : Radix) (ds : List (Token × Nat))
  | alpha (t : Token)

namespace Numeral

def toks : Numeral → List Token
  | digits r ds => r.mark ++ ds.map Prod.fst
  | alpha t => [.char 96 .other, t]

/-- The value a number denotes, before its sign. -/
def value : Numeral → Nat
  | digits r ds => Nat.ofDigits r.base (ds.map Prod.snd).reverse
  | alpha (.char c _) => c
  | alpha (.cs name) => name.front.toNat

/-- At least one digit, each of its radix with its value; a character code that fits a word;
a control sequence of one character. -/
def WellFormed : Numeral → Prop
  | digits r ds => ds ≠ [] ∧ ∀ p ∈ ds, r.Digit p.1 p.2
  | alpha (.char c _) => c < 2147483648
  | alpha (.cs name) => name.length = 1

/-- Token `u` ends the number when it comes next: after digits when it is no digit of their
radix, after an alphabetic constant always. -/
def Stops : Numeral → Token → Prop
  | digits r _, u => ∀ d, ¬ r.Digit u d
  | alpha _, _ => True

end Numeral

namespace Radix

theorem base_pos (r : Radix) : 0 < r.base := by
  cases r <;> simp [base]

theorem base_eq_sixteen {r : Radix} : r.base = 16 ↔ r = hex := by
  cases r <;> simp [base]

theorem Digit.plain {r : Radix} {u : Token} {d : Nat} (h : r.Digit u d) (e : Engine) :
    e.Plain u := by
  cases h with
  | numeral => exact e.plain_char (by simp)
  | letter _ hcat => exact e.plain_char (by rcases hcat with rfl | rfl <;> simp)

theorem Digit.not_space {r : Radix} {t : Token} {d : Nat} (h : r.Digit t d) :
    t.isCat .space = false := by
  cases h with
  | numeral => rfl
  | letter _ hcat => rcases hcat with rfl | rfl <;> rfl

/-- `Cmd.digit?` recognises exactly the digits of the radix, with their values. -/
theorem digit?_cmd (e : Engine) {r : Radix} {u : Token} {d : Nat} :
    (e.cmd u).digit? r.base = some d ↔ r.Digit u d := by
  cases u with
  | cs name =>
    simp only [Engine.cmd, Cmd.digit?, Bool.false_eq_true, if_false, reduceCtorEq, false_iff]
    intro h
    cases h
  | char c cat =>
    simp only [Engine.cmd, Cmd.digit?, Bool.false_eq_true, if_false]
    constructor
    · intro h
      split_ifs at h with h1 h2
      · obtain ⟨rfl, h48, h57, hb⟩ := h1
        obtain ⟨d', rfl⟩ : ∃ d', c = 48 + d' := ⟨c - 48, by omega⟩
        cases h
        rw [Nat.add_sub_cancel_left] at hb ⊢
        exact .numeral (by omega) hb
      · obtain ⟨h16, hcat, h65, h70⟩ := h2
        obtain ⟨d', rfl⟩ : ∃ d', c = 65 + d' := ⟨c - 65, by omega⟩
        cases h
        rw [base_eq_sixteen] at h16
        subst h16
        rw [show 65 + d' - 55 = 10 + d' by omega]
        exact .letter (by omega) hcat
    · intro h
      cases h with
      | numeral h10 hb => simp; omega
      | letter h6 hcat =>
        have h16 : hex.base = 16 := rfl
        rw [if_neg (by omega), if_pos (by simp [h16, hcat]; omega)]
        congr 1
        omega

end Radix

theorem ofDigits_take_succ (b : Nat) (l : List Nat) {k : Nat} (hk : k < l.length) :
    Nat.ofDigits b (l.take (k + 1)).reverse = Nat.ofDigits b (l.take k).reverse * b + l[k] := by
  rw [List.take_add_one, List.getElem?_eq_getElem hk]
  simp only [Option.toList_some, List.reverse_append, List.reverse_singleton, List.singleton_append,
    Nat.ofDigits_cons]
  ring

theorem ofDigits_take_le (b : Nat) (hb : 0 < b) (l : List Nat) (k : Nat) :
    Nat.ofDigits b (l.take k).reverse ≤ Nat.ofDigits b l.reverse := by
  have hpow : 1 ≤ b ^ (l.drop k).reverse.length := Nat.one_le_pow _ _ hb
  calc Nat.ofDigits b (l.take k).reverse
      ≤ b ^ (l.drop k).reverse.length * Nat.ofDigits b (l.take k).reverse :=
        Nat.le_mul_of_pos_left _ hpow
    _ ≤ Nat.ofDigits b (l.drop k).reverse +
          b ^ (l.drop k).reverse.length * Nat.ofDigits b (l.take k).reverse := Nat.le_add_left _ _
    _ = Nat.ofDigits b l.reverse := by
        rw [← Nat.ofDigits_append, ← List.reverse_append, List.take_append_drop]

theorem Radix.first_token {r : Radix} {ds : List (Token × Nat)} {u : Token} {us : List Token}
    (hds : ∀ p ∈ ds, r.Digit p.1 p.2) (htoks : r.mark ++ ds.map Prod.fst = u :: us) :
    ∃ k, u = .char k .other ∧ k ≠ 43 ∧ k ≠ 45 ∧ k ≠ 96 ∧ (k = 39 ↔ r = .octal) ∧
      (k = 34 ↔ r = .hex) := by
  cases r with
  | octal =>
    simp only [Radix.mark, List.singleton_append, List.cons.injEq] at htoks
    exact ⟨39, htoks.1.symm, by decide, by decide, by decide, by simp, by simp⟩
  | hex =>
    simp only [Radix.mark, List.singleton_append, List.cons.injEq] at htoks
    exact ⟨34, htoks.1.symm, by decide, by decide, by decide, by simp, by simp⟩
  | decimal =>
    simp only [Radix.mark, List.nil_append] at htoks
    obtain ⟨⟨t, v⟩, ds', rfl⟩ : ∃ p ds', ds = p :: ds' :=
      List.exists_cons_of_ne_nil (by rintro rfl; simp at htoks)
    simp only [List.map_cons, List.cons.injEq] at htoks
    obtain ⟨rfl, -⟩ := htoks
    have hd : Radix.decimal.Digit t v := hds (t, v) (by simp)
    cases hd with
    | numeral h10 _ =>
      exact ⟨48 + v, rfl, by omega, by omega, by omega, by simp; omega, by simp; omega⟩

/-- A number starts, after its signs, with an explicit character of category other that is
no sign: a radix mark, a decimal digit or a backquote. -/
theorem Numeral.first_token {n : Numeral} (hn : n.WellFormed) :
    ∃ k us, n.toks = .char k .other :: us ∧ k ≠ 43 ∧ k ≠ 45 := by
  cases n with
  | digits r ds =>
    obtain ⟨u, us, hus⟩ : ∃ u us, r.mark ++ ds.map Prod.fst = u :: us :=
      List.exists_cons_of_ne_nil (by simpa using fun _ => hn.1)
    obtain ⟨k, rfl, h43, h45, -⟩ := Radix.first_token hn.2 hus
    exact ⟨k, us, hus, h43, h45⟩
  | alpha t => exact ⟨96, [t], rfl, by decide, by decide⟩

/-- What is left after a number that `rest` follows: a first token that is a space is read
with the number, any other is put back to be read next. -/
def Engine.ReadsAfterNumber (x e : Engine) (rest : List Token) (cs : List Cond) : Prop :=
  match rest with
  | [] => x.Reads e [] cs
  | u :: us =>
    if (e.cmd u).isSpace then x.Reads e us cs
    else x.pendingHead? = some (u, false) ∧ x.dropPending.Reads e us cs

/-- The command after a number, read plainly from `rest`: a space is dropped, any other
command put back, as `Engine.ReadsAfterNumber` says. -/
theorem Engine.Reads.afterNumber_some {x e : Engine} {rest : List Token} {cs : List Cond}
    {c : Cmd} (h : x.Reads e rest.tail cs) (hc : rest.head?.map e.cmd = some c) :
    ((!c.isSpace) = true → ({ x with inputs := { toks := [c.tok], frozen := c.frozen } :: x.inputs } :
        Engine).ReadsAfterNumber e rest cs) ∧
      (¬(!c.isSpace) = true → x.ReadsAfterNumber e rest cs) := by
  cases rest with
  | nil => simp at hc
  | cons u us =>
  simp only [List.head?_cons, Option.map_some, Option.some_inj] at hc
  subst hc
  refine ⟨fun hs => ?_, fun hs => ?_⟩
  · simp only [Engine.ReadsAfterNumber, show (e.cmd u).isSpace = false by simpa using hs,
      Bool.false_eq_true, if_false]
    exact h.putBack u
  · simp only [Engine.ReadsAfterNumber, show (e.cmd u).isSpace = true by simpa using hs, if_true]
    exact h

theorem Engine.Reads.afterNumber_none {x e : Engine} {rest : List Token} {cs : List Cond}
    (h : x.Reads e rest.tail cs) (hc : rest.head?.map e.cmd = none) :
    x.ReadsAfterNumber e rest cs := by
  cases rest with
  | nil => exact h
  | cons u us => simp at hc

/-! ### The digit loop -/

section Digits

variable {e x : Engine} {r : Radix} {ds : List (Token × Nat)} {rest : List Token} {cs : List Cond}

theorem digits_getElem? {n : Nat} (hn : n < ds.length) :
    (ds.map Prod.fst ++ rest)[n]? = some ds[n].1 := by
  rw [List.getElem?_append_left (by simpa using hn)]
  simp [hn]

theorem digits_getElem?_length : (ds.map Prod.fst ++ rest)[ds.length]? = rest.head? := by
  rw [List.getElem?_append_right (by simp)]
  simp [List.head?_eq_getElem?]

theorem digits_plainAhead (hds : ∀ p ∈ ds, r.Digit p.1 p.2) (hp : e.PlainAhead rest) {n : Nat}
    (hn : n ≤ ds.length) : e.PlainAhead ((ds.map Prod.fst ++ rest).drop n) := by
  rcases Nat.lt_or_eq_of_le hn with hlt | rfl
  · have hin : n < (ds.map Prod.fst ++ rest).length := by simp; omega
    rw [List.drop_eq_getElem_cons hin]
    have hget : (ds.map Prod.fst ++ rest)[n] = ds[n].1 := by
      rw [List.getElem_append_left (by simpa using hlt)]
      simp
    rw [hget]
    exact (hds ds[n] (List.getElem_mem hlt)).plain e
  · have hdrop : (ds.map Prod.fst ++ rest).drop ds.length = rest := by
      simp
    rw [hdrop]
    exact hp

/-- The state of the digit loop in radix `r` over the digits `ds` that `rest` follows, after
`n` digits: their value `acc` fits a word, `cur` is the command of the token after them, and
the engine reads what follows that token. -/
def DigitsRead (e : Engine) (r : Radix) (ds : List (Token × Nat)) (rest : List Token)
    (cs : List Cond) (n : Nat) (cur : Option Cmd) (acc : Nat) (x : Engine) : Prop :=
  n ≤ ds.length ∧ acc = Nat.ofDigits r.base ((ds.map Prod.snd).take n).reverse ∧
    acc ≤ 2147483647 ∧ cur = (ds.map Prod.fst ++ rest)[n]?.map e.cmd ∧
    x.Reads e ((ds.map Prod.fst ++ rest).drop (n + 1)) cs

namespace DigitsRead

variable {n acc d : Nat} {cur : Option Cmd} {c : Cmd}

theorem start (hds : ∀ p ∈ ds, r.Digit p.1 p.2) (hp : e.PlainAhead rest)
    (hx : x.Reads e (ds.map Prod.fst ++ rest) cs) :
    x.ReadsPlainly ∧ DigitsRead e r ds rest cs 0 x.nextCmd? 0 x.dropPending := by
  have hplain := digits_plainAhead hds hp (Nat.zero_le ds.length)
  rw [List.drop_zero] at hplain
  obtain ⟨hread, hcmd, hdrop⟩ := hx.readPlain hplain
  refine ⟨hread, Nat.zero_le _, by simp, by simp, ?_, by simpa using hdrop⟩
  rw [hcmd, List.head?_eq_getElem?]

theorem start_first {u : Token} (hx : x.Reads e ((ds.map Prod.fst ++ rest).drop 1) cs)
    (hu : (ds.map Prod.fst ++ rest)[0]? = some u) :
    DigitsRead e r ds rest cs 0 (some (e.cmd u)) 0 x :=
  ⟨Nat.zero_le _, by simp, by simp, by simp [hu], hx⟩

theorem digit (hds : ∀ p ∈ ds, r.Digit p.1 p.2) (hstop : ∀ t ∈ rest.head?, ∀ d, ¬ r.Digit t d)
    (h : DigitsRead e r ds rest cs n (some c) acc x) (hd : c.digit? r.base = some d) :
    ∃ hn : n < ds.length, d = ds[n].2 := by
  obtain ⟨hle, -, -, hcur, -⟩ := h
  rcases Nat.lt_or_eq_of_le hle with hlt | rfl
  · rw [digits_getElem? hlt, Option.map_some, Option.some_inj] at hcur
    subst hcur
    have hdig := (Radix.digit?_cmd e).2 (hds ds[n] (List.getElem_mem hlt))
    rw [hd, Option.some_inj] at hdig
    exact ⟨hlt, hdig⟩
  · rw [digits_getElem?_length] at hcur
    obtain ⟨t, ht, rfl⟩ := Option.map_eq_some_iff.1 hcur.symm
    exact absurd ((Radix.digit?_cmd e).1 hd) (hstop t ht d)

/-- The loop is left only after all the digits. -/
theorem length_of_stop (hds : ∀ p ∈ ds, r.Digit p.1 p.2) (h : DigitsRead e r ds rest cs n cur acc x)
    (hstop : ∀ c, cur = some c → c.digit? r.base = none) : n = ds.length := by
  obtain ⟨hle, -, -, hcur, -⟩ := h
  by_contra hne
  have hlt : n < ds.length := Nat.lt_of_le_of_ne hle hne
  rw [digits_getElem? hlt, Option.map_some] at hcur
  have hdig := (Radix.digit?_cmd e).2 (hds ds[n] (List.getElem_mem hlt))
  rw [hstop _ hcur] at hdig
  exact absurd hdig (by simp)

theorem step (hds : ∀ p ∈ ds, r.Digit p.1 p.2) (hp : e.PlainAhead rest)
    (h : DigitsRead e r ds rest cs n cur acc x) (hn : n < ds.length)
    (hfit : acc * r.base + ds[n].2 ≤ 2147483647) :
    x.ReadsPlainly ∧
      DigitsRead e r ds rest cs (n + 1) x.nextCmd? (acc * r.base + ds[n].2) x.dropPending := by
  obtain ⟨-, hacc, -, -, hx⟩ := h
  obtain ⟨hread, hcmd, hdrop⟩ := hx.readPlain (digits_plainAhead hds hp hn)
  refine ⟨hread, hn, ?_, hfit, ?_, ?_⟩
  · rw [ofDigits_take_succ _ _ (by simpa using hn), hacc]
    simp
  · rw [hcmd, List.head?_drop]
  · rw [List.tail_drop] at hdrop
    exact hdrop

/-- A digit that makes the value exceed a word makes the whole number exceed it. -/
theorem too_big (h : DigitsRead e r ds rest cs n cur acc x) (hn : n < ds.length)
    (hbig : acc * r.base + ds[n].2 > 2147483647) : 2147483647 < (Numeral.digits r ds).value := by
  obtain ⟨-, hacc, -⟩ := h
  have hpre : acc * r.base + ds[n].2 =
      Nat.ofDigits r.base ((ds.map Prod.snd).take (n + 1)).reverse := by
    rw [ofDigits_take_succ _ _ (by simpa using hn), hacc]
    simp
  calc 2147483647 < acc * r.base + ds[n].2 := hbig
    _ = Nat.ofDigits r.base ((ds.map Prod.snd).take (n + 1)).reverse := hpre
    _ ≤ Nat.ofDigits r.base (ds.map Prod.snd).reverse := ofDigits_take_le _ r.base_pos _ _

theorem finish (h : DigitsRead e r ds rest cs ds.length cur acc x) :
    acc = (Numeral.digits r ds).value ∧ acc ≤ 2147483647 ∧ cur = rest.head?.map e.cmd ∧
      x.Reads e rest.tail cs := by
  obtain ⟨-, hacc, hfit, hcur, hx⟩ := h
  rw [List.take_of_length_le (by simp)] at hacc
  refine ⟨hacc, hfit, by rw [hcur, digits_getElem?_length], ?_⟩
  have hdrop : (ds.map Prod.fst ++ rest).drop (ds.length + 1) = rest.tail := by
    rw [List.drop_append]
    simp
  rwa [hdrop] at hx

end DigitsRead

/-- The invariant of the digit loop after `k` rounds, with the rounds `suffix` left: the
state of `DigitsRead` after as many digits as rounds, or after all of them once the loop is
left. -/
def DigitLoopInv (e : Engine) (r : Radix) (ds : List (Token × Nat)) (rest : List Token)
    (cs : List Cond) (k : Nat) (suffix : List Nat) (st : Option Cmd × Nat × Nat) (x : Engine) :
    Prop :=
  DigitsRead e r ds rest cs st.2.2 st.1 st.2.1 x ∧ (st.2.2 = k ∨ suffix = [] ∧ st.2.2 = ds.length)

namespace DigitLoopInv

variable {k b d j : Nat} {suffix : List Nat} {st : Option Cmd × Nat × Nat} {c : Cmd}

theorem stop_none (hds : ∀ p ∈ ds, r.Digit p.1 p.2) (h : DigitLoopInv e r ds rest cs k suffix st x)
    (hc : st.1 = none) (K : Nat) : DigitLoopInv e r ds rest cs K [] st x :=
  ⟨h.1, .inr ⟨rfl, h.1.length_of_stop hds (by simp [hc])⟩⟩

theorem stop_some (hds : ∀ p ∈ ds, r.Digit p.1 p.2) (h : DigitLoopInv e r ds rest cs k suffix st x)
    (hc : st.1 = some c) (hd : c.digit? b = none) (hb : r.base = b) (K : Nat) :
    DigitLoopInv e r ds rest cs K [] st x :=
  ⟨h.1, .inr ⟨rfl, h.1.length_of_stop hds (by rw [hc, hb]; simpa using hd)⟩⟩

theorem next (hds : ∀ p ∈ ds, r.Digit p.1 p.2) (hstop : ∀ t ∈ rest.head?, ∀ d, ¬ r.Digit t d)
    (hp : e.PlainAhead rest) (h : DigitLoopInv e r ds rest cs k (j :: suffix) st x)
    (hc : st.1 = some c) (hd : c.digit? b = some d) (hfit : ¬ st.2.1 * b + d > 2147483647)
    (hb : r.base = b) :
    x.ReadsPlainly ∧ DigitLoopInv e r ds rest cs (k + 1) suffix
      (x.nextCmd?, st.2.1 * b + d, st.2.2 + 1) x.dropPending := by
  obtain ⟨cur, acc, n⟩ := st
  obtain ⟨hread, hk⟩ := h
  simp only at hc hfit hread hk ⊢
  subst hc hb
  obtain ⟨hn, rfl⟩ := hread.digit hds hstop hd
  obtain ⟨hplain, hnext⟩ := hread.step hds hp hn (by omega)
  refine ⟨hplain, hnext, .inl ?_⟩
  rcases hk with hk | ⟨hnil, -⟩
  · exact congrArg (· + 1) hk
  · exact absurd hnil (List.cons_ne_nil _ _)

theorem overflow (hds : ∀ p ∈ ds, r.Digit p.1 p.2)
    (hstop : ∀ t ∈ rest.head?, ∀ d, ¬ r.Digit t d) (h : DigitLoopInv e r ds rest cs k suffix st x)
    (hc : st.1 = some c) (hd : c.digit? b = some d) (hbig : st.2.1 * b + d > 2147483647)
    (hb : r.base = b) : 2147483647 < (Numeral.digits r ds).value := by
  obtain ⟨cur, acc, n⟩ := st
  simp only at hc hbig
  subst hc hb
  obtain ⟨hn, rfl⟩ := h.1.digit hds hstop hd
  exact h.1.too_big hn hbig

/-- What the loop leaves: the value of all the digits, and the token after them read. -/
theorem result (h : DigitLoopInv e r ds rest cs k [] st x) (hk : ds.length < k) :
    st.2.2 = ds.length ∧ (Numeral.digits r ds).value ≤ 2147483647 ∧
      st.2.1 = (Numeral.digits r ds).value ∧ st.1 = rest.head?.map e.cmd ∧ x.Reads e rest.tail cs := by
  obtain ⟨hread, hk'⟩ := h
  have hn : st.2.2 = ds.length := by
    rcases hk' with hk' | ⟨-, hk'⟩
    · have := hread.1
      omega
    · exact hk'
  rw [hn] at hread
  obtain ⟨hacc, hfit, hcur, hx⟩ := hread.finish
  exact ⟨hn, hacc ▸ hfit, hacc, hcur, hx⟩

theorem finish_some (h : DigitLoopInv e r ds rest cs k [] st x) (hk : ds.length < k)
    (hc : st.1 = some c) :
    (Numeral.digits r ds).value ≤ 2147483647 ∧
      Int32.ofNat st.2.1 = Int32.ofNat (Numeral.digits r ds).value ∧
      ((!c.isSpace) = true → ({ x with inputs := { toks := [c.tok], frozen := c.frozen } :: x.inputs } :
        Engine).ReadsAfterNumber e rest cs) ∧
      (¬(!c.isSpace) = true → x.ReadsAfterNumber e rest cs) := by
  obtain ⟨-, hfit, hacc, hcur, hx⟩ := h.result hk
  rw [hc] at hcur
  exact ⟨hfit, by rw [hacc], hx.afterNumber_some hcur.symm⟩

theorem finish_none (h : DigitLoopInv e r ds rest cs k [] st x) (hk : ds.length < k)
    (hc : st.1 = none) :
    (Numeral.digits r ds).value ≤ 2147483647 ∧
      Int32.ofNat st.2.1 = Int32.ofNat (Numeral.digits r ds).value ∧ x.ReadsAfterNumber e rest cs := by
  obtain ⟨-, hfit, hacc, hcur, hx⟩ := h.result hk
  rw [hc] at hcur
  exact ⟨hfit, by rw [hacc], hx.afterNumber_none hcur.symm⟩

end DigitLoopInv

end Digits

/-! ### Reading a number -/

namespace EngineM

/-- The sign loop reads every sign and stops at the first other character `k`, with the
parity of the minus signs. -/
theorem scanSigns_reads (e : Engine) (m : Nat) (signs : List Token) (k : Nat) (rest : List Token)
    (cs : List Cond) (hsigns : ∀ t ∈ signs, t.IsSign) (hk : k ≠ 43 ∧ k ≠ 45)
    (hlen : signs.length < 1000000000) :
    ⦃fun x => ⌜x.Reads e (signs ++ .char k .other :: rest) cs⌝⦄ scanSigns (m + 2)
    ⦃⇓ r x => ⌜r = (e.cmd (.char k .other), minusOdd signs) ∧ x.Reads e rest cs⌝⦄ := by
  rw [scanSigns]
  mvcgen [getX_plain, -getX_keeps, -forIn_range_keeps, -missingNumber_keeps] invariants
  | inv1 => ⇓p x => ⌜(p.snd.fst = none ∧ ∃ pre post, signs = pre ++ post ∧
      pre.length = p.fst.prefix.length ∧ p.snd.snd = minusOdd pre ∧
      x.Reads e (post ++ .char k .other :: rest) cs) ∨
      (p.snd.fst = some (e.cmd (.char k .other), minusOdd signs) ∧ p.fst.suffix = [] ∧
        x.Reads e rest cs)⌝
  case vc2.pre => exact .inl ⟨trivial, [], signs, rfl, rfl, rfl, ‹_›⟩
  case vc1 =>
    rename_i st x hinv
    rcases hinv with ⟨hnone, pre, post, hsplit, hlen', hneg, hx⟩ | ⟨-, hsuf, -⟩
    · cases post with
      | nil =>
        simp only [List.nil_append] at hx
        obtain ⟨hplain, hcmd, hdrop⟩ := hx.readPlain (e.plain_char (by simp))
        refine ⟨hplain, ?_⟩
        simp only [List.append_nil] at hsplit
        subst hsplit
        simp [hcmd, Engine.cmd, e.meaning_char, Cmd.isSpace, Cmd.isOther, Cmd.char?, Token.isCat,
          hk.1, hk.2]
        exact ⟨hneg, hdrop⟩
      | cons t post =>
        simp only [List.cons_append] at hx
        have ht : t.IsSign := hsigns t (by simp [hsplit])
        obtain ⟨hplain, hcmd, hdrop⟩ := hx.readPlain (ht.plain e)
        refine ⟨hplain, ?_⟩
        have hpre : signs = (pre ++ [t]) ++ post := by simp [hsplit]
        rcases ht with ⟨c, rfl⟩ | rfl | rfl
        all_goals
          simp [hcmd, Engine.cmd, e.meaning_char, Cmd.isSpace, Cmd.isOther, Cmd.char?,
            Token.isCat]
          refine ⟨_, post, hpre, by simp [hlen'], ?_, hdrop⟩
          simp only [minusOdd_concat]
          simpa using hneg
    · simp at hsuf
  case vc3 => rcases ‹_ ∨ _› with ⟨hn, -⟩ | ⟨h1, -, hr⟩ <;> simp_all
  case vc4 =>
    -- the loop cannot run out: it reads one of fewer than a billion signs a round
    intro x hinv
    rcases hinv with ⟨-, pre, post, hsplit, hl, -⟩ | ⟨h1, -⟩
    · have hsum := congrArg List.length hsplit
      simp at hl hsum
      omega
    · simp_all

/-- Digits after the mark of their radix: their value when it fits a word, read with the
token after them if that is a space; a syntax error as soon as the value read exceeds a
word. -/
theorem scanIntAfter_digits (e : Engine) (m : Nat) (r : Radix) (ds : List (Token × Nat))
    (u : Token) (us rest : List Token) (cs : List Cond)
    (hds : ∀ p ∈ ds, r.Digit p.1 p.2) (hne : ds ≠ []) (hstop : ∀ t ∈ rest.head?, ∀ d, ¬ r.Digit t d)
    (hp : e.PlainAhead rest) (hlen : ds.length < 1000000000)
    (htoks : r.mark ++ ds.map Prod.fst = u :: us) :
    ⦃fun x => ⌜x.Reads e (us ++ rest) cs⌝⦄ scanIntAfter (m + 3) (e.cmd u)
    ⦃post⟨fun v x => ⌜(Numeral.digits r ds).value ≤ 2147483647 ∧
        v = Int32.ofNat (Numeral.digits r ds).value ∧ x.ReadsAfterNumber e rest cs⌝,
      fun err _ => ⌜2147483647 < (Numeral.digits r ds).value ∧ err.kind = .syntaxError⌝⟩⦄ := by
  obtain ⟨k, rfl, -, -, h96, h39, h34⟩ := Radix.first_token hds htoks
  have hbase : ∀ b, (r = .octal → b = 8) → (r = .hex → b = 16) →
      (r ≠ .octal → r ≠ .hex → b = 10) → r.base = b := by
    intro b h8 h16 h10
    cases r <;> simp_all [Radix.base]
  rw [scanIntAfter, getX_eq_plain]
  simp only [e.cmd_isOther, e.cmd_level (show Category.other ≠ .active by simp), beq_iff_eq, h96,
    h39, h34, if_false]
  mvcgen [fail, backCmd_wp, -getX_keeps, -forIn_range_keeps, -missingNumber_keeps,
    -notNumber_keeps, -fail_keeps, -backCmd_keeps, -back_keeps] invariants
  | inv1 => post⟨fun p x => ⌜DigitLoopInv e r ds rest cs p.fst.prefix.length p.fst.suffix p.snd x⌝,
      fun err _ => ⌜2147483647 < (Numeral.digits r ds).value ∧ err.kind = .syntaxError⌝⟩
  | inv2 => post⟨fun p x => ⌜DigitLoopInv e r ds rest cs p.fst.prefix.length p.fst.suffix p.snd x⌝,
      fun err _ => ⌜2147483647 < (Numeral.digits r ds).value ∧ err.kind = .syntaxError⌝⟩
  | inv3 => post⟨fun p x => ⌜DigitLoopInv e r ds rest cs p.fst.prefix.length p.fst.suffix p.snd x⌝,
      fun err _ => ⌜2147483647 < (Numeral.digits r ds).value ∧ err.kind = .syntaxError⌝⟩
  -- the three loops, of radix eight, sixteen and ten, go the same way
  case vc1 | vc14 | vc27 => exact ‹DigitLoopInv _ _ _ _ _ _ _ _ _›.stop_none hds ‹_› _
  case vc2 | vc15 | vc28 =>
    exact ‹DigitLoopInv _ _ _ _ _ _ _ _ _›.stop_some hds ‹_› ‹_›
      (hbase _ (by simp_all) (by simp_all) (by simp_all)) _
  case vc3 | vc16 | vc29 =>
    exact ‹DigitLoopInv _ _ _ _ _ _ _ _ _›.overflow hds hstop ‹_› ‹_› ‹_›
      (hbase _ (by simp_all) (by simp_all) (by simp_all))
  case vc4 | vc17 | vc30 =>
    rw [List.length_append, List.length_singleton]
    exact (‹DigitLoopInv _ _ _ _ _ _ _ _ _›.next hds hstop hp ‹_› ‹_› ‹_›
      (hbase _ (by simp_all) (by simp_all) (by simp_all))).2
  case vc5 | vc18 | vc31 =>
    exact absurd (‹DigitLoopInv _ _ _ _ _ _ _ _ _›.next hds hstop hp ‹_› ‹_› ‹_›
      (hbase _ (by simp_all) (by simp_all) (by simp_all))).1 ‹_›
  case vc6 | vc19 =>
    have hus : ds.map Prod.fst = us := by cases r <;> simp_all [Radix.mark]
    have hx := ‹Engine.Reads _ e (us ++ rest) cs›
    rw [← hus] at hx
    exact ⟨(DigitsRead.start hds hp hx).2, .inl rfl⟩
  case vc13 | vc26 =>
    have hus : ds.map Prod.fst = us := by cases r <;> simp_all [Radix.mark]
    have hx := ‹Engine.Reads _ e (us ++ rest) cs›
    rw [← hus] at hx
    exact absurd (DigitsRead.start hds hp hx).1 ‹_›
  case vc32 =>
    have hL : ds.map Prod.fst ++ rest = .char k .other :: (us ++ rest) := by
      have hdec : r = .decimal := by cases r <;> simp_all
      subst hdec
      simp only [Radix.mark, List.nil_append] at htoks
      rw [htoks, List.cons_append]
    have hx : _ := ‹Engine.Reads _ e (us ++ rest) cs›
    have hdrop : (ds.map Prod.fst ++ rest).drop 1 = us ++ rest := by rw [hL]; rfl
    rw [← hdrop] at hx
    exact ⟨DigitsRead.start_first hx (by rw [hL]; rfl), .inl rfl⟩
  case vc7 | vc8 | vc20 | vc21 | vc33 | vc34 =>
    obtain ⟨hn, -⟩ := ‹DigitLoopInv _ _ _ _ _ _ _ _ _›.result (by simpa using hlen)
    exact absurd (hn.symm.trans ‹(_ : Nat) = 0›) (by simpa using hne)
  case vc9 | vc22 | vc35 =>
    obtain ⟨h1, h2, h3, -⟩ := ‹DigitLoopInv _ _ _ _ _ _ _ _ _›.finish_some (by simpa using hlen) ‹_›
    exact ⟨h1, h2, h3 ‹_›⟩
  case vc10 | vc23 | vc36 =>
    obtain ⟨h1, h2, -, h4⟩ := ‹DigitLoopInv _ _ _ _ _ _ _ _ _›.finish_some (by simpa using hlen) ‹_›
    exact ⟨h1, h2, h4 ‹_›⟩
  case vc11 | vc24 | vc37 =>
    exact ‹DigitLoopInv _ _ _ _ _ _ _ _ _›.finish_none (by simpa using hlen) ‹_›

/-- The optional space after a number: a space is read, anything else is put back. -/
theorem skipOptionalSpace_reads (e : Engine) (m : Nat) (rest : List Token) (cs : List Cond)
    (hp : e.PlainAhead rest) :
    ⦃fun x => ⌜x.Reads e rest cs⌝⦄ skipOptionalSpace (m + 2)
    ⦃⇓ _ x => ⌜x.ReadsAfterNumber e rest cs⌝⦄ := by
  rw [skipOptionalSpace, getX_eq_plain]
  mvcgen [backCmd_wp, -getX_keeps, -backCmd_keeps, -back_keeps]
  all_goals
    obtain ⟨hplain, hcmd, hdrop⟩ := ‹Engine.Reads _ e rest cs›.readPlain hp
  case vc1 => exact (hdrop.afterNumber_some (hcmd.symm.trans ‹_ = some _›)).1 ‹_›
  case vc2 => exact (hdrop.afterNumber_some (hcmd.symm.trans ‹_ = some _›)).2 ‹_›
  case vc3 =>
    rename_i hnone hread
    refine hdrop.afterNumber_none ?_
    rw [← hcmd, hread]
    exact Option.eq_none_iff_forall_ne_some.2 hnone
  case vc4 => exact absurd hplain ‹_›

theorem scanIntAfter_alpha (e : Engine) (m : Nat) (t : Token) (rest : List Token) (cs : List Cond)
    (ht : (Numeral.alpha t).WellFormed) (hp : e.PlainAhead rest) :
    ⦃fun x => ⌜x.Reads e (t :: rest) cs⌝⦄ scanIntAfter (m + 3) (e.cmd (.char 96 .other))
    ⦃post⟨fun v x => ⌜(Numeral.alpha t).value ≤ 2147483647 ∧
        v = Int32.ofNat (Numeral.alpha t).value ∧ x.ReadsAfterNumber e rest cs⌝,
      fun err _ => ⌜2147483647 < (Numeral.alpha t).value ∧ err.kind = .syntaxError⌝⟩⦄ := by
  have hskip := skipOptionalSpace_reads e m rest cs hp
  rw [scanIntAfter, next_eq_pending]
  simp only [e.cmd_isOther, beq_self_eq_true, if_true]
  mvcgen [hskip, fail, -next_keeps, -fail_keeps, -missingNumber_keeps]
  all_goals
    have hhead := ‹Engine.Reads _ e (t :: rest) cs›.pendingHead
    have hdrop := ‹Engine.Reads _ e (t :: rest) cs›.dropPending.1
  all_goals simp_all [Numeral.value, Numeral.WellFormed]
  case vc2 => omega
  case vc4 => exact Nat.le_of_lt (Nat.lt_trans (char_toNat_lt _) (by decide))
  case vc6 =>
    rename_i hno heq
    exact ((hno t).1 heq.symm).elim

/-- What follows the signs, read as a number: its value when that fits a word, a syntax error
otherwise. -/
theorem scanIntAfter_reads (e : Engine) (m : Nat) (n : Numeral) (u : Token) (us rest : List Token)
    (cs : List Cond) (hn : n.WellFormed) (hstop : ∀ t ∈ rest.head?, n.Stops t)
    (hp : e.PlainAhead rest) (hlen : n.toks.length < 1000000000) (htoks : n.toks = u :: us) :
    ⦃fun x => ⌜x.Reads e (us ++ rest) cs⌝⦄ scanIntAfter (m + 3) (e.cmd u)
    ⦃post⟨fun v x => ⌜n.value ≤ 2147483647 ∧ v = Int32.ofNat n.value ∧
        x.ReadsAfterNumber e rest cs⌝,
      fun err _ => ⌜2147483647 < n.value ∧ err.kind = .syntaxError⌝⟩⦄ := by
  cases n with
  | digits r ds =>
    have hds : ds.length < 1000000000 := by
      simp only [Numeral.toks, List.length_append, List.length_map] at hlen
      omega
    exact scanIntAfter_digits e m r ds u us rest cs hn.2 hn.1 hstop hp hds htoks
  | alpha t =>
    simp only [Numeral.toks, List.cons.injEq] at htoks
    obtain ⟨rfl, rfl⟩ := htoks
    exact scanIntAfter_alpha e m t rest cs hn hp

theorem scanInt_reads (e : Engine) (m : Nat) (signs : List Token) (n : Numeral)
    (rest : List Token) (cs : List Cond) (hsigns : ∀ t ∈ signs, t.IsSign) (hn : n.WellFormed)
    (hstop : ∀ t ∈ rest.head?, n.Stops t) (hp : e.PlainAhead rest)
    (hlen : signs.length + n.toks.length < 1000000000) :
    ⦃fun x => ⌜x.Reads e (signs ++ n.toks ++ rest) cs⌝⦄ scanInt (m + 4)
    ⦃post⟨fun v x => ⌜n.value ≤ 2147483647 ∧
        v.toInt = (-1) ^ signs.count (.char 45 .other) * n.value ∧ x.ReadsAfterNumber e rest cs⌝,
      fun err _ => ⌜2147483647 < n.value ∧ err.kind = .syntaxError⌝⟩⦄ := by
  obtain ⟨k, us, htoks, h43, h45⟩ := Numeral.first_token hn
  have hsign := scanSigns_reads e (m + 1) signs k (us ++ rest) cs hsigns ⟨h43, h45⟩ (by omega)
  have hafter : ∀ c, ⦃fun x => ⌜c = e.cmd (.char k .other) ∧ x.Reads e (us ++ rest) cs⌝⦄
      scanIntAfter (m + 3) c
      ⦃post⟨fun v x => ⌜n.value ≤ 2147483647 ∧ v = Int32.ofNat n.value ∧
          x.ReadsAfterNumber e rest cs⌝,
        fun err _ => ⌜2147483647 < n.value ∧ err.kind = .syntaxError⌝⟩⦄ := by
    intro c x ⟨hc, hx⟩
    subst hc
    exact scanIntAfter_reads e m n _ us rest cs hn hstop hp (by omega) htoks x hx
  rw [htoks, scanInt]
  simp only [List.append_assoc, List.cons_append]
  mvcgen [hsign, hafter, -scanSigns_keeps]
  case vc2 =>
    obtain ⟨rfl, hx⟩ := ‹_ ∧ _›
    exact ⟨rfl, hx⟩
  case vc3 =>
    obtain ⟨rfl, -⟩ := ‹(_ : Cmd × Bool) = _ ∧ _›
    obtain ⟨hfit, rfl, hx⟩ := ‹n.value ≤ 2147483647 ∧ _›
    exact ⟨hfit, by rw [toInt_ofNat_signed hfit, neg_one_pow_count], hx⟩

/-- `scanInt` reads TeX's `<number>` exactly. From an engine reading blanks and signs, then a
number `n`, then `rest`, it returns the value of `n` times `(-1)` to the number of minus
signs, and reads nothing more than the token that ends `n` when that is a space; or it fails
with a syntax error, exactly when the value of `n` does not fit a word. -/
theorem scanInt_reads_number (e : Engine) (m : Nat) (signs : List Token) (n : Numeral)
    (rest : List Token) (cs : List Cond) (hsigns : ∀ t ∈ signs, t.IsSign) (hn : n.WellFormed)
    (hstop : ∀ t ∈ rest.head?, n.Stops t) (hp : e.PlainAhead rest)
    (hlen : signs.length + n.toks.length < 1000000000) :
    ⦃fun x => ⌜x.Reads e (signs ++ n.toks ++ rest) cs⌝⦄ scanInt (m + 4)
    ⦃post⟨fun v x => ⌜n.value ≤ 2147483647 ∧
        v.toInt = (-1) ^ signs.count (.char 45 .other) * n.value ∧ x.ReadsAfterNumber e rest cs⌝,
      fun err _ => ⌜2147483647 < n.value ∧ err.kind = .syntaxError⌝⟩⦄ :=
  scanInt_reads e m signs n rest cs hsigns hn hstop hp hlen

/-- In a fresh engine, `-42` followed by a space reads as minus forty-two, and the space goes
with it. -/
theorem scanInt_reads_minus_forty_two :
    let e := Engine.create {}
    ⦃fun x => ⌜x.Reads e [.char 45 .other, .char 52 .other, .char 50 .other, Token.space] []⌝⦄
      scanInt 4
    ⦃post⟨fun v x => ⌜v.toInt = -42 ∧ x.Reads e [] []⌝, fun _ _ => ⌜False⌝⟩⦄ := by
  intro e
  let n : Numeral := .digits .decimal [(.char 52 .other, 4), (.char 50 .other, 2)]
  have hsigns : ∀ t ∈ [Token.char 45 .other], t.IsSign := by simp [Token.IsSign]
  have hwf : n.WellFormed :=
    ⟨by simp, by simp only [List.mem_cons, List.mem_nil_iff, or_false]
                 rintro p (rfl | rfl)
                 exacts [.numeral (d := 4) (by decide) (by decide),
                   .numeral (d := 2) (by decide) (by decide)]⟩
  have hstop : ∀ t ∈ [Token.space].head?, n.Stops t := by
    intro t ht d hd
    simp only [List.head?_cons, Option.mem_def, Option.some_inj] at ht
    subst ht
    exact absurd hd.not_space (by decide)
  have hp : e.PlainAhead [Token.space] := e.plain_char (by simp)
  have h := scanInt_reads_number e 0 [.char 45 .other] n [Token.space] [] hsigns hwf hstop hp
    (by decide)
  refine Triple.of_entails_wp (Triple.entails_wp_of_post h (PostCond.entails.mk ?_ ?_))
  · rintro v x ⟨-, hv, hx⟩
    have hval : n.value = 42 := by decide
    have hspace : (e.cmd Token.space).isSpace = true := by
      simp [Engine.cmd, e.meaning_char, Cmd.isSpace, Token.space, Token.isCat]
    simp only [Engine.ReadsAfterNumber, hspace, if_true] at hx
    exact ⟨by rw [hv, hval]; decide, hx⟩
  · exact ⟨fun _ _ hbig => absurd hbig.1 (by decide), trivial⟩

end EngineM

/-! ### `\number` as an expansion that reads exactly its operands -/

theorem Token.ofText_plain (e : Engine) (s : String) : ∀ p ∈ Token.ofText s, e.Plain p := by
  intro p hp
  simp only [Token.ofText, List.mem_map] at hp
  obtain ⟨c, -, rfl⟩ := hp
  split
  · exact e.plain_char (by decide)
  · exact e.plain_char (by decide)

theorem Token.ofText_toString_ne_nil (i : Int) : Token.ofText (toString i) ≠ [] := by
  cases i with
  | ofNat k => simp [Token.ofText, toString, Int.repr, Nat.toList_repr, Nat.toDigits_ne_nil]
  | negSucc k => simp [Token.ofText, toString, Int.repr]

theorem Numeral.stops_space (n : Numeral) : n.Stops Token.space := by
  cases n with
  | digits r ds => exact fun d h => by simpa [Token.space, Token.isCat] using Radix.Digit.not_space h
  | alpha t => trivial

/-- `\number` followed by signs, a number that fits a word and a space reads exactly those
tokens, whatever follows, and gives the decimal text of the value: an expansion that a
selected branch may hold (`Engine.Yields`). -/
theorem Engine.expandsTo_number (e : Engine) (m : Nat) {t : Token} {nm : String}
    (signs : List Token) (n : Numeral) (ht : e.meaning t = .primitive nm .number)
    (hsigns : ∀ u ∈ signs, u.IsSign) (hn : n.WellFormed) (hfit : n.value ≤ 2147483647)
    (hlen : signs.length + n.toks.length < 1000000000) (hlim : e.options.maxExpansions = 0)
    (hroom : ¬(0 < e.options.maxDepth ∧ e.options.maxDepth ≤ (e.inputs.length : Int) + 1)) :
    e.ExpandsTo (m + 4) t (signs ++ n.toks ++ [Token.space])
      (Token.ofText (toString ((-1) ^ signs.count (.char 45 .other) * (n.value : Int)))) := by
  refine ⟨by simp [ht], by simp [ht, Meaning.expands, Prim.expands],
    Token.ofText_toString_ne_nil _, Token.ofText_plain e _, ?_⟩
  intro R cs
  have hscan := EngineM.scanInt_reads e m signs n (Token.space :: R) cs hsigns hn
    (fun u hu => by simp at hu; subst hu; exact n.stops_space) (e.plain_char (by decide)) hlen
  have hsp : (e.cmd Token.space).isSpace = true := by
    simp [Engine.cmd, e.meaning_char, Cmd.isSpace, Token.space, Token.isCat]
  rw [ht, EngineM.expand]
  simp only [Prim.isConditional, List.append_assoc, List.singleton_append]
  rw [EngineM.expandPrimitive.eq_def]
  simp only
  mvcgen -trivial [hscan, EngineM.push, EngineM.fail, -EngineM.fail_keeps, -EngineM.push_keeps,
    -EngineM.emit_keeps, -EngineM.scanInt_keeps]
  case vc7 =>
    rename_i hfull
    obtain ⟨-, -, hs⟩ := ‹_ ∧ _ ∧ Engine.ReadsAfterNumber _ _ _ _›
    rw [Engine.ReadsAfterNumber, if_pos hsp] at hs
    exact absurd (by simpa using hfull) (hs.room hroom)
  all_goals simp_all +zetaDelta [Engine.reads_iff, pendingOf, Engine.ReadsAfterNumber]
end Galley
