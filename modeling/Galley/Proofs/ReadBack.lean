import Mathlib
import Galley.Proofs.DimensionText

/-!
# Printed values read back

`\the` prints a dimension as its decimal text and `pt`, and glue as the text of its width
followed by ` plus ` and ` minus ` parts for a non-zero stretch and shrink, each with the unit
of its order. `printed_values_read_back` says that this text reads back: the fraction digits
are the shortest that round back to the fraction (`Scaled.format_fraction_shortest`),
`scanDimen` returns the dimension, and `scanGlue` returns the glue, except that an order past
`filll`, which prints as `pt`, comes back as `normal` (`Glue.printed`).

The tokens of the text are taken apart once, by `Scaled.TextDigits` and
`Glue.toText_tokens`. Each piece is read by the lemma for its scan, and the runs are put
together along the path the scanners take (`printed_dimen_run`, `scanGlue_run`). What
follows the text must not continue it: `Engine.EndsDimen` and `Engine.EndsGlue`.
-/

namespace Galley

open Std.Do

/-! ### The tokens of a printed value -/

@[simp] theorem Token.ofText_append (a b : String) :
    Token.ofText (a ++ b) = Token.ofText a ++ Token.ofText b := by
  simp [Token.ofText]

namespace Scaled

/-- The tokens of the decimal text of `s`: a minus sign if `s` is negative, the whole digits
`ds` of `|s|`, a point, and at most five fraction digits `fs` that round back to the fraction
of `|s|`. -/
structure TextDigits (s : Scaled) (ds fs : List Nat) : Prop where
  tokens : Token.ofText s.format = (if s.toInt < 0 then [Token.char 45 .other] else []) ++
    (ds.map numeral ++ Token.char 46 .other :: fs.map numeral)
  whole_digits : ∀ d ∈ ds, d < 10
  whole_ne : ds ≠ []
  whole_value : digitsValue ds = s.toInt.natAbs / 65536
  whole_length : ds.length ≤ s.toInt.natAbs / 65536 + 1
  frac_digits : ∀ d ∈ fs, d < 10
  frac_length : fs.length ≤ 5
  frac_value : roundDecimals (fs.map Int32.ofNat) = Int32.ofNat (s.toInt.natAbs % 65536)

theorem textDigits (s : Scaled) : ∃ ds fs, s.TextDigits ds fs := by
  obtain ⟨ds, hds, hne, hdig, hval, hlen⟩ := toDigits_ten_eq (s.toInt.natAbs / 65536)
  have hf : s.toInt.natAbs % 65536 < 65536 := Nat.mod_lt _ (by norm_num)
  obtain ⟨fs, hrun, -, hfdig, hread, hflen, -⟩ := fractionDigits_shortest hf
  refine ⟨ds, fs, ?_, hdig, hne, hval, hlen, hfdig, hflen,
    (roundDecimals_eq_ofNat_iff hf hfdig (by omega)).2 hread⟩
  have hsign : Token.ofText (if s.toInt < 0 then "-" else "") =
      if s.toInt < 0 then [Token.char 45 .other] else [] := by
    split <;> rfl
  have hwhole : Token.ofText (toString (s.toInt.natAbs / 65536)) = ds.map numeral := by
    rw [← Token.ofText_digits hdig, ← hds]
    simp [toString, Nat.repr]
  simp only [format, Token.ofText_append, hsign, hwhole, hrun, Token.ofText_digits hfdig]
  simp [Token.ofText]

theorem ofNat_split (a : Nat) :
    Int32.ofNat (a / 65536) * 65536 + Int32.ofNat (a % 65536) = Int32.ofNat a := by
  conv_rhs => rw [← Nat.div_add_mod a 65536]
  rw [Int32.ofNat_add, Int32.ofNat_mul, Int32.mul_comm]
  rfl

theorem signed_natAbs (s : Scaled) (hs : s.toInt.natAbs < 2147483648) :
    (if s.toInt < 0 then -Int32.ofNat s.toInt.natAbs else Int32.ofNat s.toInt.natAbs) = s := by
  rw [← Int32.toInt_inj]
  split
  · rw [← Int32.ofInt_eq_ofNat, Int32.neg_ofInt, Int32.toInt_ofInt_of_le (by omega) (by omega)]
    omega
  · rw [Int32.toInt_ofNat_of_lt hs]
    omega

theorem natAbs_le_of_abs_le {s : Scaled} (hs : |s.toInt| ≤ maxDimen.toInt) :
    s.toInt.natAbs ≤ 1073741823 := by
  have hmax : maxDimen.toInt = 1073741823 := rfl
  rw [hmax, abs_le] at hs
  omega

end Scaled

theorem minusOdd_printed {sp : List Token} (hsp : sp = [] ∨ sp = [Token.space]) (p : Prop)
    [Decidable p] : minusOdd (sp ++ if p then [Token.char 45 .other] else []) = decide p := by
  rcases hsp with rfl | rfl <;> by_cases hp : p <;> simp [hp, minusOdd, Token.space]

/-- The order that the text of an order reads back as: a rank past three prints as points. -/
def Order.printed : Order → Order
  | .beyond _ => .normal
  | o => o

/-- The glue that the text of `g` reads back as. -/
def Glue.printed (g : Glue) : Glue :=
  { g with stretchOrder := g.stretchOrder.printed, shrinkOrder := g.shrinkOrder.printed }

/-- An order reads back as itself exactly when it is one of the named orders. -/
theorem Order.printed_eq_self_iff (o : Order) : o.printed = o ↔ ∀ r, o ≠ .beyond r := by
  cases o <;> simp [Order.printed]

theorem Glue.printed_eq_self_iff (g : Glue) :
    g.printed = g ↔ (∀ r, g.stretchOrder ≠ .beyond r) ∧ ∀ r, g.shrinkOrder ≠ .beyond r := by
  rw [← Order.printed_eq_self_iff, ← Order.printed_eq_self_iff]
  constructor
  · intro h
    exact ⟨congrArg Glue.stretchOrder h, congrArg Glue.shrinkOrder h⟩
  · rintro ⟨h1, h2⟩
    simp [Glue.printed, h1, h2]

theorem Order.name_tokens (o : Order) :
    ∃ c U, Token.ofText o.name = .char c .other :: U ∧ 57 < c := by
  cases o with
  | fil | fill | filll => exact ⟨102, _, rfl, by decide⟩
  | normal | beyond _ => exact ⟨112, [.char 116 .other], by simp only [Order.name]; rfl, by decide⟩

/-- What may follow a printed dimension for its text to read back: the end of the input, or
a token read plainly that is no blank. -/
def Engine.EndsDimen (e : Engine) (rest : List Token) : Prop :=
  e.PlainAhead rest ∧ ∀ t ∈ rest.head?, (e.cmd t).isSpace = false

/-- What may follow printed glue for its text to read back: what may follow a dimension, and
no token that continues a keyword of glue, `plus`, `minus` or the `l`s of an infinite unit.
`\relax` and the end of the input are such. -/
def Engine.EndsGlue (e : Engine) (rest : List Token) : Prop :=
  e.EndsDimen rest ∧ ∀ t ∈ rest.head?, ∀ k ∈ ['p', 'm', 'l'], ¬ (e.cmd t).Spells k

/-- Glue whose text reads back: each component at most `maxDimen` in size, and a zero stretch
or shrink of order `normal`, as its text leaves it out. -/
structure Glue.Printable (g : Glue) : Prop where
  width : |g.width.toInt| ≤ Scaled.maxDimen.toInt
  stretch : |g.stretch.toInt| ≤ Scaled.maxDimen.toInt
  shrink : |g.shrink.toInt| ≤ Scaled.maxDimen.toInt
  stretch_order : g.stretch = 0 → g.stretchOrder = .normal
  shrink_order : g.shrink = 0 → g.shrinkOrder = .normal

theorem Engine.unit_letter (e : Engine) {c : Nat} (hc : 57 < c) :
    e.Plain (.char c .other) ∧ (∀ k, ¬ Radix.decimal.Digit (.char c .other) k) ∧
      (e.cmd (.char c .other)).isSpace = false := by
  refine ⟨e.plain_char (by simp), fun k hk => ?_, e.cmd_other_isSpace c⟩
  obtain ⟨hk, heq⟩ := Radix.decimal_digit_iff.1 hk
  simp only [numeral, Token.char.injEq] at heq
  omega

namespace EngineM

/-- A decimal constant after its first digit `d`, then a unit: the value of the digits
attached to the rounded fraction, negated if `neg`, in the order of the unit. -/
theorem scanDimenAfter_reads (m : Nat) (e : Engine) (d : Nat) (ds fs : List Nat) (c : Nat)
    (U : List Token) (o : Order) (toks : List Token) (cs : List Cond) (neg fil : Bool)
    (hdigits : ∀ x ∈ d :: ds, x < 10) (hfs : ∀ x ∈ fs, x < 10)
    (hwhole : Scaled.digitsValue (d :: ds) < 16384) (hlen : ds.length + fs.length < 999999999)
    (hc : 57 < c) (hU : UnitText m e fil (.char c .other :: U) o toks cs) :
    ⦃fun x => ⌜x.Reads e (ds.map numeral ++ .char 46 .other ::
      (fs.map numeral ++ .char c .other :: U)) cs⌝⦄
      scanDimenAfter (m + 4) (e.cmd (numeral d)) neg fil
    ⦃⇓ r x => ⌜r = (let v := Int32.ofNat (Scaled.digitsValue (d :: ds)) * 65536 +
        Scaled.roundDecimals (fs.map Int32.ofNat); if neg then -v else v, o) ∧
      x.Ahead e toks cs⌝⦄ := by
  obtain ⟨hu, hstop, husp⟩ := e.unit_letter hc
  have hW : (Int32.ofNat (Scaled.digitsValue (d :: ds))).toInt = Scaled.digitsValue (d :: ds) :=
    Int32.toInt_ofNat_of_lt (by omega)
  have hnonneg : ¬ Int32.ofNat (Scaled.digitsValue (d :: ds)) < 0 := by
    rw [Int32.lt_iff_toInt_lt, hW]
    simp
  have hsmall : ¬ Int32.ofNat (Scaled.digitsValue (d :: ds)) ≥ 16384 := by
    rw [ge_iff_le, Int32.le_iff_toInt_le, hW]
    simp
    omega
  apply triple_of_run
  intro x hx
  obtain ⟨x1, h1, hx1⟩ := run_of_spec (scanDecimal_reads e (m + 1) d ds fs _ U cs hdigits hfs
    (by omega) hu hstop hlen) hx
  obtain ⟨x2, h2, hx2⟩ := run_of_spec (hU _ (Scaled.roundDecimals (fs.map Int32.ofNat)) hsmall)
    (Engine.Ahead.of_afterNumber hx1 (by simpa using husp))
  refine ⟨_, x2, ?_, rfl, hx2⟩
  have hd : d < 10 := hdigits d (by simp)
  have h96 : ¬ 48 + d = 96 := by omega
  have h39 : ¬ 48 + d = 39 := by omega
  have h34 : ¬ 48 + d = 34 := by omega
  rw [scanDimenAfter]
  simp only [numeral, e.cmd_isOther, e.cmd_level (show Category.other ≠ .active by simp),
    beq_iff_eq, h96, h39, h34, or_self, if_false]
  replace h1 : (scanDecimal (m + 3) (e.cmd (.char (48 + d) .other))).run.run x = _ := h1
  rw [run_bind_ok h1]
  simp only [hnonneg, if_false]
  rw [run_bind_ok h2]
  rfl

theorem unitText_name (m : Nat) (e : Engine) (o : Order) (bs toks : List Token) (cs : List Cond)
    (hbs : bs = [] ∨ bs = [Token.space]) (hp : e.PlainAhead toks)
    (hstop : ∀ t ∈ toks.head?, (e.cmd t).isSpace = false ∧ ¬ (e.cmd t).Spells 'l') :
    UnitText m e true (Token.ofText o.name ++ (bs ++ toks)) o.printed toks cs := by
  have hsp : ∀ t ∈ toks.head?, (e.cmd t).isSpace = false := fun t ht => (hstop t ht).1
  have hblank : ∀ b ∈ bs, b = Token.space := by rcases hbs with rfl | rfl <;> simp
  have hlen : bs.length < 999999999 := by rcases hbs with rfl | rfl <;> simp
  have hfil := fun j hj => unitText_fil m e j hj bs toks cs hblank hlen hp hstop
  cases o with
  | normal => exact unitText_pt m e true bs toks cs hbs hp hsp
  | fil => exact hfil 0 (by omega)
  | fill => exact hfil 1 (by omega)
  | filll => exact hfil 2 (by omega)
  | beyond _ => exact unitText_pt m e true bs toks cs hbs hp hsp

/-- The text of `s` after at most one blank, then a unit read as order `o`: the sign loop
stops at the first digit with the sign of `s`, and the rest of the number and its unit give
`s` in order `o`. -/
theorem printed_dimen_run (m : Nat) (e : Engine) (s : Scaled)
    (hs : |s.toInt| ≤ Scaled.maxDimen.toInt) (sp : List Token) (hsp : sp = [] ∨ sp = [Token.space])
    (fil : Bool) (c : Nat) (hc : 57 < c) (U : List Token) (o : Order) (toks : List Token)
    (cs : List Cond) (hU : UnitText m e fil (.char c .other :: U) o toks cs) (x : Engine)
    (hx : x.Reads e (sp ++ (Token.ofText s.format ++ .char c .other :: U)) cs) :
    ∃ first neg x1 x2, (scanSigns (m + 4)).run.run x = (.ok (first, neg), x1) ∧
      first.level? = none ∧ (scanDimenAfter (m + 4) first neg fil).run.run x1 = (.ok (s, o), x2) ∧
      x2.Ahead e toks cs := by
  obtain ⟨ds, fs, hT⟩ := s.textDigits
  obtain ⟨d, ds, rfl⟩ := List.exists_cons_of_ne_nil hT.whole_ne
  have habs := Scaled.natAbs_le_of_abs_le hs
  have hd : d < 10 := hT.whole_digits d (by simp)
  have hwhole : Scaled.digitsValue (d :: ds) < 16384 := by
    rw [hT.whole_value]
    omega
  have hlen : ds.length + fs.length < 999999999 := by
    have := hT.whole_length
    have := hT.frac_length
    simp at *
    omega
  have hsigns : ∀ t ∈ sp ++ (if s.toInt < 0 then [Token.char 45 .other] else []), t.IsSign := by
    intro t ht
    have ht' : t = Token.space ∨ t = Token.char 45 .other := by
      rcases hsp with rfl | rfl <;> split at ht <;> simp_all
    rcases ht' with rfl | rfl <;> simp [Token.IsSign, Token.space]
  have hx' : x.Reads e ((sp ++ if s.toInt < 0 then [Token.char 45 .other] else []) ++
      .char (48 + d) .other :: (ds.map numeral ++ .char 46 .other ::
        (fs.map numeral ++ .char c .other :: U))) cs := by
    rw [hT.tokens] at hx
    simpa [numeral] using hx
  obtain ⟨x1, h1, hx1⟩ := run_of_spec (scanSigns_reads e (m + 2) _ (48 + d) _ cs hsigns
    (by omega) (by rcases hsp with rfl | rfl <;> split <;> simp)) hx'
  obtain ⟨x2, h2, hx2⟩ := run_of_spec (scanDimenAfter_reads m e d ds fs c U o toks cs
    (minusOdd (sp ++ if s.toInt < 0 then [Token.char 45 .other] else [])) fil hT.whole_digits
    hT.frac_digits hwhole hlen hc hU) hx1
  refine ⟨_, _, x1, x2, h1, e.cmd_level (by simp), ?_, hx2⟩
  rw [show e.cmd (.char (48 + d) .other) = e.cmd (numeral d) from rfl, h2,
    minusOdd_printed hsp, hT.whole_value, hT.frac_value, Scaled.ofNat_split]
  simp only [decide_eq_true_eq]
  rw [Scaled.signed_natAbs s (by omega)]

/-- A printed dimension, then at most one blank and `toks`: read in points up to `toks`. -/
theorem printed_points_run (m : Nat) (e : Engine) (s : Scaled)
    (hs : |s.toInt| ≤ Scaled.maxDimen.toInt) (fil : Bool) (bs toks : List Token) (cs : List Cond)
    (hbs : bs = [] ∨ bs = [Token.space]) (hp : e.PlainAhead toks)
    (hsp : ∀ t ∈ toks.head?, (e.cmd t).isSpace = false) (x : Engine)
    (hx : x.Reads e (Token.ofText s.toText ++ (bs ++ toks)) cs) :
    ∃ first neg x1 x2, (scanSigns (m + 4)).run.run x = (.ok (first, neg), x1) ∧
      first.level? = none ∧
      (scanDimenAfter (m + 4) first neg fil).run.run x1 = (.ok (s, .normal), x2) ∧
      x2.Ahead e toks cs := by
  have hU := unitText_pt m e fil bs toks cs hbs hp hsp
  rw [Token.ofText_pt] at hU
  exact printed_dimen_run m e s hs [] (.inl rfl) fil 112 (by omega) _ .normal toks cs hU x
    (by simpa [Scaled.toText, Token.ofText_pt] using hx)

theorem scanDimenOrder_run {n : Nat} {fil : Bool} {x x1 x2 : Engine} {first : Cmd} {neg : Bool}
    {v : Scaled × Order} (h1 : (scanSigns n).run.run x = (.ok (first, neg), x1))
    (h2 : (scanDimenAfter n first neg fil).run.run x1 = (.ok v, x2)) :
    (scanDimenOrder (n + 1) fil).run.run x = (.ok v, x2) := by
  rw [scanDimenOrder, run_bind_ok h1]
  exact h2

/-- A printed dimension followed by `rest` reads back as itself, and leaves `rest` to be read. -/
theorem scanDimen_printed (m : Nat) (e : Engine) (s : Scaled) (rest : List Token)
    (cs : List Cond) (hs : |s.toInt| ≤ Scaled.maxDimen.toInt) (hrest : e.EndsDimen rest) :
    ⦃fun x => ⌜x.Reads e (Token.ofText s.toText ++ rest) cs⌝⦄ scanDimen (m + 5)
    ⦃⇓ r x => ⌜r = s ∧ x.Ahead e rest cs⌝⦄ := by
  apply triple_of_run
  intro x hx
  obtain ⟨first, neg, x1, x2, h1, -, h2, hx2⟩ := printed_points_run m e s hs false [] rest cs
    (.inl rfl) hrest.1 hrest.2 x (by simpa using hx)
  refine ⟨s, x2, ?_, rfl, hx2⟩
  rw [scanDimen, run_bind_ok (scanDimenOrder_run h1 h2)]
  rfl

end EngineM

/-! ### Glue -/

/-- The blank before an optional part of glue text, which the unit before it reads: one
space if the part is printed, else the blanks `bs` that follow the part. -/
def partLead (s : Scaled) (bs : List Token) : List Token :=
  if s = 0 then bs else [Token.space]

theorem partLead_blank (s : Scaled) {bs : List Token} (hbs : bs = [] ∨ bs = [Token.space]) :
    partLead s bs = [] ∨ partLead s bs = [Token.space] := by
  unfold partLead
  split
  · exact hbs
  · exact .inr rfl

/-- An optional part of glue text after its blank: the keyword `kw`, a space, the value `s`
and the unit of `o`, then `bs ++ toks`; only `toks` when `s` is zero and is not printed. -/
def partBody (kw : String) (s : Scaled) (o : Order) (bs toks : List Token) : List Token :=
  if s = 0 then toks else
    Token.ofText kw ++ Token.space ::
      (Token.ofText s.format ++ (Token.ofText o.name ++ (bs ++ toks)))

/-- The tokens of glue text: the width and `pt`, then each printed part after its blank. -/
theorem Glue.toText_tokens (g : Glue) (rest : List Token) :
    Token.ofText g.toText ++ rest = Token.ofText g.width.toText ++
      (partLead g.stretch (partLead g.shrink []) ++
        partBody "plus" g.stretch g.stretchOrder (partLead g.shrink [])
          (partBody "minus" g.shrink g.shrinkOrder [] rest)) := by
  have hplus : Token.ofText " plus " = Token.space :: (Token.ofText "plus" ++ [Token.space]) := rfl
  have hminus : Token.ofText " minus " = Token.space :: (Token.ofText "minus" ++ [Token.space]) :=
    rfl
  by_cases h1 : g.stretch = 0 <;> by_cases h2 : g.shrink = 0 <;>
    simp [Glue.toText, Scaled.toText, partLead, partBody, h1, h2, hplus, hminus]

/-- What follows the blank of an optional part reads plainly and is no blank; it spells no
letter of `ks` when the keyword of the part starts with none of them. -/
theorem Engine.partBody_ends (e : Engine) (kw : String) (hkw : Keyword kw) (s : Scaled)
    (o : Order) (bs : List Token) {toks : List Token} (ks : List Char)
    (hks : ∀ k ∈ ks, ∀ k' ∈ kw.toList.head?, k'.toNat ≠ k.toNat ∧ k'.toNat ≠ k.toUpper.toNat)
    (hp : e.PlainAhead toks)
    (hstop : ∀ t ∈ toks.head?, (e.cmd t).isSpace = false ∧ ∀ k ∈ ks, ¬ (e.cmd t).Spells k) :
    e.PlainAhead (partBody kw s o bs toks) ∧ ∀ t ∈ (partBody kw s o bs toks).head?,
      (e.cmd t).isSpace = false ∧ ∀ k ∈ ks, ¬ (e.cmd t).Spells k := by
  unfold partBody
  split
  · exact ⟨hp, hstop⟩
  · obtain ⟨k', l, hk⟩ := List.exists_cons_of_ne_nil hkw.1
    rw [Token.ofText_keyword hkw, hk]
    simp only [List.map_cons, List.cons_append, List.head?_cons, Option.mem_def,
      Option.some.injEq, forall_eq']
    refine ⟨e.plain_char (by simp), e.cmd_other_isSpace _, fun k hk' => ?_⟩
    rw [e.cmd_spells k (by simp)]
    have := hks k hk' k' (by simp [hk])
    omega

namespace EngineM

/-- What the scan of an optional part does from `x`: it refuses the keyword when the value is
zero of order `normal`, or reads the keyword and then the dimension `(s, o)`, ending at `y`. -/
def PartRun (n : Nat) (kw : String) (x : Engine) (s : Scaled) (o : Order) (y : Engine) : Prop :=
  (s = 0 ∧ o = .normal ∧ (scanKeyword n kw).run.run x = (.ok false, y)) ∨
    ∃ x', (scanKeyword n kw).run.run x = (.ok true, x') ∧
      (scanDimenOrder n true).run.run x' = (.ok (s, o), y)

/-- The glue scan along its path through a number that is no internal quantity: the width,
then its two optional parts. -/
theorem scanGlue_run {n : Nat} {x x1 x2 x3 x4 : Engine} {first : Cmd} {neg : Bool}
    {w s s' : Scaled} {o o' o0 : Order}
    (h1 : (scanSigns n).run.run x = (.ok (first, neg), x1)) (hl : first.level? = none)
    (h2 : (scanDimenAfter n first neg false).run.run x1 = (.ok (w, o0), x2))
    (hplus : PartRun n "plus" x2 s o x3) (hminus : PartRun n "minus" x3 s' o' x4) :
    (scanGlue n).run.run x = (.ok
      { width := w, stretch := s, stretchOrder := o, shrink := s', shrinkOrder := o' }, x4) := by
  rw [scanGlue, run_bind_ok h1]
  simp only [hl, reduceCtorEq, if_false]
  rw [run_bind_ok h2]
  rcases hplus with ⟨rfl, rfl, hk⟩ | ⟨x', hk, hd⟩ <;> rw [run_bind_ok hk] <;>
    simp only [Bool.false_eq_true, if_false, if_true]
  all_goals try rw [run_bind_ok hd]
  all_goals
    rcases hminus with ⟨rfl, rfl, hk'⟩ | ⟨x'', hk', hd'⟩ <;> rw [run_bind_ok hk'] <;>
      simp only [Bool.false_eq_true, if_false, if_true]
  all_goals try rw [run_bind_ok hd']
  all_goals rfl

/-- An optional part of glue text, present or not, followed by blanks `bs` and `toks`: the
scan of the part gives its value and printed order, and leaves `toks` to be read. -/
theorem part_reads (m : Nat) (e : Engine) (kw : String) (hkw : Keyword kw)
    (hlen : kw.toList.length < 999999999) (s : Scaled) (o : Order)
    (hs : |s.toInt| ≤ Scaled.maxDimen.toInt) (hzero : s = 0 → o = .normal)
    (bs toks : List Token) (cs : List Cond) (hbs : bs = [] ∨ bs = [Token.space])
    (hp : e.PlainAhead toks)
    (hstop : ∀ t ∈ toks.head?, (e.cmd t).isSpace = false ∧ ¬ (e.cmd t).Spells 'l' ∧
      ∀ k ∈ kw.toList.head?, ¬ (e.cmd t).Spells k)
    (x : Engine) (hx : x.Ahead e (partBody kw s o bs toks) cs) :
    ∃ y, PartRun (m + 5) kw x s o.printed y ∧ y.Ahead e toks cs := by
  by_cases h0 : s = 0
  · rw [partBody, if_pos h0] at hx
    obtain ⟨y, hrun, hy⟩ := run_of_spec (scanKeyword_refuses (m + 3) kw e [] toks cs hkw
      (by simp) (by simp; omega) hp fun t ht => ⟨(hstop t ht).1, (hstop t ht).2.2⟩) hx
    exact ⟨y, .inl ⟨h0, by rw [hzero h0]; rfl, hrun⟩, hy⟩
  · rw [partBody, if_neg h0] at hx
    obtain ⟨x1, h1, hx1⟩ := run_of_spec (scanKeyword_matches (m + 3) kw e _ cs hkw
      (by omega)) hx
    obtain ⟨c, U, hname, hc⟩ := o.name_tokens
    have hU := unitText_name m e o bs toks cs hbs hp fun t ht => ⟨(hstop t ht).1, (hstop t ht).2.1⟩
    rw [hname] at hU hx1
    obtain ⟨first, neg, x2, x3, h2, -, h3, hx3⟩ := printed_dimen_run m e s hs [Token.space]
      (.inr rfl) true c hc _ o.printed toks cs hU x1 (by simpa using hx1)
    exact ⟨x3, .inr ⟨x1, h1, scanDimenOrder_run h2 h3⟩, hx3⟩

/-- Printed glue followed by `rest` reads back as itself with its orders as printed, and
leaves `rest` to be read. -/
theorem scanGlue_printed (m : Nat) (e : Engine) (g : Glue) (rest : List Token) (cs : List Cond)
    (hg : g.Printable) (hrest : e.EndsGlue rest) :
    ⦃fun x => ⌜x.Reads e (Token.ofText g.toText ++ rest) cs⌝⦄ scanGlue (m + 5)
    ⦃⇓ r x => ⌜r = g.printed ∧ x.Ahead e rest cs⌝⦄ := by
  apply triple_of_run
  intro x hx
  rw [g.toText_tokens] at hx
  set bs2 := partLead g.shrink []
  set toks2 := partBody "minus" g.shrink g.shrinkOrder [] rest
  set bs1 := partLead g.stretch bs2
  set toks1 := partBody "plus" g.stretch g.stretchOrder bs2 toks2
  have hbs2 : bs2 = [] ∨ bs2 = [Token.space] := partLead_blank _ (.inl rfl)
  have hsub : ['p', 'l'] ⊆ ['p', 'm', 'l'] := by decide
  obtain ⟨hp2, hstop2⟩ := e.partBody_ends "minus" (by simp [Keyword]) g.shrink
    g.shrinkOrder [] ['p', 'l'] (by simp) hrest.1.1 fun t ht =>
      ⟨hrest.1.2 t ht, fun k hk => hrest.2 t ht k (hsub hk)⟩
  obtain ⟨hp1, hstop1⟩ := e.partBody_ends "plus" (by simp [Keyword]) g.stretch
    g.stretchOrder bs2 [] (by simp) hp2 fun t ht => ⟨(hstop2 t ht).1, by simp⟩
  obtain ⟨first, neg, x1, x2, h1, hl, h2, hx2⟩ := printed_points_run (m + 1) e g.width hg.width
    false bs1 toks1 cs (partLead_blank _ hbs2) hp1 (fun t ht => (hstop1 t ht).1) x hx
  obtain ⟨x3, hplus, hx3⟩ := part_reads m e "plus" (by simp [Keyword]) (by simp) g.stretch
    g.stretchOrder hg.stretch hg.stretch_order bs2 toks2 cs hbs2 hp2
    (fun t ht => ⟨(hstop2 t ht).1, (hstop2 t ht).2 'l' (by simp),
      by simpa using (hstop2 t ht).2 'p' (by simp)⟩) x2 hx2
  obtain ⟨x4, hminus, hx4⟩ := part_reads m e "minus" (by simp [Keyword]) (by simp) g.shrink
    g.shrinkOrder hg.shrink hg.shrink_order [] rest cs (.inl rfl) hrest.1.1
    (fun t ht => ⟨hrest.1.2 t ht, hrest.2 t ht 'l' (by simp),
      by simpa using hrest.2 t ht 'm' (by simp)⟩) x3 hx3
  exact ⟨_, x4, scanGlue_run h1 hl h2 hplus hminus, rfl, hx4⟩

end EngineM

/-! ### Reading printed values back -/

/-- `\the` prints values that read back. The fraction of a scaled value is printed as the
shortest non-empty string of digits that rounds back to it, at most five of them; a
dimension of at most `maxDimen` in size, printed and followed by the end of the input or a
token such as `\relax`, reads back as itself; printable glue reads back as itself with its
orders as printed. -/
theorem printed_values_read_back :
    (∀ s : Scaled, ∃ ds : List Nat, s.format = (if s.toInt < 0 then "-" else "") ++
        toString (s.toInt.natAbs / 65536) ++ "." ++ String.ofList (ds.map Scaled.digitChar) ∧
      ds ≠ [] ∧ ds.length ≤ 5 ∧ (∀ d ∈ ds, d < 10) ∧
      Scaled.roundDecimals (ds.map Int32.ofNat) = Int32.ofNat (s.toInt.natAbs % 65536) ∧
      ∀ ds' : List Nat, ds' ≠ [] → (∀ d ∈ ds', d < 10) →
        Scaled.roundDecimals (ds'.map Int32.ofNat) = Int32.ofNat (s.toInt.natAbs % 65536) →
        ds.length ≤ ds'.length) ∧
    (∀ (m : Nat) (e : Engine) (s : Scaled) (rest : List Token) (cs : List Cond),
      |s.toInt| ≤ Scaled.maxDimen.toInt → e.EndsDimen rest →
      ⦃fun x => ⌜x.Reads e (Token.ofText s.toText ++ rest) cs⌝⦄ EngineM.scanDimen (m + 5)
      ⦃⇓ r x => ⌜r = s ∧ x.Ahead e rest cs⌝⦄) ∧
    (∀ (m : Nat) (e : Engine) (g : Glue) (rest : List Token) (cs : List Cond),
      g.Printable → e.EndsGlue rest →
      ⦃fun x => ⌜x.Reads e (Token.ofText g.toText ++ rest) cs⌝⦄ EngineM.scanGlue (m + 5)
      ⦃⇓ r x => ⌜r = g.printed ∧ x.Ahead e rest cs⌝⦄) :=
  ⟨Scaled.format_fraction_shortest, EngineM.scanDimen_printed, EngineM.scanGlue_printed⟩

/-- In a fresh engine, `-1.5pt plus 1.0fil` at the end of the input reads back as the glue
it prints. -/
theorem printed_fil_glue_reads_back :
    let e := Engine.create {}
    let g : Glue := { width := -98304, stretch := 65536, stretchOrder := .fil }
    ⦃fun x => ⌜x.Reads e (Token.ofText g.toText ++ []) []⌝⦄ EngineM.scanGlue 5
    ⦃⇓ r x => ⌜r = g ∧ x.Ahead e [] []⌝⦄ := by
  intro e g
  have hg : g.Printable := ⟨by decide, by decide, by decide, by decide, fun _ => rfl⟩
  have hend : e.EndsGlue [] := ⟨⟨⟨rfl, rfl⟩, by simp⟩, by simp⟩
  exact printed_values_read_back.2.2 0 e g [] [] hg hend

/-- Glue whose stretch has an order past `filll` does not read back as itself: its text
prints that order as `pt`, so the stretch reads back finite. -/
theorem glue_beyond_filll_reads_back_finite :
    let e := Engine.create {}
    let g : Glue := { stretch := 65536, stretchOrder := .beyond 4 }
    ⦃fun x => ⌜x.Reads e (Token.ofText g.toText ++ []) []⌝⦄ EngineM.scanGlue 5
    ⦃⇓ r _ => ⌜r ≠ g ∧ r = { stretch := 65536 }⌝⦄ := by
  intro e g
  have hg : g.Printable := ⟨by decide, by decide, by decide, fun h => absurd h (by decide),
    fun _ => rfl⟩
  have hend : e.EndsGlue [] := ⟨⟨⟨rfl, rfl⟩, by simp⟩, by simp⟩
  have hne : g.printed ≠ g := fun h => (g.printed_eq_self_iff.1 h).1 4 rfl
  refine Triple.entails_wp_of_post (EngineM.scanGlue_printed 0 e g [] [] hg hend)
    (PostCond.entails.mk ?_ ?_)
  · rintro r x ⟨rfl, -⟩
    exact ⟨hne, rfl⟩
  · exact ⟨fun _ _ h => h, trivial⟩

end Galley
