import Galley.Engine.Macro
import Galley.Engine.Skip

/-!
# Expansion and the scanners of quantities

`getX` reads the next command, expanding macros and expandable primitives until a token
is left that main control carries out. Expansion and scanning call each other: `\number`
scans an integer, and scanning an integer expands what it reads. They form one family of
functions here, each taking a budget `n` of nesting depth that every call spends one of;
the budget is far deeper than any nesting of real input, so it only keeps the family total.

The scanners follow TeX's grammar for quantities: integers with signs, octal, hex and
alphabetic constants; dimensions with decimal fractions and units, `true` ignored, `em`
and `ex` from the current font, physical units converted exactly; internal quantities
(registers, parameters, codes, box dimensions) wherever a number may stand; and keywords,
matched case-insensitively, with everything read put back when one does not match.
-/

namespace Galley

/-- The three kinds of internal quantities. -/
inductive Level where
  | int
  | dimen
  | glue
deriving DecidableEq, Repr, Inhabited

/-- An internal quantity as read: an integer or dimension word, or glue. -/
inductive Quantity where
  | word (n : Int32)
  | glue (g : Glue)
deriving Inhabited

namespace Quantity

/-- The value of a table entry as a quantity; anything not numeric reads as zero. -/
def ofEquivalent : Equivalent → Quantity
  | .int n => .word n
  | .dimen d => .word d
  | .glue g => .glue g
  | _ => .word 0

def n : Quantity → Int32
  | .word n => n
  | .glue _ => 0

def glueValue : Quantity → Glue
  | .glue g => g
  | .word _ => {}

end Quantity

/-- The kind of internal quantity a command stands for, if it stands for one. -/
def Cmd.level? (c : Cmd) : Option Level :=
  match c.meaning with
  | .charDef _ => some .int
  | .register .dimen _ => some .dimen
  | .register .skip _ => some .glue
  | .register _ _ => some .int
  | .primitive _ p =>
    match p with
    | .count | .intParam | .spaceFactor | .catcode | .sfcode => some .int
    | .dimen | .dimenParam | .prevDepth | .boxDimen => some .dimen
    | .skip | .glueParam => some .glue
    | _ => none
  | _ => none

def paramKey (name : String) : Prim → Key
  | .intParam => { space := .intpar, name }
  | .dimenParam => { space := .dimenpar, name }
  | _ => { space := .gluepar, name }

/-- The value of a digit token in `radix`: `0`–`9` of category other, and for hex also
`A`–`F` of category other or letter. Frozen tokens and control sequences are no digits. -/
def Cmd.digit? (c : Cmd) (radix : Nat) : Option Nat :=
  if c.frozen then none
  else match c.tok with
    | .char r cat =>
      if cat = .other ∧ 48 ≤ r ∧ r ≤ 57 ∧ r - 48 < radix then some (r - 48)
      else if radix = 16 ∧ (cat = .other ∨ cat = .letter) ∧ 65 ≤ r ∧ r ≤ 70 then some (r - 55)
      else none
    | .cs _ => none

/-- The code and category `\if` and `\ifcat` compare: a frozen active character is itself,
a character (explicit or by `\let`) gives its code and category, and anything else gives
code 256 and category 16. -/
def Cmd.charCode (c : Cmd) : Nat × Nat :=
  match c.frozen, c.tok with
  | true, .char r .active => (r, 13)
  | _, _ =>
    match c.char? with
    | some (.char r cat) => (r, cat.code)
    | some (.cs _) => (0, 0)
    | none => (256, 16)

/-- Lowercase roman numerals; nothing for a number below one. -/
def romanNumeral (n : Int) : String :=
  let table : List (Nat × String) :=
    [(1000, "m"), (900, "cm"), (500, "d"), (400, "cd"), (100, "c"), (90, "xc"), (50, "l"),
     (40, "xl"), (10, "x"), (9, "ix"), (5, "v"), (4, "iv"), (1, "i")]
  let rec go : List (Nat × String) → Nat → String
    | [], _ => ""
    | (v, s) :: rest, k => String.join (List.replicate (k / v) s) ++ go rest (k % v)
  if n ≤ 0 then "" else go table n.toNat

namespace EngineM

def tooDeep {α : Type} : EngineM α :=
  fail .resourceExhausted none "expansion nested too deeply"

def missingNumber {α : Type} : EngineM α := do
  fail .syntaxError (← get).last "missing number, treated as zero"

/-- Fails because command `c` cannot begin a number. -/
def notNumber {α : Type} (c : Cmd) : EngineM α :=
  match c.meaning with
  | .fontDef _ => fail .typeMismatch (some c.tok) "a font is not a number"
  | .primitive _ p =>
    if p = .box ∨ p = .copy ∨ p = .hbox ∨ p = .vbox ∨ p = .setbox ∨ p = .font then
      fail .typeMismatch (some c.tok) ("you can't use " ++ c.tok.text ++ " where a number is required")
    else fail .syntaxError (some c.tok) "missing number, treated as zero"
  | _ => fail .syntaxError (some c.tok) "missing number, treated as zero"

/-- The text `\string` gives for a token: a character itself, a control sequence's name
after the escape character (none when `\escapechar` is no code). -/
def printToken (t : Token) : EngineM String := do
  match t with
  | .char c _ => return codeText c
  | .cs n =>
    let esc := (← get).intParam "escapechar"
    if 0 ≤ esc ∧ esc ≤ 0x10FFFF then return codeText esc.toInt.toNat ++ n else return n

def setCondLimit (idx : Nat) (l : CondLimit) : EngineM Unit :=
  modify fun e =>
    let k := e.conds.length - 1 - idx
    { e with conds := e.conds.modify k fun c => { c with limit := l } }

def truncateConds (idx : Nat) : EngineM Unit :=
  modify fun e => { e with conds := e.conds.drop (e.conds.length - idx) }

mutual

/-- The next command after expansion, `none` at the end of the text. -/
def getX : Nat → EngineM (Option Cmd)
  | 0 => tooDeep
  | n + 1 => do
    for _ in [0:1000000000] do
      let some (t, frozen) ← next | return none
      if frozen then return some { tok := t, meaning := .relax, frozen := true }
      let d ← meaningOf t
      if d = .undefined then
        fail .undefinedControlSequence (some t) ("undefined control sequence " ++ t.text)
      if !d.expands then return some { tok := t, meaning := d }
      expand n t d
    return none

/-- Expands token `t` of meaning `d`, counting the expansion against the limit. -/
def expand : Nat → Token → Meaning → EngineM Unit
  | 0, _, _ => tooDeep
  | n + 1, t, d => do
    modify fun e => { e with expansions := e.expansions + 1 }
    let e ← get
    if e.options.maxExpansions > 0 ∧ e.expansions > e.options.maxExpansions then
      fail .resourceExhausted (some t)
        ("expansion limit " ++ toString e.options.maxExpansions ++ " exceeded")
    match d with
    | .defined m => macroCall t m
    | .primitive _ op =>
      if op.isConditional then conditional n t op
      else if op = .fi ∨ op = .elseBranch ∨ op = .orBranch then condEnd t op
      else expandPrimitive n t op
    | _ => pure ()

/-- Expands one of the primitives that produce tokens. -/
def expandPrimitive : Nat → Token → Prim → EngineM Unit
  | 0, _, _ => tooDeep
  | n + 1, t, op => do
    match op with
    | .expandAfter =>
      let some (first, ff) ← next | runaway t
      let some (second, sf) ← next | runaway t
      emit (.primitive t.text [first, second] false 0)
      let d ← meaningOf second
      if !sf ∧ d.expands then expand n second d else back second sf
      back first ff
    | .noExpand =>
      let some (u, frozen) ← next | runaway t
      let d ← meaningOf u
      back u (frozen || d == .undefined || d.expands)
      emit (.primitive t.text [u] false 0)
    | .csname =>
      let mut name := ""
      for _ in [0:1000000000] do
        let some c ← getX n | runaway t
        if c.isPrim .endcsname then break
        if c.tok.isCS ∨ c.frozen then
          fail .syntaxError (some c.tok) "missing \\endcsname inserted"
        match c.tok with
        | .char code _ => name := name ++ codeText code
        | .cs _ => pure ()
      let cs := Token.cs name
      if (← meaningOf cs) = .undefined then assign (meaningKey cs) (.meaning .relax) false
      back cs false
      emit (.primitive t.text [cs] false 0)
    | _ =>
      let out ← match op with
        | .string =>
          let some (u, _) ← next | runaway t
          pure (Token.ofText (← printToken u))
        | .number => do
          let v ← scanInt n
          pure (Token.ofText (toString v.toInt))
        | .romannumeral => do
          let v ← scanInt n
          pure (Token.ofText (romanNumeral v.toInt))
        | .the => theToks n
        | .meaning =>
          let some (u, frozen) ← next | runaway t
          let m ← if frozen then pure Meaning.relax else meaningOf u
          pure (Token.ofText m.text)
        | .jobname => do pure (Token.ofText (← get).options.jobName)
        | _ => pure []
      emit (.primitive t.text out false 0)
      push out t

/-- Begins conditional `op` read as `t`: evaluates its test and skips the branches not
taken. -/
def conditional : Nat → Token → Prim → EngineM Unit
  | 0, _, _ => tooDeep
  | n + 1, t, op => do
    let e ← get
    let idx := e.conds.length
    set { e with conds := { limit := .inTest, tok := t, line := e.line } :: e.conds }
    if op = .ifCase then
      let v ← scanInt n
      emit (.primitive t.text [] false v)
      let mut k := v
      for _ in [0:1000000000] do
        if k = 0 then break
        let term ← passText t
        if (← get).conds.length - 1 ≠ idx then
          if term = .fi then modify fun e => { e with conds := e.conds.drop 1 }
          continue
        match term with
        | .orBranch => k := k - 1
        | .elseBranch => setCondLimit idx .fiOnly; return
        | _ => truncateConds idx; return
      setCondLimit idx .orElseFi
      return
    let b ← test n t op
    emit (.primitive t.text [] b 0)
    if b then
      setCondLimit idx .elseOrFi
      return
    for _ in [0:1000000000] do
      let term ← passText t
      if (← get).conds.length - 1 ≠ idx then
        if term = .fi then modify fun e => { e with conds := e.conds.drop 1 }
        continue
      match term with
      | .fi => truncateConds idx; return
      | .elseBranch => setCondLimit idx .fiOnly; return
      | _ => fail .unmatchedConditional (some t) "extra \\or"

/-- The outcome of the test of conditional `op` read as `t`. -/
def test : Nat → Token → Prim → EngineM Bool
  | 0, _, _ => tooDeep
  | n + 1, t, op => do
    match op with
    | .ifTrue => return true
    | .ifFalse => return false
    | .ifChar | .ifCat =>
      let some a ← getX n | runaway t
      let some b ← getX n | runaway t
      let (ca, ka) := a.charCode
      let (cb, kb) := b.charCode
      return if op = .ifChar then ca == cb else ka == kb
    | .ifNum =>
      let a ← scanInt n
      let rel ← scanRelation n t
      let b ← scanInt n
      return if rel = 60 then a < b else if rel = 62 then a > b else a == b
    | .ifDim =>
      let (a, _) ← scanDimenOrder n false
      let rel ← scanRelation n t
      let (b, _) ← scanDimenOrder n false
      return if rel = 60 then a < b else if rel = 62 then a > b else a == b
    | .ifOdd =>
      let v ← scanInt n
      return v % 2 ≠ 0
    | .ifX =>
      let some (a, af) ← next | runaway t
      let some (b, bf) ← next | runaway t
      let da ← if af then pure Meaning.relax else meaningOf a
      let db ← if bf then pure Meaning.relax else meaningOf b
      return da.same db
    | .ifVMode => return (← get).mode.isVertical
    | .ifHMode => return !(← get).mode.isVertical
    | .ifInner =>
      let m := (← get).mode
      return m = .internalVertical ∨ m = .restrictedHorizontal
    | .ifVoid | .ifHBox | .ifVBox =>
      let r ← scanRegisterNum n t
      match (← get).boxReg r with
      | none => return op = .ifVoid
      | some b =>
        return if op = .ifHBox then b.kind = .hlist else if op = .ifVBox then b.kind = .vlist else false
    | _ => return false

def getXNonBlank : Nat → EngineM (Option Cmd)
  | 0 => tooDeep
  | n + 1 => do
    for _ in [0:1000000000] do
      let some c ← getX n | return none
      if !c.isSpace then return some c
    return none

/-- A relation `<`, `=` or `>` (as its code) after blanks, for conditional `t`. -/
def scanRelation : Nat → Token → EngineM Nat
  | 0, _ => tooDeep
  | n + 1, t => do
    let some c ← getXNonBlank n | runaway t
    for r in [60, 61, 62] do
      if c.isOther r then return r
    fail .syntaxError (some c.tok) ("missing = inserted for " ++ t.text)

/-- Blanks and signs before a number: the first other command and whether the signs make
it negative. -/
def scanSigns : Nat → EngineM (Cmd × Bool)
  | 0 => tooDeep
  | n + 1 => do
    let mut neg := false
    for _ in [0:1000000000] do
      let some c ← getX n | missingNumber
      if c.isSpace ∨ c.isOther 43 then continue
      if c.isOther 45 then
        neg := !neg
        continue
      return (c, neg)
    missingNumber

def scanInt : Nat → EngineM Int32
  | 0 => tooDeep
  | n + 1 => do
    let (c, neg) ← scanSigns n
    let v ← scanIntAfter n c
    return if neg then -v else v

/-- An integer whose first command `c` has been read: an alphabetic constant, an internal
quantity, or digits in radix ten, eight (after `'`) or sixteen (after `"`). One space after
the digits is consumed. -/
def scanIntAfter : Nat → Cmd → EngineM Int32
  | 0, _ => tooDeep
  | n + 1, c => do
    if c.isOther 96 then
      let some (t, _) ← next | missingNumber
      let code ← match t with
        | .char r _ => pure r
        | .cs name =>
          if name.length = 1 then pure name.front.toNat
          else fail .syntaxError (some t) "improper alphabetic constant"
      skipOptionalSpace n
      return Int32.ofNat code
    match c.level? with
    | some lvl =>
      let v ← scanInternal n c
      return if lvl = .glue then v.glueValue.width else v.n
    | none =>
      let mut radix := 10
      let mut cur : Option Cmd := some c
      if c.isOther 39 then
        radix := 8
        cur ← getX n
      else if c.isOther 34 then
        radix := 16
        cur ← getX n
      let mut acc : Nat := 0
      let mut digits := 0
      for _ in [0:1000000000] do
        match cur with
        | none => break
        | some c' =>
          match c'.digit? radix with
          | none => break
          | some d =>
            acc := acc * radix + d
            digits := digits + 1
            if acc > 2147483647 then fail .syntaxError (some c'.tok) "number too big"
            cur ← getX n
      if digits = 0 then
        match cur with
        | none => missingNumber
        | some c' => notNumber c'
      match cur with
      | some c' => if !c'.isSpace then backCmd c'
      | none => pure ()
      return Int32.ofNat acc

/-- The value of internal quantity `c`, reading the register or code number it needs. -/
def scanInternal : Nat → Cmd → EngineM Quantity
  | 0, _ => tooDeep
  | n + 1, c => do
    let e ← get
    match c.meaning with
    | .charDef code => return .word (Int32.ofNat code)
    | .register sp r => return Quantity.ofEquivalent (e.get { space := sp, n := r })
    | .primitive name p =>
      match p with
      | .count | .dimen | .skip =>
        let r ← scanRegisterNum n c.tok
        let sp : Space := if p = .dimen then .dimen else if p = .skip then .skip else .count
        return Quantity.ofEquivalent ((← get).get { space := sp, n := r })
      | .intParam | .dimenParam | .glueParam =>
        return Quantity.ofEquivalent (e.get (paramKey name p))
      | .spaceFactor =>
        if e.mode.isVertical then fail .modeError (some c.tok) ("improper " ++ c.tok.text)
        return .word e.cur.spaceFactor
      | .prevDepth =>
        if !e.mode.isVertical then fail .modeError (some c.tok) ("improper " ++ c.tok.text)
        return .word e.cur.prevDepth
      | .catcode =>
        let ch ← scanCharNum n c.tok
        return .word (Int32.ofNat ((← get).category ch).code)
      | .sfcode =>
        let ch ← scanCharNum n c.tok
        return Quantity.ofEquivalent ((← get).get { space := .sfcode, n := ch })
      | .boxDimen =>
        let r ← scanRegisterNum n c.tok
        match (← get).boxReg r with
        | none => return .word 0
        | some b =>
          return .word (if name = "wd" then b.width else if name = "ht" then b.height else b.depth)
      | _ =>
        fail .typeMismatch (some c.tok) ("you can't use " ++ EngineError.tokenText c.tok ++ " here")
    | _ => fail .typeMismatch (some c.tok) ("you can't use " ++ EngineError.tokenText c.tok ++ " here")

def scanRegisterNum : Nat → Token → EngineM Nat
  | 0, _ => tooDeep
  | n + 1, t => do
    let v ← scanInt n
    if v < 0 ∨ v > 255 then
      fail .registerOutOfRange (some t) ("bad register code (" ++ toString v.toInt ++ ")")
    return v.toInt.toNat

def scanCharNum : Nat → Token → EngineM Nat
  | 0, _ => tooDeep
  | n + 1, t => do
    let v ← scanInt n
    if v < 0 ∨ v > 0x10FFFF then
      fail .syntaxError (some t) ("bad character code (" ++ toString v.toInt ++ ")")
    return v.toInt.toNat

def skipOptionalSpace : Nat → EngineM Unit
  | 0 => tooDeep
  | n + 1 => do
    let some c ← getX n | return
    if !c.isSpace then backCmd c

/-- A dimension, or with `fil` also an infinite stretch such as `2fill`, with its order. -/
def scanDimenOrder : Nat → Bool → EngineM (Scaled × Order)
  | 0, _ => tooDeep
  | n + 1, fil => do
    let (c, neg) ← scanSigns n
    scanDimenAfter n c neg fil

/-- A dimension whose first command `c` has been read, negated if `neg`. -/
def scanDimenAfter : Nat → Cmd → Bool → Bool → EngineM (Scaled × Order)
  | 0, _, _, _ => tooDeep
  | n + 1, c, neg, fil => do
    let mut whole : Int32 := 0
    let mut frac : Int32 := 0
    match c.level? with
    | some lvl =>
      let v ← scanInternal n c
      if lvl ≠ .int then
        let d := if lvl = .glue then v.glueValue.width else v.n
        return (if neg then -d else d, .normal)
      whole := v.n
    | none =>
      if c.isOther 96 ∨ c.isOther 39 ∨ c.isOther 34 then
        whole ← scanIntAfter n c
      else
        let (w, f) ← scanDecimal n c
        whole := w
        frac := f
    let mut neg := neg
    if whole < 0 then
      neg := !neg
      whole := -whole
    let (d, o) ← scanUnits n whole frac fil
    return (if neg then -d else d, o)

/-- A decimal number with an optional fraction after `.` or `,`, as whole part and
fraction in scaled points. -/
def scanDecimal : Nat → Cmd → EngineM (Int32 × Int32)
  | 0, _ => tooDeep
  | n + 1, c => do
    let mut acc : Nat := 0
    let mut digits := 0
    let mut cur : Option Cmd := some c
    for _ in [0:1000000000] do
      match cur with
      | none => break
      | some c' =>
        match c'.digit? 10 with
        | none => break
        | some d =>
          acc := acc * 10 + d
          digits := digits + 1
          if acc > 2147483647 then fail .syntaxError (some c'.tok) "number too big"
          cur ← getX n
    let mut frac : Int32 := 0
    match cur with
    | some c' =>
      if c'.isOther 46 ∨ c'.isOther 44 then
        let mut ds : Array Int32 := #[]
        for _ in [0:1000000000] do
          cur ← getX n
          match cur with
          | none => break
          | some c'' =>
            match c''.digit? 10 with
            | none => break
            | some d => ds := ds.push (Int32.ofNat d)
        frac := Scaled.roundDecimals ds.toList
        digits := digits + 1
    | none => pure ()
    if digits = 0 then
      match cur with
      | none => missingNumber
      | some c' => notNumber c'
    match cur with
    | some c' => if !c'.isSpace then backCmd c'
    | none => pure ()
    return (Int32.ofNat acc, frac)

/-- Checks that `whole` points fit and forms `whole + frac/2^16` points. -/
def attach (whole frac : Int32) : EngineM Scaled := do
  if whole ≥ 16384 then fail .syntaxError (← get).last "dimension too large"
  return whole * 65536 + frac

/-- The unit after the number `whole + frac/2^16`: an infinite order (with `fil`), an
internal dimension or glue, `em`, `ex`, `true`, `pt`, a physical unit, or `sp`. -/
def scanUnits : Nat → Int32 → Int32 → Bool → EngineM (Scaled × Order)
  | 0, _, _, _ => tooDeep
  | n + 1, whole, frac, fil => do
    if fil then
      if ← scanKeyword n "fil" then
        let mut order := Order.fil
        for _ in [0:1000000000] do
          if !(← scanKeyword n "l") then break
          if order = .filll then
            fail .syntaxError (← get).last "illegal unit of measure (replaced by filll)"
          order := if order = .fil then .fill else .filll
        let d ← attach whole frac
        skipOptionalSpace n
        return (d, order)
    match ← getXNonBlank n with
    | some c =>
      match c.level? with
      | some lvl =>
        if lvl ≠ .int then
          let v ← scanInternal n c
          let u := if lvl = .glue then v.glueValue.width else v.n
          let (d, ok) := Scaled.scaleBy u whole frac
          if !ok then fail .syntaxError (some c.tok) "dimension too large"
          return (d, .normal)
        backCmd c
      | none => backCmd c
    | none => pure ()
    for kw in ["em", "ex"] do
      if ← scanKeyword n kw then
        let f := (← get).curFont
        let u := if kw = "em" then f.size
          else match f.metrics 120 with
            | some (_, h, _) => h
            | none => f.size * 43 / 100
        let (d, ok) := Scaled.scaleBy u whole frac
        if !ok then fail .syntaxError (← get).last "dimension too large"
        skipOptionalSpace n
        return (d, .normal)
    let _ ← scanKeyword n "true"
    if ← scanKeyword n "pt" then
      let d ← attach whole frac
      skipOptionalSpace n
      return (d, .normal)
    for kw in ["in", "pc", "cm", "mm", "bp", "dd", "cc"] do
      if ← scanKeyword n kw then
        let (d, ok) := Scaled.scale whole frac ((Scaled.unitNamed? kw).getD ⟨1, 1⟩)
        if !ok then fail .syntaxError (← get).last "dimension too large"
        skipOptionalSpace n
        return (d, .normal)
    if ← scanKeyword n "sp" then
      if whole > Scaled.maxDimen then fail .syntaxError (← get).last "dimension too large"
      skipOptionalSpace n
      return (whole, .normal)
    fail .syntaxError (← get).last "illegal unit of measure"

/-- Matches keyword `kw` (lowercase) case-insensitively after blanks; when it does not
match, puts back every token read after the blanks. -/
def scanKeyword : Nat → String → EngineM Bool
  | 0, _ => tooDeep
  | n + 1, kw => do
    let chars := kw.toList
    let mut matched : Array Token := #[]
    for _ in [0:1000000000] do
      match chars[matched.size]? with
      | none => return true
      | some k =>
        let some c ← getX n
          | backList matched.toList
            return false
        let fits : Bool := match c.frozen, c.tok with
          | false, .char r cat =>
            cat != .active && (r == k.toNat || r + 32 == k.toNat)
          | _, _ => false
        if fits then
          matched := matched.push c.tok
          continue
        if c.isSpace ∧ matched.isEmpty then continue
        backCmd c
        backList matched.toList
        return false
    return true

/-- The tokens `\the` gives for the next command: a font identifier itself, or the text of
an internal quantity. -/
def theToks : Nat → EngineM (List Token)
  | 0 => tooDeep
  | n + 1 => do
    let some c ← getX n | missingNumber
    if let .fontDef _ := c.meaning then return [c.tok]
    match c.level? with
    | none =>
      fail .typeMismatch (some c.tok) ("you can't use " ++ EngineError.tokenText c.tok ++ " after \\the")
    | some lvl =>
      let v ← scanInternal n c
      return match lvl with
        | .int => Token.ofText (toString v.n.toInt)
        | .dimen => Token.ofText (Scaled.toText v.n)
        | .glue => Token.ofText v.glueValue.toText

end

end EngineM

end Galley
