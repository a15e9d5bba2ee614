import Galley.Engine.Boxes

/-!
# Assignments

Definitions (`\def` and its kin), `\let` and `\futurelet`, the `\chardef` family, register
and parameter assignments, arithmetic, codes, `\setbox`, box dimensions and fonts. Each
assignment is local unless prefixed by `\global` (or made by `\gdef` or `\xdef`).

Arithmetic is exact or fails: `\advance`, `\multiply` and `\divide` compute in wide
integers, and a result outside `±(2^31 - 1)` for integers or `±maxDimen` for dimensions
and glue components is an overflow that leaves the register unchanged. Arithmetic on a key
that holds no number (which only a register from a stored format can name) leaves it with
no value.
-/

namespace Galley

namespace EngineM

/-- Reads the parameter text and body of a definition of `name`; with `expand` the body is
expanded as it is read, `\the` giving its tokens unexpanded. -/
def scanMacro (n : Nat) (name : Token) (expand : Bool) : EngineM Macro := do
  let mut params : Array MacroElem := #[]
  let mut k : Nat := 0
  let mut braceDelimited := false
  let mut opener : Token := .char 123 .beginGroup
  for _ in [0:1000000000] do
    let some (t, _) ← next | runawayDefinition name
    if t.isCat .beginGroup then
      opener := t
      break
    if t.isCat .endGroup then fail .syntaxError (some t) "missing \x7b inserted"
    if t.isCat .parameter then
      let some (u, _) ← next | runawayDefinition name
      if u.isCat .beginGroup then
        braceDelimited := true
        opener := u
        params := params.push (.tok u)
        break
      if k = 9 then fail .syntaxError (some u) "you already have nine parameters"
      if u ≠ .char (49 + k) .other then
        fail .syntaxError (some u) "parameters must be numbered consecutively"
      k := k + 1
      params := params.push (.param k)
    else params := params.push (.tok t)
  let mut body : Array MacroElem := #[]
  let mut level : Nat := 1
  for _ in [0:1000000000] do
    let some (t, frozen) ← next | runawayDefinition name
    if expand ∧ !frozen then
      let d ← meaningOf t
      if d = .undefined then
        fail .undefinedControlSequence (some t) ("undefined control sequence " ++ t.text)
      if let .primitive _ .the := d then
        let l ← theToks n
        body := body ++ (l.map MacroElem.tok).toArray
        continue
      if d.expands then
        EngineM.expand n t d
        continue
    if t.isCat .beginGroup then level := level + 1
    else if t.isCat .endGroup then
      level := level - 1
      if level = 0 then
        if braceDelimited then body := body.push (.tok opener)
        return { params := params.toList, body := body.toList }
    else if t.isCat .parameter then
      let some (u, _) ← next | runawayDefinition name
      if u.isCat .parameter then
        body := body.push (.tok u)
        continue
      match u with
      | .char r .other =>
        if 49 ≤ r ∧ r < 49 + k then
          body := body.push (.param (r - 48))
          continue
      | _ => pure ()
      fail .syntaxError (some u) ("illegal parameter number in definition of " ++ name.text)
    body := body.push (.tok t)
  return { params := params.toList, body := body.toList }

end EngineM

/-- The command assigns: a font or register identifier, or an assigning primitive. -/
def Cmd.assigns (c : Cmd) : Bool :=
  match c.meaning with
  | .fontDef _ | .register .. => true
  | .primitive _ p => p.isAssignment
  | _ => false

def Cmd.isPrefix (c : Cmd) : Bool :=
  match c.meaning with
  | .primitive _ p => p.isPrefix
  | _ => false

def Cmd.isDefinition (c : Cmd) : Bool :=
  match c.meaning with
  | .primitive _ p => p.isDefinition
  | _ => false

namespace EngineM

/-- Assigns to key `k` the value of the kind it already holds, read after an optional `=`. -/
def assignValue (n : Nat) (c : Cmd) (k : Key) (global : Bool) : EngineM Unit := do
  scanOptionalEquals n
  match (← get).get k with
  | .int _ => assign k (.int (← scanInt n)) global
  | .dimen _ => assign k (.dimen (← scanDimen n)) global
  | .glue _ => assign k (.glue (← scanGlue n)) global
  | _ => fail .typeMismatch (some c.tok) (k.text ++ " is not a numeric quantity")

/-- The complaint about a token that is no quantity after `\advance` and its kin. -/
def notArithmetic (t : Token) : String :=
  "you can't use " ++ EngineError.tokenText t ++ " after an arithmetic command"

/-- The register or parameter an arithmetic command acts on. -/
def registerOf (n : Nat) (c : Cmd) : EngineM Key := do
  match c.meaning with
  | .register sp r => return { space := sp, n := r }
  | .primitive name p =>
    match p with
    | .count => return { space := .count, n := ← scanRegisterNum n c.tok }
    | .dimen => return { space := .dimen, n := ← scanRegisterNum n c.tok }
    | .skip => return { space := .skip, n := ← scanRegisterNum n c.tok }
    | .intParam | .dimenParam | .glueParam => return paramKey name p
    | _ => fail .typeMismatch (some c.tok) (notArithmetic c.tok)
  | _ => fail .typeMismatch (some c.tok) (notArithmetic c.tok)

/-- `x * v` or `x / v` (truncated), with whether a product stays within `±limit`. -/
def scaleWord (divide : Bool) (x v limit : Int) : Int × Bool :=
  if divide then (x.tdiv v, true)
  else
    let p := x * v
    (p, p ≤ limit ∧ p ≥ -limit)

/-- Fails because arithmetic by `t` leaves the range. -/
def overflowAt {α : Type} (t : Token) : EngineM α := fail .syntaxError (some t) "arithmetic overflow"

/-- `\advance`, `\multiply` or `\divide` (as `op`) read as `c`. -/
def arithmetic (n : Nat) (c : Cmd) (op : Prim) (global : Bool) : EngineM Unit := do
  let some r ← getXNonBlankNonRelax n | runaway c.tok
  let k ← registerOf n r
  let _ ← scanKeyword n "by"
  let cur := (← get).get k
  if op = .advance then
    match cur with
    | .int x =>
      let v ← scanInt n
      let s := x.toInt + v.toInt
      if s > 2147483647 ∨ s < -2147483647 then overflowAt c.tok
      assign k (.int (Int32.ofInt s)) global
    | .dimen x =>
      let v ← scanDimen n
      let s := x.toInt + v.toInt
      if s > 1073741823 ∨ s < -1073741823 then overflowAt c.tok
      assign k (.dimen (Int32.ofInt s)) global
    | .glue x =>
      let g ← scanGlue n
      assign k (.glue (x.add g)) global
    | _ => assign k .absent global
  else
    let v ← scanInt n
    let divide := op = .divide
    if divide ∧ v = 0 then overflowAt c.tok
    match cur with
    | .int x =>
      let (p, ok) := scaleWord divide x.toInt v.toInt 2147483647
      if !ok then overflowAt c.tok
      assign k (.int (Int32.ofInt p)) global
    | .dimen x =>
      let (p, ok) := scaleWord divide x.toInt v.toInt 1073741823
      if !ok then overflowAt c.tok
      assign k (.dimen (Int32.ofInt p)) global
    | .glue x =>
      let (w, ok1) := scaleWord divide x.width.toInt v.toInt 1073741823
      if !ok1 then overflowAt c.tok
      let (s, ok2) := scaleWord divide x.stretch.toInt v.toInt 1073741823
      if !ok2 then overflowAt c.tok
      let (h, ok3) := scaleWord divide x.shrink.toInt v.toInt 1073741823
      if !ok3 then overflowAt c.tok
      assign k (.glue { x with width := Int32.ofInt w, stretch := Int32.ofInt s,
                               shrink := Int32.ofInt h }) global
    | _ => assign k .absent global

/-- A font file name: characters up to a blank or a non-character. -/
def scanFileName (n : Nat) (t : Token) : EngineM String := do
  let mut cur ← getXNonBlank n
  let mut name := ""
  for _ in [0:1000000000] do
    match cur with
    | none => break
    | some c =>
      match c.char?, c.tok with
      | some tok, .char .. =>
        if tok.isCat .space then break
        name := name ++ (match tok with | .char r _ => codeText r | .cs _ => codeText 0)
        cur ← getX n
      | _, _ => break
  if let some c := cur then
    if !c.isSpace then backCmd c
  if name.isEmpty then fail .syntaxError (some t) "missing font name"
  return name

/-- `\font\cs=name`, optionally `at` a size or `scaled` a factor. -/
def newFont (n : Nat) (c : Cmd) (global : Bool) : EngineM Unit := do
  let t ← getRToken c.tok
  assign (meaningKey t) (.meaning .relax) global
  scanOptionalEquals n
  let name ← scanFileName n c.tok
  let mut size : Scaled := 655360
  if ← scanKeyword n "at" then
    let s ← scanDimen n
    if s ≤ 0 ∨ s ≥ 134217728 then
      fail .syntaxError (some c.tok) ("improper `at' size (" ++ s.toText ++ "), replaced by 10pt")
    size := s
  else if ← scanKeyword n "scaled" then
    let v ← scanInt n
    if v ≤ 0 ∨ v > 32768 then
      fail .syntaxError (some c.tok)
        ("illegal magnification has been changed to 1000 (" ++ toString v.toInt ++ ")")
    size := (Scaled.xnOverD size v 1000).1
  assign (meaningKey t) (.meaning (.fontDef ⟨name, size⟩)) global

/-- Carries out assignment `c`, global or not, `\long` for definitions. -/
def assignCmd (n : Nat) (c : Cmd) (global long : Bool) : EngineM Unit := do
  match c.meaning with
  | .fontDef f => assign { space := .font } (.font f) global
  | .register sp r => assignValue n c { space := sp, n := r } global
  | .primitive name p =>
    match p with
    | .defMacro | .gdefMacro | .edefMacro | .xdefMacro =>
      let global := global || p = .gdefMacro || p = .xdefMacro
      let t ← getRToken c.tok
      let m ← scanMacro n t (p = .edefMacro || p = .xdefMacro)
      assign (meaningKey t) (.meaning (.defined { m with long })) global
    | .letMeaning =>
      let t ← getRToken c.tok
      let some u ← nextNonBlank | runaway c.tok
      let u ← if u = .char 61 .other then
          match ← next with
          | none => runaway c.tok
          | some (u, _) =>
            if u.isCat .space then
              match ← next with
              | none => runaway c.tok
              | some (u, _) => pure u
            else pure u
        else pure u
      assign (meaningKey t) (.meaning (← meaningOf u)) global
    | .futureLet =>
      let t ← getRToken c.tok
      let some (first, ff) ← next | runaway c.tok
      let some (second, sf) ← next | runaway c.tok
      back second sf
      back first ff
      assign (meaningKey t) (.meaning (← meaningOf second)) global
    | .chardef | .countdef | .dimendef | .skipdef =>
      let t ← getRToken c.tok
      assign (meaningKey t) (.meaning .relax) global
      scanOptionalEquals n
      let d ← if p = .chardef then
          pure (Meaning.charDef (← scanCharNum n c.tok))
        else
          let r ← scanRegisterNum n c.tok
          let sp : Space := if p = .countdef then .count else if p = .dimendef then .dimen else .skip
          pure (Meaning.register sp r)
      assign (meaningKey t) (.meaning d) global
    | .count | .dimen | .skip =>
      let r ← scanRegisterNum n c.tok
      let sp : Space := if p = .dimen then .dimen else if p = .skip then .skip else .count
      assignValue n c { space := sp, n := r } global
    | .intParam | .dimenParam | .glueParam => assignValue n c (paramKey name p) global
    | .prevDepth =>
      if !(← get).mode.isVertical then fail .modeError (some c.tok) ("improper " ++ c.tok.text)
      scanOptionalEquals n
      let d ← scanDimen n
      let old := (← get).cur.prevDepth
      emit (.assign { space := .dimenpar, name } (.dimen old) (.dimen d) false)
      modifyCur fun f => { f with prevDepth := d }
    | .spaceFactor =>
      if (← get).mode.isVertical then fail .modeError (some c.tok) ("improper " ++ c.tok.text)
      scanOptionalEquals n
      let v ← scanInt n
      if v ≤ 0 ∨ v > 32767 then
        fail .syntaxError (some c.tok) ("bad space factor (" ++ toString v.toInt ++ ")")
      let old := (← get).cur.spaceFactor
      emit (.assign { space := .intpar, name } (.int old) (.int v) false)
      modifyCur fun f => { f with spaceFactor := v }
    | .advance | .multiply | .divide => arithmetic n c p global
    | .catcode | .sfcode =>
      let r ← scanCharNum n c.tok
      scanOptionalEquals n
      let v ← scanInt n
      if p = .catcode then
        if v < 0 ∨ v > 15 then
          fail .syntaxError (some c.tok)
            ("invalid code (" ++ toString v.toInt ++ "), should be in the range 0..15")
        assign { space := .catcode, n := r } (.category (Category.ofCode v.toInt.toNat)) global
      else
        if v < 0 ∨ v > 32767 then
          fail .syntaxError (some c.tok)
            ("invalid code (" ++ toString v.toInt ++ "), should be in the range 0..32767")
        assign { space := .sfcode, n := r } (.int v) global
    | .setbox =>
      let r ← scanRegisterNum n c.tok
      scanOptionalEquals n
      scanBox n c.tok { setbox := true, reg := r, global }
    | .boxDimen =>
      let r ← scanRegisterNum n c.tok
      scanOptionalEquals n
      let d ← scanDimen n
      match (← get).boxReg r with
      | none => pure ()
      | some b =>
        let nb := if name = "wd" then b.resized d b.height b.depth
          else if name = "ht" then b.resized b.width d b.depth
          else b.resized b.width b.height d
        let k : Key := { space := .box, n := r }
        modify fun e => { e with table := e.table.poke k (.box (some nb)) }
        emit (.assign k (.box (some b)) (.box (some nb)) false)
    | .font => newFont n c global
    | _ => fail .syntaxError (some c.tok) (c.tok.text ++ " is not an assignment")
  | _ => fail .syntaxError (some c.tok) (c.tok.text ++ " is not an assignment")

/-- An assignment with its prefixes: reads `\global`, `\long` and `\outer` up to the
command they prefix, which must assign; `\long` only before a definition. -/
def prefixed (n : Nat) (c : Cmd) : EngineM Unit := do
  let mut global := false
  let mut long := false
  let mut c := c
  for _ in [0:1000000000] do
    match c.meaning with
    | .primitive _ p =>
      if !p.isPrefix then break
      if p = .global then global := true
      else long := long || p = .long
      let pfx := c.tok
      let some c' ← getXNonBlankNonRelax n
        | fail .invalidPrefix (some pfx) (pfx.text ++ " at end of input")
      if !c'.assigns ∧ !c'.isPrefix then
        fail .invalidPrefix (some c'.tok) ("you can't use a prefix with " ++ EngineError.tokenText c'.tok)
      c := c'
    | _ => break
  if long ∧ !c.isDefinition then
    fail .invalidPrefix (some c.tok) ("you can't use \\long with " ++ EngineError.tokenText c.tok)
  assignCmd n c global long

end EngineM

end Galley
