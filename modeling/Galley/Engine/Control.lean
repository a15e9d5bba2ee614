import Galley.Engine.Assign

/-!
# Main control

Main control reads commands after expansion and carries them out according to the mode.
Characters start a paragraph in vertical mode; horizontal commands in vertical mode start
one and are read again, vertical commands in a paragraph end it and are read again. Braces
open and close simple groups, and the brace that closes a box's group packs the box.

`Engine.process` runs main control over a text to its end (or `\end`), closing any groups
left open by an error so that the table is back at level zero.
-/

namespace Galley

namespace EngineM

/-- The nesting budget of one command; far beyond the nesting of real input. -/
def budget : Nat := 100000000

/-- Typesets character `r`, starting a paragraph in vertical mode. -/
def typeset (r : Nat) : EngineM Unit := do
  if (← get).mode.isVertical then newParagraph true
  appendChar r

/-- A horizontal command in vertical mode starts a paragraph and is read again: answers
whether it was put back. -/
def horizontalCmd (c : Cmd) : EngineM Bool := do
  if !(← get).mode.isVertical then return false
  backCmd c
  newParagraph true
  return true

/-- A vertical command in a paragraph ends it and is read again; in a horizontal box it is
an error. Answers whether it was put back. -/
def verticalCmd (c : Cmd) : EngineM Bool := do
  match (← get).mode with
  | .horizontal =>
    backCmd c
    endParagraph
    return true
  | .restrictedHorizontal =>
    fail .modeError (some c.tok) ("you can't use " ++ c.tok.text ++ " in restricted horizontal mode")
  | _ => return false

/-- Closes the innermost group at a right brace: a simple group closes, a box's group packs
its box (ending an open paragraph first), anything else is an error. -/
def handleRightBrace (c : Cmd) : EngineM Unit := do
  match (← get).table.top? with
  | none => fail .unmatchedGroup (some c.tok) "too many \x7d's"
  | some (.simple _) => let _ ← closeGroup
  | some (.semiSimple _) =>
    fail .unmatchedGroup (some c.tok) "extra \x7d, or forgotten \\endgroup"
  | some (.boxBody _ vertical spec target) =>
    if (← get).mode = .horizontal then endParagraph
    let _ ← closeGroup
    let f ← popNest
    let (b, r) := if vertical then vpack f.list.toList spec else hpack f.list.toList spec
    packed b r
    boxEnd target (some b)

/-- A character command: letters and others are typeset, spaces become glue in horizontal
modes, braces open and close groups; math and alignment characters are errors. -/
def charCmd (c : Cmd) (t : Token) : EngineM Unit := do
  let m := (← get).mode
  match t with
  | .char r cat =>
    match cat with
    | .letter | .other => typeset r
    | .space => if !m.isVertical then appendSpace
    | .beginGroup => openGroup (.simple c.tok)
    | .endGroup => handleRightBrace c
    | .mathShift => fail .modeError (some c.tok) "math mode is not supported"
    | .alignTab => fail .modeError (some c.tok) ("misplaced alignment tab character " ++ codeText r)
    | .superscript | .subscript => fail .modeError (some c.tok) "missing $ inserted"
    | .parameter =>
      fail .modeError (some c.tok)
        ("you can't use macro parameter character " ++ codeText r ++ " in " ++ m.name ++ " mode")
    | _ => pure ()
  | .cs _ => pure ()

/-- The glue of `\hfil` and its kin, by the name after the first letter. -/
def fillGlue (name : String) : Glue :=
  match name.drop 1 |>.toString with
  | "fil" => Glue.fil
  | "fill" => Glue.fill
  | "ss" => Glue.ss
  | "filneg" => Glue.filneg
  | _ => {}

/-- The dimensions of a rule: the defaults of `\hrule` (a rule of vertical lists) or
`\vrule`, then any `width`, `height` and `depth` given, in any order and repeated. -/
def scanRuleSpec (n : Nat) (vertical : Bool) : EngineM (Scaled × Scaled × Scaled) := do
  let mut r : Scaled × Scaled × Scaled :=
    if vertical then (running, 26214, 0) else (26214, running, running)
  for _ in [0:1000000000] do
    let mut matched := false
    for kw in ["width", "height", "depth"] do
      if ← scanKeyword n kw then
        let d ← scanDimen n
        r := if kw = "width" then (d, r.2.1, r.2.2)
          else if kw = "height" then (r.1, d, r.2.2) else (r.1, r.2.1, d)
        matched := true
    if !matched then return r
  return r

/-- The end of the text: an open conditional or group is an error, and an open paragraph
is ended. -/
def finish : EngineM Unit := do
  let e ← get
  if let some c := e.conds.head? then
    fail .unmatchedConditional (some c.tok)
      ("end of input inside " ++ c.tok.text ++ " from line " ++ toString c.line)
  if e.table.depth > 0 then
    fail .unmatchedGroup none ("end of input inside a group at level " ++ toString e.table.depth)
  if e.mode = .horizontal then endParagraph

/-- Carries out a primitive command that neither assigns nor prefixes. -/
def primitiveCmd (n : Nat) (c : Cmd) (name : String) (p : Prim) : EngineM Unit := do
  match p with
  | .relax => pure ()
  | .par => if (← get).mode = .horizontal then endParagraph
  | .endcsname => fail .syntaxError (some c.tok) ("extra " ++ c.tok.text)
  | .beginGroup => openGroup (.semiSimple c.tok)
  | .endGroup =>
    match (← get).table.top? with
    | some (.semiSimple _) => let _ ← closeGroup
    | _ => fail .unmatchedGroup (some c.tok) ("extra " ++ c.tok.text)
  | .hskip | .hglue =>
    if ← horizontalCmd c then return
    let g ← if p = .hskip then scanGlue n else pure (fillGlue name)
    appendItem (.glue g .explicit)
  | .vskip | .vglue =>
    if ← verticalCmd c then return
    let g ← if p = .vskip then scanGlue n else pure (fillGlue name)
    appendItem (.glue g .explicit)
  | .kern => appendItem (.kern (← scanDimen n))
  | .hrule =>
    if ← verticalCmd c then return
    let (w, h, d) ← scanRuleSpec n true
    appendItem (.rule w h d)
    modifyCur fun f => { f with prevDepth := ignoreDepth }
  | .vrule =>
    if ← horizontalCmd c then return
    let (w, h, d) ← scanRuleSpec n false
    appendItem (.rule w h d)
    modifyCur fun f => { f with spaceFactor := 1000 }
  | .hbox | .vbox | .box | .copy => beginBox n c {}
  | .moveLeft | .moveRight | .raise | .lower =>
    let vertical := p = .moveLeft ∨ p = .moveRight
    let m := (← get).mode
    if m.isVertical ≠ vertical then
      fail .modeError (some c.tok) ("you can't use " ++ c.tok.text ++ " in " ++ m.name ++ " mode")
    let d ← scanDimen n
    let d := if p = .moveLeft ∨ p = .raise then -d else d
    scanBox n c.tok { shift := d }
  | .indent | .noindent =>
    if (← get).mode.isVertical then newParagraph (p = .indent)
    else if p = .indent then
      appendItem (.box { kind := .hlist, width := (← get).dimenParam "parindent" })
      modifyCur fun f => { f with spaceFactor := 1000 }
  | .char => typeset (← scanCharNum n c.tok)
  | .ignoreSpaces =>
    for _ in [0:1000000000] do
      let some c' ← getX n | return
      if !c'.isSpace then
        backCmd c'
        return
  | .message =>
    let l ← scanToks n c.tok true
    emit (.message (tokensText l))
  | .endJob =>
    let e ← get
    match e.mode with
    | .internalVertical | .restrictedHorizontal =>
      fail .modeError (some c.tok) ("you can't use " ++ c.tok.text ++ " in " ++ e.mode.name ++ " mode")
    | .horizontal =>
      if e.nest.length > 2 then
        fail .modeError (some c.tok) ("you can't use " ++ c.tok.text ++ " inside a box")
      backCmd c
      endParagraph
    | .vertical =>
      finish
      modify fun e => { e with done := true }
  | _ => fail .syntaxError (some c.tok) (c.tok.text ++ " cannot be used here")

/-- Carries out one command. -/
def dispatch (n : Nat) (c : Cmd) : EngineM Unit := do
  emit (.token c.tok)
  match c.meaning with
  | .charLet t => charCmd c t
  | .charDef code => typeset code
  | .fontDef _ | .register .. => prefixed n c
  | .primitive name p =>
    if p.isPrefix ∨ p.isAssignment then prefixed n c else primitiveCmd n c name p
  | _ => fail .undefinedControlSequence (some c.tok) ("undefined control sequence " ++ c.tok.text)

/-- Main control: commands until the text ends or `\end` is done. -/
def mainControl : EngineM Unit := do
  for _ in [0:1000000000] do
    if (← get).done then return
    let some c ← getX budget | finish; return
    dispatch budget c

/-- Closes every open group, logging the restored values. -/
def closeAll : EngineM Unit := do
  for _ in [0:(← get).table.depth] do
    let _ ← closeGroup

end EngineM

namespace Engine

/-- Processes a text: main control from the outer vertical mode with nothing pending. On
an error every open group is closed, and the error is answered beside the engine. -/
def process (e : Engine) (text : String) : Engine × Option EngineError :=
  let e := { e with lexer := some (Lexer.ofText text), inputs := [], conds := [], done := false,
                    expansions := 0, nest := [{ mode := .vertical }] }
  match (ExceptT.run EngineM.mainControl).run e with
  | (.ok (), e) => (e, none)
  | (.error err, e) => (((ExceptT.run EngineM.closeAll).run e).2, some err)

end Engine

end Galley
