import Galley.Engine.State

/-!
# Building lists

Characters go onto the current horizontal list with the metrics of the current font, and
update the space factor from their `\sfcode`; spaces become interword glue scaled by the
space factor. A paragraph is a horizontal list begun with `\parskip` glue and an indent
box, and ended by dropping a last glue, adding `\parfillskip` and packing it at its natural
width. No lines are broken: a paragraph is one box.

Boxes enter a vertical list with interline glue before them: `\baselineskip` less the
previous depth and the box's height, or `\lineskip` when that would come below
`\lineskiplimit`. A previous depth of `-1000pt` suppresses the glue.
-/

namespace Galley

namespace EngineM

/-- Logs a packed box with its report. -/
def packed (b : Box) (r : PackReport) : EngineM Unit := emit (.boxPacked b r)

/-- Appends a box to the current vertical list, with interline glue before it. -/
def appendToVList (b : Box) : EngineM Unit := do
  let e ← get
  let f := e.cur
  if f.prevDepth > ignoreDepth then
    let bs := e.glueParam "baselineskip"
    let d := bs.width - f.prevDepth - b.height
    if d < e.dimenParam "lineskiplimit" then
      appendItem (.glue (e.glueParam "lineskip") .lineskip)
    else
      appendItem (.glue { bs with width := d } .baselineskip)
  appendItem (.box b)
  modifyCur fun f => { f with prevDepth := b.depth }

/-- Appends character `r` in the current font, or logs it as missing. -/
def appendChar (r : Nat) : EngineM Unit := do
  let e ← get
  let fnt := e.curFont
  match fnt.metrics r with
  | none => emit (.missing (.char r .other) fnt.name)
  | some (w, h, d) =>
    let sf := e.sfcode r
    appendItem (.char fnt.name r w h d)
    modifyCur fun f =>
      { f with spaceFactor :=
          if sf = 1000 then 1000
          else if sf < 1000 then (if sf > 0 then sf else f.spaceFactor)
          else if f.spaceFactor < 1000 then 1000
          else sf }

/-- Appends the glue for a space: `\xspaceskip` after a sentence end (space factor 2000 or
more) if it is set, else `\spaceskip` or the font's space, its stretch and shrink scaled by
the space factor. -/
def appendSpace : EngineM Unit := do
  let e ← get
  let f := e.cur
  let xs := e.glueParam "xspaceskip"
  if f.spaceFactor ≥ 2000 ∧ !xs.isZero then
    appendItem (.glue xs .interword)
    return
  let g := e.glueParam "spaceskip"
  let g := if g.isZero then e.curFont.spaceGlue else g
  let sf := f.spaceFactor
  let g := if sf ≠ 1000 then
      { g with stretch := (Scaled.xnOverD g.stretch sf 1000).1,
               shrink := (Scaled.xnOverD g.shrink 1000 sf).1 }
    else g
  appendItem (.glue g .interword)

/-- Starts a paragraph: `\parskip` glue on the enclosing list (unless it is an empty inner
list), horizontal mode, and an indent box of width `\parindent` if `indent`. -/
def newParagraph (indent : Bool) : EngineM Unit := do
  let e ← get
  let f := e.cur
  if f.mode = .vertical ∨ !f.list.isEmpty then
    appendItem (.glue (e.glueParam "parskip") .parskip)
  pushNest .horizontal
  if indent then appendItem (.box { kind := .hlist, width := (← get).dimenParam "parindent" })

/-- Ends a paragraph: drops a last glue, adds `\parfillskip`, packs the list at its natural
width and appends the box to the enclosing vertical list. An empty paragraph adds nothing. -/
def endParagraph : EngineM Unit := do
  let e ← get
  let f := e.cur
  if f.list.isEmpty then
    let _ ← popNest
    return
  let list := match f.list.back? with
    | some (.glue ..) => f.list.pop
    | _ => f.list
  let list := list.push (.glue (e.glueParam "parfillskip") .parfillskip)
  let (b, r) := hpack list.toList {}
  packed b r
  let _ ← popNest
  appendToVList b

/-- Where a finished box goes: into a register, or onto the current list (shifted), with
interline glue in vertical mode. A void box goes nowhere. -/
def boxEnd (target : BoxTarget) (b : Option Box) : EngineM Unit := do
  if target.setbox then
    assign { space := .box, n := target.reg } (.box b) target.global
    return
  let some b := b | return
  let b := if target.shift ≠ 0 then b.shifted target.shift else b
  if (← get).mode.isVertical then
    appendToVList b
  else
    appendItem (.box b)
    modifyCur fun f => { f with spaceFactor := 1000 }

end EngineM

end Galley
