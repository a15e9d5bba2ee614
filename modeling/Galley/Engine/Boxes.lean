import Galley.Engine.Scan
import Galley.Engine.Lists

/-!
# Beginning boxes

`\hbox` and `\vbox` read an optional `to` or `spread` size and a left brace, open a group
for the box's body and enter restricted horizontal or internal vertical mode; the box is
packed when its group closes. `\box` takes a register's box and empties the register;
`\copy` takes it and leaves it.
-/

namespace Galley

namespace EngineM

/-- Begins the box command `c`, whose result goes to `target`. -/
def beginBox (n : Nat) (c : Cmd) (target : BoxTarget) : EngineM Unit := do
  match c.meaning with
  | .primitive _ p =>
    if p = .box ∨ p = .copy then
      let r ← scanRegisterNum n c.tok
      let b := (← get).boxReg r
      if p = .box then
        if let some old := b then
          let k : Key := { space := .box, n := r }
          modify fun e => { e with table := e.table.poke k (.box none) }
          emit (.assign k (.box (some old)) (.box none) false)
      boxEnd target b
      return
    let mut spec : PackSpec := {}
    if ← scanKeyword n "to" then
      spec := { exactly := true, size := ← scanDimen n }
    else if ← scanKeyword n "spread" then
      spec := { size := ← scanDimen n }
    scanLeftBrace n c.tok
    openGroup (.boxBody c.tok (p = .vbox) spec target)
    pushNest (if p = .vbox then .internalVertical else .restrictedHorizontal)
  | _ => pure ()

/-- Reads a box command for `t` after blanks and `\relax` and begins it. -/
def scanBox (n : Nat) (t : Token) (target : BoxTarget) : EngineM Unit := do
  let some c ← getXNonBlankNonRelax n | fail .syntaxError (some t) "a <box> was supposed to be here"
  if c.isPrim .hbox ∨ c.isPrim .vbox ∨ c.isPrim .box ∨ c.isPrim .copy then beginBox n c target
  else fail .syntaxError (some c.tok) "a <box> was supposed to be here"

end EngineM

end Galley
