import Galley.Engine.Expand

/-!
# Scanning glue, braces and token lists

The scanners main control needs beyond numbers and dimensions: glue with `plus` and
`minus` parts, an optional `=`, a left brace (explicit or by `\let`), a balanced token list
(expanded or not), and the control sequence that a definition names.
-/

namespace Galley

namespace EngineM

def scanDimen (n : Nat) : EngineM Scaled := do
  let (d, _) ← scanDimenOrder n false
  return d

/-- Glue: an internal glue (negated after a minus sign), or a dimension followed by an
optional `plus` and an optional `minus` part, each of which may be infinite. -/
def scanGlue (n : Nat) : EngineM Glue := do
  let (c, neg) ← scanSigns n
  if c.level? = some .glue then
    let v ← scanInternal n c
    let g := v.glueValue
    return if neg then g.neg else g
  let (w, _) ← scanDimenAfter n c neg false
  let mut g : Glue := { width := w }
  if ← scanKeyword n "plus" then
    let (s, o) ← scanDimenOrder n true
    g := { g with stretch := s, stretchOrder := o }
  if ← scanKeyword n "minus" then
    let (s, o) ← scanDimenOrder n true
    g := { g with shrink := s, shrinkOrder := o }
  return g

def getXNonBlankNonRelax (n : Nat) : EngineM (Option Cmd) := do
  for _ in [0:1000000000] do
    let some c ← getX n | return none
    if !c.isSpace ∧ !c.isPrim .relax then return some c
  return none

def scanOptionalEquals (n : Nat) : EngineM Unit := do
  let some c ← getXNonBlank n | return
  if !c.isOther 61 then backCmd c

/-- Reads the left brace that must follow `t`, after blanks and `\relax`. -/
def scanLeftBrace (n : Nat) (t : Token) : EngineM Unit := do
  let some c ← getXNonBlankNonRelax n | fail .syntaxError (some t) "missing \x7b inserted"
  match c.char? with
  | some u => if !u.isCat .beginGroup then fail .syntaxError (some c.tok) "missing \x7b inserted"
  | none => fail .syntaxError (some c.tok) "missing \x7b inserted"

def runawayDefinition {α : Type} (t : Token) : EngineM α :=
  fail .runawayArgument (some t) ("file ended while scanning definition of " ++ t.text)

/-- A balanced token list in braces after `t`, expanded as it is read if `expand`. -/
def scanToks (n : Nat) (t : Token) (expand : Bool) : EngineM (List Token) := do
  scanLeftBrace n t
  let mut out : Array Token := #[]
  let mut level : Nat := 1
  for _ in [0:1000000000] do
    let u ← if expand then
        match ← getX n with
        | some c => pure c.tok
        | none => runawayDefinition t
      else
        match ← next with
        | some (u, _) => pure u
        | none => runawayDefinition t
    if u.isCat .beginGroup then level := level + 1
    else if u.isCat .endGroup then
      level := level - 1
      if level = 0 then return out.toList
    out := out.push u
  return out.toList

/-- The control sequence or active character a definition by `t` names. -/
def getRToken (t : Token) : EngineM Token := do
  let some u ← nextNonBlank | runaway t
  if !Token.hasMeaning u then fail .syntaxError (some u) "missing control sequence inserted"
  return u

end EngineM

end Galley
