import Galley.Engine.Input

/-!
# Skipping conditional text

A conditional that is false skips tokens without expanding them until the `\else`, `\or`
or `\fi` that belongs to it: conditionals met on the way nest, and only a terminator at
nesting level zero counts. A terminator read by main control ends the current branch:
`\else` and `\or` skip on to the matching `\fi`. One that arrives while a test is still
being read is put back behind a frozen `\relax`, which ends the test.
-/

namespace Galley

namespace EngineM

/-- Skips tokens up to the next `\fi`, `\else` or `\or` at nesting level zero, and answers
which it was. The text ending first is an error of the innermost open conditional. -/
def passText (t : Token) : EngineM Prim := do
  let mut level : Nat := 0
  for _ in [0:1000000000] do
    let some (u, _) ← next
      | let e ← get
        let line := (e.conds.head?.map (·.line)).getD 0
        fail .unmatchedConditional (some t)
          ("incomplete " ++ t.text ++ "; all text was ignored after line " ++ toString line)
    match ← meaningOf u with
    | .primitive _ p =>
      if p.isConditional then level := level + 1
      else if p = .fi then
        if level = 0 then return p
        level := level - 1
      else if p = .elseBranch ∨ p = .orBranch then
        if level = 0 then return p
    | _ => pure ()
  return .fi

/-- Carries out `\fi`, `\else` or `\or` (as `op`) read by `t` during expansion. -/
def condEnd (t : Token) (op : Prim) : EngineM Unit := do
  let e ← get
  let some top := e.conds.head? | fail .unmatchedConditional (some t) ("extra " ++ t.text)
  let opRank := match op with | .fi => 2 | .elseBranch => 3 | _ => 4
  if opRank > top.limit.rank then
    if top.limit = .inTest then
      back t false
      back (.cs "relax") true
      emit (.primitive t.text [.cs "relax", t] false 0)
      return
    fail .unmatchedConditional (some t) ("extra " ++ t.text)
  let mut op := op
  for _ in [0:1000000000] do
    if op = .fi then break
    op ← passText t
  modify fun e => { e with conds := e.conds.drop 1 }
  emit (.primitive t.text [] false 0)

end EngineM

end Galley
