import Galley.Engine.Input

/-!
# Calling a macro

A macro's parameter text is matched against the input. Literal tokens must come exactly.
An undelimited parameter takes one token, or a braced group without its braces, after
skipping blanks. A delimited parameter takes everything up to the first occurrence of its
delimiter at brace depth zero; if what it took is one braced group, the braces go. A `\par`
ends an argument in error unless the macro is `\long`. The body is then pushed with each
`#n` replaced by argument `n`.
-/

namespace Galley

namespace EngineM

def runaway {α : Type} (t : Token) : EngineM α :=
  fail .runawayArgument (some t) ("file ended while scanning use of " ++ t.text)

def parInArgument {α : Type} (t : Token) : EngineM α :=
  fail .runawayArgument (some t) ("paragraph ended before " ++ t.text ++ " was complete")

def parToken : Token := .cs "par"

/-- An undelimited argument of `t`: one token after blanks, or a braced group's contents. -/
def undelimited (t : Token) (long : Bool) : EngineM (List Token) := do
  let some u ← nextNonBlank | runaway t
  if u.isCat .endGroup then
    fail .unmatchedGroup (some u) ("argument of " ++ t.text ++ " has an extra \x7d")
  if u = parToken ∧ !long then parInArgument t
  if !u.isCat .beginGroup then return [u]
  let mut arg : Array Token := #[]
  let mut level : Nat := 1
  for _ in [0:1000000000] do
    let some (u, _) ← next | runaway t
    if u = parToken ∧ !long then parInArgument t
    if u.isCat .beginGroup then level := level + 1
    else if u.isCat .endGroup then
      level := level - 1
      if level = 0 then return arg.toList
    arg := arg.push u
  return arg.toList

/-- The argument ends with the delimiter, every token of it at brace depth zero. -/
def endsWithDelimiter (arg : Array Token) (levels : Array Nat) (delim : List Token) : Bool :=
  let n := arg.size
  let k := delim.length
  k ≤ n && (List.range k).all fun i =>
    arg[n - k + i]? == delim[i]? && levels[n - k + i]? == some 0

/-- A delimited argument of `t`: tokens up to the delimiter at depth zero, without one pair
of braces that encloses all of it. -/
def delimited (t : Token) (delim : List Token) (long : Bool) : EngineM (List Token) := do
  let mut arg : Array Token := #[]
  let mut levels : Array Nat := #[]
  let mut level : Nat := 0
  for _ in [0:1000000000] do
    let some (u, _) ← next | runaway t
    if u = parToken ∧ !long then parInArgument t
    arg := arg.push u
    levels := levels.push level
    if level = 0 ∧ endsWithDelimiter arg levels delim then
      arg := arg.extract 0 (arg.size - delim.length)
      levels := levels.extract 0 (levels.size - delim.length)
      break
    if u.isCat .beginGroup then level := level + 1
    else if u.isCat .endGroup then
      if level = 0 then
        fail .unmatchedGroup (some u) ("argument of " ++ t.text ++ " has an extra \x7d")
      level := level - 1
      levels := levels.set! (levels.size - 1) level
  let n := arg.size
  if n ≥ 2 ∧ (arg[0]?.map (·.isCat .beginGroup)) = some true ∧
      (arg[n - 1]?.map (·.isCat .endGroup)) = some true ∧
      ((levels.extract 1 (n - 1)).all (· ≠ 0)) then
    return (arg.extract 1 (n - 1)).toList
  return arg.toList

/-- The parameter text split into runs: each run is literal tokens, then optionally a
parameter with the literal tokens that delimit it. -/
def splitParams : List MacroElem → List (Sum Token (List Token))
  | [] => []
  | .tok t :: rest => .inl t :: splitParams rest
  | .param _ :: rest =>
    let delim := rest.takeWhile (fun e => e matches .tok _)
    let toks := delim.filterMap fun | .tok t => some t | _ => none
    .inr toks :: splitParams (rest.drop delim.length)
termination_by l => l.length
decreasing_by
  all_goals (simp only [List.length_drop, List.length_cons]; omega)

/-- Replaces the parameters of a body by the arguments. A placeholder past the arguments,
which only a loaded format can hold, stops the original with an index panic; here it is
replaced by nothing, and the theorems about calls assume numbered bodies
(`Macro.Numbered`). -/
def instantiate (args : Array (List Token)) (body : List MacroElem) : List Token :=
  body.flatMap fun
    | .param n => args.getD (n - 1) []
    | .tok t => [t]

/-- Calls macro `m` named by token `t`: matches its parameter text, logs the arguments,
and pushes the body with the arguments put in. -/
def macroCall (t : Token) (m : Macro) : EngineM Unit := do
  let mut args : Array (List Token) := #[]
  for step in splitParams m.params do
    match step with
    | .inl lit =>
      let some (u, _) ← next | runaway t
      if u ≠ lit then
        fail .argumentMismatch (some t) ("use of " ++ t.text ++ " doesn't match its definition")
    | .inr delim =>
      let arg ← if delim.isEmpty then undelimited t m.long else delimited t delim m.long
      args := args.push arg
  emit (.expand t.text args.toList)
  push (instantiate args m.body) t

end EngineM

end Galley
