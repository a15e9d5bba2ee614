import Galley.Engine.State

/-!
# Reading tokens

Tokens come first from the pending token lists, the most recent first, and then from the
lexer. A pending list is dropped as soon as its last token is read, so every list on the
stack has a token left. A token put back alone may be *frozen*: it is then read as
`\relax`, whatever it means.

The meaning of a token is looked up in the table for control sequences and active
characters; any other character means itself.
-/

namespace Galley

namespace EngineM

/-- The table key of a control sequence's or active character's meaning. -/
def meaningKey : Token → Key
  | .cs n => { space := .meaning, name := n }
  | .char c _ => { space := .meaning, name := codeText c, n := 1 }

/-- A control sequence or an active character: the tokens that have meanings. -/
def Token.hasMeaning : Token → Bool
  | .cs _ => true
  | .char _ .active => true
  | _ => false

/-- The meaning of a token in the current table. -/
def meaningOf (t : Token) : EngineM Meaning := do
  if Token.hasMeaning t then
    match (← get).get (meaningKey t) with
    | .meaning m => return m
    | _ => return .undefined
  else return .charLet t

/-- The next token with its frozen flag, `none` at the end of the text. A line with an
invalid character is a lex error. -/
def next : EngineM (Option (Token × Bool)) := do
  let e ← get
  match e.inputs.dropWhile (·.toks.isEmpty) with
  | s :: rest =>
    match s.toks with
    | t :: ts =>
      let inputs := if ts.isEmpty then rest else { s with toks := ts } :: rest
      set { e with inputs, last := some t }
      return some (t, s.frozen)
    | [] => return none
  | [] =>
    match e.lexer with
    | none => return none
    | some lx =>
      match lx.next e.category e.endLineChar with
      | .error bad =>
        set { e with lexer := some { lx with line := bad.line } }
        fail .lexError (some (.char bad.code .invalid)) "text line contains an invalid character"
      | .ok none =>
        set { e with lexer := some lx.finished }
        return none
      | .ok (some (t, lx)) =>
        set { e with lexer := some lx, last := some t }
        return some (t, false)

def nextNonBlank : EngineM (Option Token) := do
  for _ in [0:1000000000] do
    match ← next with
    | none => return none
    | some (t, _) => if t.isCat .space then continue else return some t
  return none

/-- Puts one token back, frozen or not. -/
def back (t : Token) (frozen : Bool) : EngineM Unit :=
  modify fun e => { e with inputs := { toks := [t], frozen } :: e.inputs }

def backCmd (c : Cmd) : EngineM Unit := back c.tok c.frozen

/-- Puts a list of tokens back, unless it is empty. -/
def backList (l : List Token) : EngineM Unit :=
  if l.isEmpty then pure () else modify fun e => { e with inputs := { toks := l } :: e.inputs }

/-- Pushes the result of an expansion of `t`, failing when the stack of pending lists is
full. -/
def push (l : List Token) (t : Token) : EngineM Unit := do
  if l.isEmpty then return
  let e ← get
  if e.options.maxDepth > 0 ∧ (e.inputs.length : Int) ≥ e.options.maxDepth then
    fail .resourceExhausted (some t) ("input stack size=" ++ toString e.options.maxDepth ++ " exceeded")
  set { e with inputs := { toks := l } :: e.inputs }

end EngineM

/-- The command is a space: its meaning is a space character. -/
def Cmd.isSpace (c : Cmd) : Bool :=
  match c.meaning with
  | .charLet t => t.isCat .space
  | _ => false

def Cmd.isPrim (c : Cmd) (op : Prim) : Bool :=
  match c.meaning with
  | .primitive _ p => p == op
  | _ => false

/-- The character a command stands for, explicit or by `\let`, unless it is frozen. -/
def Cmd.char? (c : Cmd) : Option Token :=
  if c.frozen then none
  else match c.meaning with
    | .charLet t => some t
    | _ => none

def Cmd.isOther (c : Cmd) (r : Nat) : Bool :=
  match c.char?, c.tok with
  | some (.char code .other), .char .. => code == r
  | _, _ => false

end Galley
