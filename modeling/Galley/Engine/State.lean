import Std.Data.HashMap
import Galley.Scope.Table
import Galley.Token.Lexer
import Galley.Meaning
import Galley.Box.Pack
import Galley.Box.Show

/-!
# The state of the engine

Everything the engine keeps between two commands: the table of equivalents with its save
stack, the lexer over the current text, the stack of pending token lists, the open
conditionals, and the nest of modes, each with the list it is building.

The table maps keys to `Equivalent`s, one kind of value per space of keys: meanings for
meaning keys, categories for catcode keys, integers for sfcodes, count registers and
integer parameters, dimensions, glue, boxes (or void) and the current font. A key of a
space past the eleven holds no value until a stored format gives it one.

Errors carry their cause (`ErrorKind`), the token at which they arose, and where the
engine stood: mode, group level and input line. The engine can also log what it does as
a list of `Event`s, each with the group level at which it happened.
-/

namespace Galley

/-- The four modes: building the main vertical list, a vertical box, a paragraph, or a
horizontal box. -/
inductive Mode where
  | vertical
  | internalVertical
  | horizontal
  | restrictedHorizontal
deriving DecidableEq, Repr, Inhabited

namespace Mode

def name : Mode → String
  | vertical => "vertical" | internalVertical => "internal vertical"
  | horizontal => "horizontal" | restrictedHorizontal => "restricted horizontal"

def isVertical : Mode → Bool
  | vertical | internalVertical => true
  | _ => false

end Mode

/-- A value held in the table of equivalents. -/
inductive Equivalent where
  | meaning (m : Meaning)
  | category (c : Category)
  | int (n : Int32)
  | dimen (d : Scaled)
  | glue (g : Glue)
  | box (b : Option Box)
  | font (f : Font)
  /-- No value: what a key of no known space holds, and what arithmetic leaves in a key
  whose value is no number. -/
  | absent
deriving Inhabited

/-- The text of an equivalent in the log: numbers in decimal, dimensions and glue in points,
a box as its listing (`void` when there is none), and `<nil>` for no value. -/
def Equivalent.text : Equivalent → String
  | .meaning m => m.text
  | .category c => c.name
  | .int n => toString n.toInt
  | .dimen d => Scaled.toText d
  | .glue g => g.toText
  | .box none => "void"
  | .box (some b) => b.listing
  | .font f => f.text
  | .absent => "<nil>"

/-- The prevailing depth value that means "no interline glue before the next box". -/
def ignoreDepth : Scaled := -65536000

/-- One level of the nest: a mode, the list it builds, the depth of the last box of a
vertical list, and the space factor of a horizontal list. -/
structure Frame where
  mode : Mode
  list : Array Item := #[]
  prevDepth : Scaled := ignoreDepth
  spaceFactor : Int32 := 1000
deriving Inhabited

/-- Where a finished box goes: into a box register (`\setbox`), or onto the current list
shifted by `shift`. -/
structure BoxTarget where
  setbox : Bool := false
  reg : Nat := 0
  global : Bool := false
  shift : Scaled := 0
deriving Inhabited

/-- What a group was opened for: a brace group, `\begingroup`, or the body of a box, with
the token that opened it. -/
inductive Group where
  | simple (tok : Token)
  | semiSimple (tok : Token)
  | boxBody (tok : Token) (vertical : Bool) (spec : PackSpec) (target : BoxTarget)
deriving Inhabited

/-- Which ends an open conditional still accepts. -/
inductive CondLimit where
  | inTest
  | fiOnly
  | elseOrFi
  | orElseFi
deriving DecidableEq, Repr, Inhabited

/-- The rank of a limit: a terminator whose rank is above the limit's does not belong. -/
def CondLimit.rank : CondLimit → Nat
  | inTest => 1 | fiOnly => 2 | elseOrFi => 3 | orElseFi => 4

/-- An open conditional: its limit, the token that opened it, and its line. -/
structure Cond where
  limit : CondLimit
  tok : Token
  line : Nat
deriving Inhabited

/-- A pending list of tokens, never empty; frozen tokens are read as `\relax`. -/
structure Source where
  toks : List Token
  frozen : Bool := false
deriving Inhabited

/-- A command as main control reads it: the token, its meaning, and whether it is frozen. -/
structure Cmd where
  tok : Token
  meaning : Meaning
  frozen : Bool := false
deriving Inhabited

/-- The events of the log. -/
inductive Event where
  | token (t : Token)
  | expand (name : String) (args : List (List Token))
  | primitive (name : String) (result : List Token) (cond : Bool) (caseNo : Int32)
  | assign (key : Key) (old new : Equivalent) (global : Bool)
  | restore (key : Key) (new : Equivalent)
  | mode (source target : Mode)
  | boxPacked (b : Box) (report : PackReport)
  | message (text : String)
  | missing (t : Token) (font : String)
deriving Inhabited

/-- An event with the group level at which it happened. -/
structure Traced where
  depth : Nat
  event : Event
deriving Inhabited

/-- The causes of engine errors. -/
inductive ErrorKind where
  | lexError
  | undefinedControlSequence
  | runawayArgument
  | unmatchedConditional
  | modeError
  | registerOutOfRange
  | typeMismatch
  | unmatchedGroup
  | resourceExhausted
  | argumentMismatch
  | invalidPrefix
  | syntaxError
deriving DecidableEq, Repr, Inhabited

/-- The name of an error kind. -/
def ErrorKind.name : ErrorKind → String
  | lexError => "lex error" | undefinedControlSequence => "undefined control sequence"
  | runawayArgument => "runaway argument" | unmatchedConditional => "unmatched conditional"
  | modeError => "mode error" | registerOutOfRange => "register out of range"
  | typeMismatch => "type mismatch" | unmatchedGroup => "unmatched group"
  | resourceExhausted => "resource exhausted" | argumentMismatch => "argument mismatch"
  | invalidPrefix => "invalid prefix" | syntaxError => "syntax error"

/-- An engine error: its cause, the token at which it arose, the mode, group level and
line at that moment, and the message. -/
structure EngineError where
  kind : ErrorKind
  token : Option Token
  mode : Mode
  depth : Nat
  line : Nat
  msg : String
deriving Inhabited

namespace EngineError

/-- How a message names the token at an error: a control sequence by its name, any other
token as `character c`. -/
def tokenText : Token → String
  | .cs n => "\\" ++ n
  | .char c _ => "character " ++ codeText c

/-- The full message: `line L: kind: msg (at tok in mode mode, group level D)`; the `at`
clause is left out when there is no token. -/
def message (e : EngineError) : String :=
  let atClause := match e.token with
    | some (.char 0 .escape) | none => ""
    | some t => "at " ++ tokenText t ++ " "
  "line " ++ toString e.line ++ ": " ++ e.kind.name ++ ": " ++ e.msg ++ " (" ++ atClause ++ "in " ++
    e.mode.name ++ " mode, group level " ++ toString e.depth ++ ")"

end EngineError

/-- The category codes of a fresh table. -/
def initialCategory (c : Nat) : Category :=
  if c = 92 then .escape else if c = 123 then .beginGroup else if c = 125 then .endGroup
  else if c = 36 then .mathShift else if c = 38 then .alignTab else if c = 13 then .endOfLine
  else if c = 35 then .parameter else if c = 94 then .superscript else if c = 95 then .subscript
  else if c = 0 then .ignored else if c = 32 ∨ c = 9 then .space
  else if (97 ≤ c ∧ c ≤ 122) ∨ (65 ≤ c ∧ c ≤ 90) then .letter
  else if c = 126 then .active else if c = 37 then .comment else if c = 127 then .invalid
  else .other

/-- The integer parameters and their initial values. -/
def intParamDefault (name : String) : Int32 :=
  match name with
  | "tolerance" => 200 | "hbadness" => 1000 | "vbadness" => 1000 | "escapechar" => 92
  | "endlinechar" => 13 | "mag" => 1000 | _ => 0

/-- The glue parameters and their initial values: all zero but `\parfillskip`. -/
def glueParamDefault (name : String) : Glue :=
  if name = "parfillskip" then Glue.fil else {}

/-- The value of a key that was never assigned. A catcode key's number is read as a
character number, cut to 32 bits. -/
def initialEquivalent (defaultFont : Font) (k : Key) : Equivalent :=
  match k.space with
  | .meaning => .meaning .undefined
  | .catcode => .category (initialCategory (codeOfWord (Int32.ofInt k.n)))
  | .sfcode => .int (if 65 ≤ k.n ∧ k.n ≤ 90 then 999 else 1000)
  | .count => .int 0
  | .dimen => .dimen 0
  | .skip => .glue {}
  | .box => .box none
  | .intpar => .int (intParamDefault k.name)
  | .dimenpar => .dimen 0
  | .gluepar => .glue (glueParamDefault k.name)
  | .font => .font defaultFont
  | .beyond _ => .absent

/-- The settings an engine is made with. -/
structure EngineOptions where
  jobName : String := "texput"
  defaultFont : Font := ⟨"cmr10", 655360⟩
  /-- The most pending token lists; zero or less means no limit. -/
  maxDepth : Int := 5000
  /-- The most expansions in one run; zero means no limit. -/
  maxExpansions : Nat := 0
  /-- Whether events are logged. -/
  tracing : Bool := false
deriving Inhabited

/-- The table of equivalents: keys to values, with groups that open and close. -/
abbrev EqTable := Scope.Table Key Equivalent Group

/-- The engine. -/
structure Engine where
  options : EngineOptions
  table : EqTable
  lexer : Option Lexer := none
  inputs : List Source := []
  last : Option Token := none
  conds : List Cond := []
  /-- The nest of modes, innermost first; the outer vertical frame is last. -/
  nest : List Frame := [{ mode := .vertical }]
  done : Bool := false
  expansions : Nat := 0
  trace : Array Traced := #[]

/-- Computations of the engine: they change its state and may fail; the state they leave
holds also when they fail. -/
abbrev EngineM := ExceptT EngineError (StateM Engine)

namespace Engine

/-- A fresh engine: every primitive bound to its name, everything else at its initial value. -/
def create (o : EngineOptions) : Engine :=
  let t : EqTable := Scope.Table.empty (initialEquivalent o.defaultFont)
  let t := primitives.foldl (fun t (n, p) =>
    (t.assign { space := .meaning, name := n } (.meaning (.primitive n p)) true).2) t
  { options := o, table := t }

instance : Inhabited Engine := ⟨create {}⟩

def mode (e : Engine) : Mode := (e.nest.head?.map (·.mode)).getD .vertical

def cur (e : Engine) : Frame := e.nest.head?.getD { mode := .vertical }

def line (e : Engine) : Nat := (e.lexer.map (·.line)).getD 0

def get (e : Engine) (k : Key) : Equivalent := e.table.get k

/-! The typed readers below take the value of a key to be of its space's kind. The original
asserts that kind and stops with a panic on a value of another kind; here such a value
reads as a default. Only a loaded snapshot whose entries are not of their keys' kinds puts
one in the table, and on every other engine no default is read
(`Engine.Reachable.typed_reads`). -/

/-- The meaning of a control sequence name. -/
def meaningOf (e : Engine) (name : String) : Meaning :=
  match e.get { space := .meaning, name } with
  | .meaning m => m
  | _ => .undefined

/-- The category of a character code; the key is the character's number. -/
def category (e : Engine) (c : Nat) : Category :=
  match e.get { space := .catcode, n := signedCode c } with
  | .category k => k
  | _ => initialCategory c

def intAt (e : Engine) (k : Key) : Int32 :=
  match e.get k with
  | .int n => n
  | _ => 0

def dimenAt (e : Engine) (k : Key) : Scaled :=
  match e.get k with
  | .dimen d => d
  | _ => 0

def glueAt (e : Engine) (k : Key) : Glue :=
  match e.get k with
  | .glue g => g
  | _ => {}

def intParam (e : Engine) (name : String) : Int32 := e.intAt { space := .intpar, name }

def dimenParam (e : Engine) (name : String) : Scaled := e.dimenAt { space := .dimenpar, name }

def glueParam (e : Engine) (name : String) : Glue := e.glueAt { space := .gluepar, name }

def boxReg (e : Engine) (n : Nat) : Option Box :=
  match e.get { space := .box, n } with
  | .box b => b
  | _ => none

def curFont (e : Engine) : Font :=
  match e.get { space := .font } with
  | .font f => f
  | _ => e.options.defaultFont

def sfcode (e : Engine) (c : Nat) : Int32 := e.intAt { space := .sfcode, n := signedCode c }

/-- The character appended to each line, if `\endlinechar` is a code in `0..255`. -/
def endLineChar (e : Engine) : Option Nat :=
  let c := e.intParam "endlinechar"
  if c < 0 ∨ c > 255 then none else some c.toInt.toNat

def outerList (e : Engine) : Array Item := (e.nest.getLast?.map (·.list)).getD #[]

def outerBoxes (e : Engine) : List Box :=
  e.outerList.toList.filterMap fun | .box b => some b | _ => none

def depth (e : Engine) : Nat := e.table.depth

end Engine

namespace EngineM

/-- Logs an event at the current group level, if logging is on. -/
def emit (ev : Event) : EngineM Unit :=
  modify fun e =>
    if e.options.tracing then { e with trace := e.trace.push ⟨e.table.depth, ev⟩ } else e

/-- Fails with an error of `kind` at `tok`, recording where the engine stands. -/
def fail {α : Type} (kind : ErrorKind) (tok : Option Token) (msg : String) : EngineM α := do
  let e ← get
  throw { kind, token := tok, mode := e.mode, depth := e.table.depth, line := e.line, msg }

/-- Assigns a value and logs the assignment. -/
def assign (k : Key) (v : Equivalent) (global : Bool) : EngineM Unit := do
  let e ← get
  let (old, t) := e.table.assign k v global
  set { e with table := t }
  emit (.assign k old v global)

def openGroup (g : Group) : EngineM Unit :=
  modify fun e => { e with table := e.table.openGroup g }

/-- Closes the innermost group, logging each restored value; answers what the group was
opened for, `none` if no group is open. -/
def closeGroup : EngineM (Option Group) := do
  let e ← get
  match e.table.closeGroup with
  | none => return none
  | some (g, restored, t) =>
    set { e with table := t }
    for (k, v) in restored do emit (.restore k v)
    return some g

def modifyCur (f : Frame → Frame) : EngineM Unit :=
  modify fun e => { e with nest := match e.nest with
    | [] => []
    | fr :: rest => f fr :: rest }

def appendItem (it : Item) : EngineM Unit := modifyCur fun f => { f with list := f.list.push it }

def pushNest (m : Mode) : EngineM Unit := do
  let e ← get
  let source := e.mode
  set { e with nest := { mode := m } :: e.nest }
  emit (.mode source m)

def popNest : EngineM Frame := do
  let e ← get
  match e.nest with
  | [] => return { mode := .vertical }
  | f :: rest =>
    set { e with nest := rest }
    emit (.mode f.mode (← get).mode)
    return f

end EngineM

end Galley
