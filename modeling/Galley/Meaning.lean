import Galley.Token.Basic
import Galley.Scope.Key
import Galley.Font

/-!
# Meanings

What a control sequence or an active character stands for: nothing yet, a macro, a
primitive command, a character code given by `\chardef`, a register given by `\countdef`
and its kin, a character token given by `\let`, or a font given by `\font`.

Primitives fall into two classes. Those before `\relax` in `Prim` are *expandable*: they
are replaced by other tokens when read for execution. The rest are commands that main
control carries out.

`Meaning.text` is what `\meaning` prints; two meanings are the same for `\ifx` exactly when
they are equal, macros being compared by their parameter texts, bodies and `\long`.
-/

namespace Galley

/-- The primitive commands. The order matters: the first twenty-seven expand. -/
inductive Prim where
  | expandAfter | noExpand | csname | string | number | romannumeral | the | meaning | jobname
  | ifChar | ifCat | ifNum | ifDim | ifOdd | ifX | ifTrue | ifFalse | ifVMode | ifHMode
  | ifInner | ifVoid | ifHBox | ifVBox | ifCase | fi | elseBranch | orBranch
  | relax | par | endcsname | defMacro | gdefMacro | edefMacro | xdefMacro | letMeaning
  | futureLet | global | long | outer | chardef | countdef | dimendef | skipdef
  | count | dimen | skip | intParam | dimenParam | glueParam | prevDepth | spaceFactor
  | advance | multiply | divide | catcode | sfcode | setbox | boxDimen | font
  | beginGroup | endGroup | hskip | vskip | hglue | vglue | kern | hrule | vrule
  | hbox | vbox | box | copy | moveLeft | moveRight | raise | lower | indent | noindent
  | char | ignoreSpaces | message | endJob
deriving DecidableEq, Repr, Inhabited

namespace Prim

/-- The conditionals, from `\if` to `\ifcase`. -/
def isConditional : Prim → Bool
  | ifChar | ifCat | ifNum | ifDim | ifOdd | ifX | ifTrue | ifFalse | ifVMode | ifHMode
  | ifInner | ifVoid | ifHBox | ifVBox | ifCase => true
  | _ => false

/-- The primitives that expand: the conditionals and their ends, and the nine that
produce tokens. -/
def expands : Prim → Bool
  | expandAfter | noExpand | csname | string | number | romannumeral | the | meaning
  | jobname | fi | elseBranch | orBranch => true
  | p => p.isConditional

/-- The prefixes `\global`, `\long` and `\outer`. -/
def isPrefix : Prim → Bool
  | global | long | outer => true
  | _ => false

/-- The commands that assign, and so accept prefixes. -/
def isAssignment : Prim → Bool
  | defMacro | gdefMacro | edefMacro | xdefMacro | letMeaning | futureLet | chardef
  | countdef | dimendef | skipdef | count | dimen | skip | intParam | dimenParam
  | glueParam | prevDepth | spaceFactor | advance | multiply | divide | catcode | sfcode
  | setbox | boxDimen | font => true
  | _ => false

/-- The definitions, the only commands `\long` may prefix. -/
def isDefinition : Prim → Bool
  | defMacro | gdefMacro | edefMacro | xdefMacro => true
  | _ => false

end Prim

/-- An element of a macro's parameter text or body: a token, or parameter `#n`. -/
inductive MacroElem where
  | tok (t : Token)
  | param (n : Nat)
deriving DecidableEq, Repr, Inhabited

/-- A macro: parameter text, replacement text, and whether it is `\long`. A stored format
may write an empty text down as an empty list where a definition leaves it out; the two
flags remember that, so that the macro is stored again as it was read. They make no
difference to what the macro does or means. -/
structure Macro where
  params : List MacroElem := []
  body : List MacroElem := []
  long : Bool := false
  /-- An empty parameter text is written down as an empty list. -/
  paramsListed : Bool := false
  /-- An empty replacement text is written down as an empty list. -/
  bodyListed : Bool := false
deriving DecidableEq, Repr, Inhabited

namespace Macro

def arity (m : Macro) : Nat := m.params.countP fun e => e matches .param _

/-- The text of macro elements: `#n` for parameters, `##` for a parameter character, and a
blank after a control word unless it is last. -/
def elemsText (l : List MacroElem) : String := go "" l
where
  /-- Appends the text of the elements to `acc`. -/
  go (acc : String) : List MacroElem → String
    | [] => acc
    | e :: rest =>
      let acc := match e with
        | .param n => acc ++ "#" ++ toString n
        | .tok t =>
          if t.isCat .parameter then acc ++ "##"
          else acc ++ t.text ++ (match t with
            | .cs n => if isLetterName n ∧ !rest.isEmpty then " " else ""
            | _ => "")
      go acc rest

/-- What `\meaning` prints for a macro: `\long ` if long, `macro:`, the parameter text,
`->` and the body. -/
def text (m : Macro) : String :=
  (if m.long then "\\long " else "") ++ "macro:" ++ elemsText m.params ++ "->" ++ elemsText m.body

end Macro

/-- The meaning of a control sequence or active character. -/
inductive Meaning where
  | undefined
  | defined (m : Macro)
  | primitive (name : String) (op : Prim)
  | charDef (code : Nat)
  | register (space : Space) (n : Int)
  | charLet (t : Token)
  | fontDef (f : Font)
deriving DecidableEq, Repr, Inhabited

namespace Meaning

def relax : Meaning := primitive "relax" .relax

def hexUpper (n : Nat) : String :=
  String.ofList ((Nat.toDigits 16 n).map Char.toUpper)

/-- Upper-case hexadecimal digits of the number a code stands for, after a minus sign when
it is negative. -/
def codeHex (c : Nat) : String :=
  let v := signedCode c
  (if v < 0 then "-" else "") ++ hexUpper v.natAbs

/-- What `\meaning` prints. -/
def text : Meaning → String
  | undefined => "undefined"
  | defined m => m.text
  | primitive n _ => "\\" ++ n
  | charDef c => "\\char\"" ++ codeHex c
  | register s n =>
    "\\" ++ (match s with | .count => "count" | .dimen => "dimen" | .skip => "skip" | _ => "") ++
      toString n
  | charLet t => t.describe
  | fontDef f => "select font " ++ f.name

/-- Whether two meanings are the same, as `\ifx` decides: macros by `\long` and their two
texts, however an empty text is written down; anything else by its value. -/
def same : Meaning → Meaning → Bool
  | defined a, defined b => a.long == b.long && a.params == b.params && a.body == b.body
  | a, b => a == b

/-- Whether reading this meaning for execution replaces it by other tokens. -/
def expands : Meaning → Bool
  | defined _ => true
  | primitive _ op => op.expands
  | _ => false

end Meaning

/-- The primitives with their names, as a fresh table binds them. -/
def primitives : List (String × Prim) :=
  [("expandafter", .expandAfter), ("noexpand", .noExpand), ("csname", .csname),
   ("endcsname", .endcsname), ("string", .string), ("number", .number),
   ("romannumeral", .romannumeral), ("the", .the), ("meaning", .meaning),
   ("jobname", .jobname),
   ("if", .ifChar), ("ifcat", .ifCat), ("ifnum", .ifNum), ("ifdim", .ifDim), ("ifodd", .ifOdd),
   ("ifx", .ifX), ("iftrue", .ifTrue), ("iffalse", .ifFalse), ("ifvmode", .ifVMode),
   ("ifhmode", .ifHMode), ("ifinner", .ifInner), ("ifvoid", .ifVoid), ("ifhbox", .ifHBox),
   ("ifvbox", .ifVBox), ("ifcase", .ifCase), ("fi", .fi), ("else", .elseBranch),
   ("or", .orBranch),
   ("relax", .relax), ("par", .par), ("def", .defMacro), ("gdef", .gdefMacro),
   ("edef", .edefMacro), ("xdef", .xdefMacro), ("let", .letMeaning),
   ("futurelet", .futureLet), ("global", .global), ("long", .long), ("outer", .outer),
   ("chardef", .chardef), ("countdef", .countdef), ("dimendef", .dimendef),
   ("skipdef", .skipdef), ("count", .count), ("dimen", .dimen), ("skip", .skip),
   ("tolerance", .intParam), ("hbadness", .intParam), ("vbadness", .intParam),
   ("escapechar", .intParam), ("endlinechar", .intParam), ("mag", .intParam),
   ("parindent", .dimenParam), ("hfuzz", .dimenParam), ("vfuzz", .dimenParam),
   ("lineskiplimit", .dimenParam),
   ("baselineskip", .glueParam), ("lineskip", .glueParam), ("parskip", .glueParam),
   ("parfillskip", .glueParam), ("spaceskip", .glueParam), ("xspaceskip", .glueParam),
   ("prevdepth", .prevDepth), ("spacefactor", .spaceFactor),
   ("advance", .advance), ("multiply", .multiply), ("divide", .divide),
   ("catcode", .catcode), ("sfcode", .sfcode), ("setbox", .setbox), ("wd", .boxDimen),
   ("ht", .boxDimen), ("dp", .boxDimen), ("font", .font),
   ("begingroup", .beginGroup), ("endgroup", .endGroup), ("hskip", .hskip),
   ("vskip", .vskip), ("hfil", .hglue), ("hfill", .hglue), ("hss", .hglue),
   ("hfilneg", .hglue), ("vfil", .vglue), ("vfill", .vglue), ("vss", .vglue),
   ("vfilneg", .vglue), ("kern", .kern), ("hrule", .hrule), ("vrule", .vrule),
   ("hbox", .hbox), ("vbox", .vbox), ("box", .box), ("copy", .copy),
   ("moveleft", .moveLeft), ("moveright", .moveRight), ("raise", .raise),
   ("lower", .lower), ("indent", .indent), ("noindent", .noindent), ("char", .char),
   ("ignorespaces", .ignoreSpaces), ("message", .message), ("end", .endJob)]

/-- The primitive named `name`, if there is one. -/
def primitiveNamed? (name : String) : Option Prim :=
  (primitives.find? (·.1 == name)).map (·.2)

end Galley
