import Galley.Engine.State
import Galley.Format.Quote
import Galley.Digest.Sha3

/-!
# Format snapshots

A snapshot is the document a format is stored as: a version and a list of entries, each a
key of the table with one global value. The document is JSON with a fixed layout, and its
digest is the SHA3-256 of its exact bytes, so the writer here fixes every choice: fields in
their declared order, no blanks, integers in decimal, a payload left out when it is absent
(and the integer when it is zero), and a list the document never had written as `null`.

A list keeps the difference between "absent" (`none`, written `null`) and "empty"
(`some []`, written `[]`) because a document read back must be written back to the same bytes.
-/

namespace Galley

/-- A token as a snapshot writes it: its kind (0 for a character, 1 for a control
sequence), category, code and name. A record read from a document keeps every field as
written, so that it is written back to the same bytes. -/
structure TokenRecord where
  kind : UInt8 := 0
  cat : UInt8 := 0
  code : Int32 := 0
  name : String := ""
deriving DecidableEq, Repr, Inhabited

namespace TokenRecord

/-- The record of a token: a character has kind 0 and no name, a control sequence kind 1
and neither category nor code. -/
def ofToken : Token → TokenRecord
  | .char c cat => { cat := cat.code.toUInt8, code := Int32.ofNat c }
  | .cs n => { kind := 1, name := n }

/-- The token of a record: kind 1 is a control sequence, any other kind a character, whose
code is that of its number. -/
def toToken (r : TokenRecord) : Token :=
  if r.kind = 1 then .cs r.name else .char (codeOfWord r.code) (Category.ofCode r.cat.toNat)

end TokenRecord

/-- An element of a parameter or replacement text as a snapshot writes it: a token and a
parameter number. A number above zero makes the element that parameter. -/
structure ElemRecord where
  tok : TokenRecord := {}
  param : Int := 0
deriving DecidableEq, Repr, Inhabited

namespace ElemRecord

def ofElem : MacroElem → ElemRecord
  | .tok t => { tok := .ofToken t }
  | .param n => { param := n }

def toElem (r : ElemRecord) : MacroElem :=
  if r.param > 0 then .param r.param.toNat else .tok r.tok.toToken

end ElemRecord

/-- A macro as a snapshot holds it: parameter text, replacement text, `\long`. -/
structure MacroRecord where
  params : Option (List ElemRecord) := none
  body : Option (List ElemRecord) := none
  long : Bool := false
deriving DecidableEq, Repr, Inhabited

namespace MacroRecord

/-- The record of an engine macro: an empty text is left out unless the macro was read
with it written down. -/
def ofMacro (m : Macro) : MacroRecord :=
  { params := if m.params.isEmpty ∧ !m.paramsListed then none
      else some (m.params.map ElemRecord.ofElem),
    body := if m.body.isEmpty ∧ !m.bodyListed then none else some (m.body.map ElemRecord.ofElem),
    long := m.long }

/-- The engine macro of a record, remembering which texts were written down. -/
def toMacro (r : MacroRecord) : Macro :=
  { params := (r.params.getD []).map ElemRecord.toElem,
    body := (r.body.getD []).map ElemRecord.toElem, long := r.long,
    paramsListed := r.params.isSome, bodyListed := r.body.isSome }

end MacroRecord

/-- A glue as a snapshot writes it: the orders by rank, which need not name an order. -/
structure GlueRecord where
  width : Int32 := 0
  stretch : Int32 := 0
  stretchOrder : UInt8 := 0
  shrink : Int32 := 0
  shrinkOrder : UInt8 := 0
deriving DecidableEq, Repr, Inhabited

namespace GlueRecord

def ofGlue (g : Glue) : GlueRecord :=
  { width := g.width, stretch := g.stretch, stretchOrder := g.stretchOrder.rank.toUInt8,
    shrink := g.shrink, shrinkOrder := g.shrinkOrder.rank.toUInt8 }

def toGlue (r : GlueRecord) : Glue :=
  { width := r.width, stretch := r.stretch, stretchOrder := Order.ofRank r.stretchOrder.toNat,
    shrink := r.shrink, shrinkOrder := Order.ofRank r.shrinkOrder.toNat }

end GlueRecord

/-- A register given by `\countdef` and its kin as a snapshot writes it: the space by its
position and the number. -/
structure RegisterRecord where
  space : UInt8 := 0
  n : Int := 0
deriving DecidableEq, Repr, Inhabited

/-- One entry of a snapshot: the key, the kind of value, and the payload for that kind. -/
structure Entry where
  key : Key
  kind : String
  int : Int := 0
  glue : Option GlueRecord := none
  definition : Option MacroRecord := none
  token : Option TokenRecord := none
  font : Option Font := none
  register : Option RegisterRecord := none
  prim : String := ""
deriving Inhabited

/-- A snapshot: its layout version and its entries. -/
structure Snapshot where
  version : Int := 0
  entries : Option (List Entry) := none
deriving Inhabited

def Snapshot.layout : Int := 1

namespace Snapshot

open Format

def object (fields : List (String × String)) : String :=
  "\x7b" ++ ",".intercalate (fields.map fun (k, v) => jsonString k ++ ":" ++ v) ++ "\x7d"

def array (xs : Option (List String)) : String :=
  match xs with
  | none => "null"
  | some xs => "[" ++ ",".intercalate xs ++ "]"

def tokenText (t : TokenRecord) : String :=
  object [("Kind", toString t.kind.toNat), ("Cat", toString t.cat.toNat),
    ("Rune", toString t.code.toInt), ("Name", jsonString t.name)]

def elemText (e : ElemRecord) : String :=
  object [("Tok", tokenText e.tok), ("Param", toString e.param)]

def macroText (m : MacroRecord) : String :=
  object [("Params", array (m.params.map (·.map elemText))),
    ("Body", array (m.body.map (·.map elemText))), ("Long", toString m.long)]

def glueText (g : GlueRecord) : String :=
  object [("Width", toString g.width.toInt), ("Stretch", toString g.stretch.toInt),
    ("StretchOrder", toString g.stretchOrder.toNat), ("Shrink", toString g.shrink.toInt),
    ("ShrinkOrder", toString g.shrinkOrder.toNat)]

def fontText (f : Font) : String :=
  object [("Name", jsonString f.name), ("Size", toString f.size.toInt)]

def keyText (k : Key) : String :=
  object [("Space", toString k.space.index), ("Name", jsonString k.name), ("N", toString k.n)]

/-- The document of an entry: absent payloads, a zero integer and an empty primitive name
are left out. -/
def entryText (e : Entry) : String :=
  object ([("key", keyText e.key), ("kind", jsonString e.kind)] ++
    (if e.int = 0 then [] else [("int", toString e.int)]) ++
    (e.glue.map fun g => ("glue", glueText g)).toList ++
    (e.definition.map fun m => ("macro", macroText m)).toList ++
    (e.token.map fun t => ("token", tokenText t)).toList ++
    (e.font.map fun f => ("font", fontText f)).toList ++
    (e.register.map fun r => ("register", object [("Space", toString r.space.toNat),
      ("N", toString r.n)])).toList ++
    (if e.prim.isEmpty then [] else [("prim", jsonString e.prim)]))

/-- A snapshot as written: version zero becomes the current layout. -/
def normalized (s : Snapshot) : Snapshot :=
  if s.version = 0 then { s with version := layout } else s

/-- The document of a snapshot, version and entries. -/
def encode (s : Snapshot) : String :=
  let s := s.normalized
  object [("version", toString s.version), ("entries", array (s.entries.map (·.map entryText)))]

/-- The digest of a snapshot: the SHA3-256 of its document, in hex. -/
def digest (s : Snapshot) : String := Digest.sha3Hex s.encode

def size (s : Snapshot) : Nat := (s.entries.getD []).length

end Snapshot

end Galley
