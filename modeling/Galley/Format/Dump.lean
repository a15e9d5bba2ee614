import Galley.Format.Snapshot

/-!
# Dumping and loading formats

A dump is a snapshot of every value the table holds explicitly, outside any group, sorted by
key. Box registers are left out, and so are meanings a fresh engine already has: undefined
ones and primitives under their own names. Loading assigns each entry globally, in order,
without logging; an entry that cannot be read stops the load, and the entries before it stay.
-/

namespace Galley

namespace Entry

/-- The entry for key `k` holding `v`, unless the dump leaves it out. -/
def ofBinding (k : Key) (v : Equivalent) : Option Entry :=
  let key := k
  if k.space = .box then none else
  match v with
  | .meaning m =>
    match m with
    | .defined d => some { key, kind := "macro", definition := some (MacroRecord.ofMacro d) }
    | .primitive name _ =>
      if k.space = .meaning ∧ k.name = name then none
      else some { key, kind := "primitive", prim := name }
    | .charDef c => some { key, kind := "chardef", int := signedCode c }
    | .register s n => some { key, kind := "register", register := some ⟨s.index.toUInt8, n⟩ }
    | .charLet t => some { key, kind := "charlet", token := some (.ofToken t) }
    | .fontDef f => some { key, kind := "fontdef", font := some f }
    | .undefined => none
  | .int n => some { key, kind := "int", int := n.toInt }
  | .dimen d => some { key, kind := "dimen", int := d.toInt }
  | .glue g => some { key, kind := "glue", glue := some (.ofGlue g) }
  | .category c => some { key, kind := "catcode", int := c.code }
  | .font f => some { key, kind := "font", font := some f }
  | .box _ | .absent => none

/-- The value an entry assigns, or why it cannot be read. Integers are cut to the width of
the value they become: 32 bits, or 8 bits for a category. -/
def value (e : Entry) : Except String Equivalent :=
  let missing := Except.error
    ("format entry " ++ e.key.text ++ ": " ++ e.kind ++ " without payload")
  match e.kind with
  | "macro" => match e.definition with
    | some m => .ok (.meaning (.defined m.toMacro))
    | none => missing
  | "primitive" => match primitiveNamed? e.prim with
    | some p => .ok (.meaning (.primitive e.prim p))
    | none => .error ("format entry " ++ e.key.text ++ ": unknown primitive " ++ Format.quoted e.prim)
  | "chardef" => .ok (.meaning (.charDef (codeOfWord (Int32.ofInt e.int))))
  | "register" => match e.register with
    | some r =>
      .ok (.meaning (.register (Space.ofIndex r.space.toNat) r.n))
    | none => missing
  | "charlet" => match e.token with
    | some t => .ok (.meaning (.charLet t.toToken))
    | none => missing
  | "fontdef" => match e.font with
    | some f => .ok (.meaning (.fontDef f))
    | none => missing
  | "int" => .ok (.int (Int32.ofInt e.int))
  | "dimen" => .ok (.dimen (Int32.ofInt e.int))
  | "glue" => match e.glue with
    | some g => .ok (.glue g.toGlue)
    | none => missing
  | "catcode" => .ok (.category (Category.ofCode (e.int % 256).toNat))
  | "font" => match e.font with
    | some f => .ok (.font f)
    | none => missing
  | k => .error ("format entry " ++ e.key.text ++ ": unknown kind " ++ Format.quoted k)

end Entry

namespace Engine

/-- The message of a dump inside a group. -/
def groupOpenMessage : String := "eval: cannot dump a format inside a group"

/-- The snapshot of the table, or the reason there is none: a group is open. -/
def dump (e : Engine) : Except String Snapshot :=
  if e.depth > 0 then .error groupOpenMessage else
  let sorted := e.table.bindings.mergeSort fun a b => a.1.before b.1 || !(b.1.before a.1)
  let entries := sorted.filterMap fun (k, v) => Entry.ofBinding k v
  .ok { version := Snapshot.layout, entries := if entries.isEmpty then none else some entries }

/-- Assigns the entries one after another, globally and without logging; the first entry
that cannot be read stops the load, and its message is answered beside the engine. -/
def loadEntries (e : Engine) : List Entry → Engine × Option String
  | [] => (e, none)
  | x :: xs =>
    match x.value with
    | .error m => (e, some m)
    | .ok v => loadEntries { e with table := (e.table.assign x.key v true).2 } xs

/-- Loads a snapshot, unless a group is open. -/
def load (e : Engine) (s : Snapshot) : Engine × Option String :=
  if e.depth > 0 then (e, some groupOpenMessage) else e.loadEntries (s.entries.getD [])

end Engine

end Galley
