import Galley.Format.Snapshot

/-!
# Format stores

A store keeps named formats with their history. Putting a snapshot records a new version
unless it equals the newest one; getting answers the newest snapshot, and refuses one written
with a layout this library does not read; deleting drops a format with its whole history, so
numbering starts again at one. A store also keeps metadata, a text for each key.

A store lives in memory or in a database file, and the two keep their formats differently.
In memory each name has the list of its versions, oldest first, each with its snapshot: the
number of a version is its position, and a put compares the snapshot's digest with that of
the newest version. A database has a table of formats, one row per name with the newest
snapshot and its digest, and a table of versions, one row per name and number: a put compares
the snapshot's digest with the name's row of formats (the empty text when there is none) and
numbers the new version one past the highest of the name so far, and the history of a name
is its rows of versions sorted by number, highest first.

A database also keeps a schema version in its metadata: opening a database of schema one (or
of none) brings it to schema two, giving every format without a first version one, with no
entries counted; a database of any other schema cannot be opened.
-/

namespace Galley

/-- One recorded version of a format. -/
structure FormatVersion where
  number : Nat
  digest : String
  entries : Nat
  /-- When the version was stored. -/
  stamp : String := ""
deriving DecidableEq, Repr, Inhabited

/-- A version as a store in memory keeps it: the snapshot with its digest, its number of
entries and when it was stored. -/
structure KeptVersion where
  snapshot : Snapshot
  digest : String
  entries : Nat
  stamp : String
deriving Inhabited

/-- The formats of a store in memory: the versions of each name, oldest first. A name without
versions is not stored. -/
structure MemoryFormats where
  versions : String → List KeptVersion := fun _ => []
deriving Inhabited

namespace MemoryFormats

def newest? (m : MemoryFormats) (name : String) : Option Snapshot :=
  (m.versions name).getLast?.map (·.snapshot)

/-- Appends a version of digest `d`, unless the newest version has that digest. -/
def put (m : MemoryFormats) (name : String) (snap : Snapshot) (d stamp : String) :
    MemoryFormats :=
  let vs := m.versions name
  if (vs.getLast?.map (·.digest)) = some d then m
  else { versions := fun n => if n = name then vs ++ [⟨snap, d, snap.size, stamp⟩] else m.versions n }

def delete (m : MemoryFormats) (name : String) : MemoryFormats :=
  { versions := fun n => if n = name then [] else m.versions n }

/-- The versions of a name, newest first, each numbered by its position. -/
def history (m : MemoryFormats) (name : String) : List FormatVersion :=
  ((m.versions name).zipIdx.map fun (v, i) => ⟨i + 1, v.digest, v.entries, v.stamp⟩).reverse

end MemoryFormats

/-- A row of a database's table of formats: a name, its newest snapshot and that snapshot's
digest. -/
structure FormatRow where
  name : String
  snapshot : Snapshot
  digest : String
deriving Inhabited

/-- A row of a database's table of versions: a name and one version of it. -/
structure VersionRow where
  name : String
  version : FormatVersion
deriving Inhabited

/-- The two tables of a database, formats and versions, their rows in the order they were
written. -/
structure DatabaseTables where
  formats : List FormatRow := []
  versions : List VersionRow := []
deriving Inhabited

namespace DatabaseTables

def row? (t : DatabaseTables) (name : String) : Option FormatRow :=
  t.formats.find? (·.name == name)

def newest? (t : DatabaseTables) (name : String) : Option Snapshot :=
  (t.row? name).map (·.snapshot)

/-- Writes the row of formats of a name: replaces the one there is, or adds one. -/
def upsert (t : DatabaseTables) (r : FormatRow) : List FormatRow :=
  if t.formats.any (·.name == r.name) then
    t.formats.map fun g => if g.name == r.name then r else g
  else t.formats ++ [r]

/-- The versions of a name, in the order they were written. -/
def versionsOf (t : DatabaseTables) (name : String) : List FormatVersion :=
  (t.versions.filter (·.name == name)).map (·.version)

/-- Stores a snapshot of digest `d` under a name, unless the name's row already has that
digest: the row of formats is written, and a version numbered one past the highest of the
name is added. -/
def put (t : DatabaseTables) (name : String) (snap : Snapshot) (d stamp : String) :
    DatabaseTables :=
  let current := ((t.row? name).map (·.digest)).getD ""
  if current = d then t
  else
    let n := ((t.versionsOf name).map (·.number)).foldl max 0 + 1
    { formats := t.upsert ⟨name, snap, d⟩,
      versions := t.versions ++ [⟨name, ⟨n, d, snap.size, stamp⟩⟩] }

def delete (t : DatabaseTables) (name : String) : DatabaseTables :=
  { formats := t.formats.filter (·.name != name),
    versions := t.versions.filter (·.name != name) }

/-- The versions of a name sorted by number, highest first. -/
def history (t : DatabaseTables) (name : String) : List FormatVersion :=
  (t.versionsOf name).mergeSort fun a b => decide (b.number ≤ a.number)

/-- Gives every format without a first version one, numbered one, with its row's digest and
no entries counted. -/
def seedFirstVersions (t : DatabaseTables) : DatabaseTables :=
  let seeded := t.formats.filter fun r =>
    !(t.versions.any fun v => v.name == r.name && v.version.number == 1)
  { t with versions := t.versions ++ seeded.map fun r => ⟨r.name, ⟨1, r.digest, 0, ""⟩⟩ }

end DatabaseTables

/-- Where a store keeps its formats. -/
inductive StoreTables where
  | memory (m : MemoryFormats)
  | database (t : DatabaseTables)
deriving Inhabited

/-- A store: its formats, and its metadata in the order the keys were first set. -/
structure FormatStore where
  tables : StoreTables
  metadata : List (String × String) := []
deriving Inhabited

namespace FormatStore

def schema : String := "2"

def memory : FormatStore := { tables := .memory {} }

def getMeta (s : FormatStore) (key : String) : String :=
  ((s.metadata.find? (·.1 == key)).map (·.2)).getD ""

def setMeta (s : FormatStore) (key value : String) : FormatStore :=
  if s.metadata.any (·.1 == key) then
    { s with metadata := s.metadata.map fun (k, v) => if k == key then (k, value) else (k, v) }
  else { s with metadata := s.metadata ++ [(key, value)] }

/-- Stores a snapshot under a name as a new version stamped `stamp`, unless it equals the
newest one. The snapshot is stored as it is written, its layout version filled in. -/
def put (s : FormatStore) (name : String) (snap : Snapshot) (stamp : String := "") : FormatStore :=
  let snap := snap.normalized
  let d := snap.digest
  match s.tables with
  | .memory m => { s with tables := .memory (m.put name snap d stamp) }
  | .database t => { s with tables := .database (t.put name snap d stamp) }

def newest? (s : FormatStore) (name : String) : Option Snapshot :=
  match s.tables with
  | .memory m => m.newest? name
  | .database t => t.newest? name

/-- The newest snapshot of a name, `none` when there is none, or the reason it cannot be
read. -/
def get (s : FormatStore) (name : String) : Except String (Option Snapshot) :=
  match s.newest? name with
  | none => .ok none
  | some snap =>
    if snap.version = Snapshot.layout then .ok (some snap)
    else .error ("unsupported format version " ++ toString snap.version ++
      " (expected " ++ toString Snapshot.layout ++ ")")

def delete (s : FormatStore) (name : String) : FormatStore :=
  match s.tables with
  | .memory m => { s with tables := .memory (m.delete name) }
  | .database t => { s with tables := .database (t.delete name) }

def versions (s : FormatStore) (name : String) : List FormatVersion :=
  match s.tables with
  | .memory m => m.history name
  | .database t => t.history name

/-- The versions of a name, newest first; at most `limit` of them when it is positive. -/
def history (s : FormatStore) (name : String) (limit : Int) : List FormatVersion :=
  let vs := s.versions name
  if limit > 0 then vs.take limit.toNat else vs

def database : FormatStore := { tables := .database {}, metadata := [("schema_version", schema)] }

/-- Gives every format of a database without a first version one; a store in memory has no
schema to bring up to date. -/
def seedFirstVersions (s : FormatStore) : FormatStore :=
  match s.tables with
  | .memory _ => s
  | .database t => { s with tables := .database t.seedFirstVersions }

/-- Opens a database as it was left: at schema one or none it is brought to the current
schema, every format gaining a first version if it has none; at another schema it cannot be
opened. -/
def reopen (s : FormatStore) : Except String FormatStore :=
  let v := s.getMeta "schema_version"
  if v = "" ∨ v = "1" then .ok (s.seedFirstVersions.setMeta "schema_version" schema)
  else if v = schema then .ok s
  else .error ("unsupported schema version: " ++ v ++ " (expected " ++ schema ++ ")")

/-- The message of a database file in a directory that does not exist. -/
def unreachable : String := "unable to open database file: out of memory (14)"

/-- Opens the database file of a path: where its directory does not exist it cannot be
opened, where there is no file yet it is a new database, and otherwise it is the stored one
reopened. -/
def openFile (dirExists : Bool) (existing : Option FormatStore) : Except String FormatStore :=
  if !dirExists then .error unreachable
  else match existing with
    | none => .ok database
    | some s => reopen s

end FormatStore

end Galley
