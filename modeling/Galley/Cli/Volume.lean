import Galley.Format.Store
import Galley.Preview.Image

/-!
# The working directory

The command reads and writes files of one directory tree: texts to process, preview images
and format databases. Paths are relative, `/`-separated, with `.` and `..` resolved; a
directory exists when some file lies below it, and the top always exists. Opening a missing
file, creating a file in a missing directory, and treating a directory as a file fail with the
messages of the operating system.
-/

namespace Galley.Cli

/-- What a file holds. -/
inductive FileContent where
  | text (s : String)
  | image (img : Preview.Image)
  | database (s : FormatStore)

/-- The files of the tree, by path, and directories known to exist without files. -/
structure Volume where
  files : List (String × FileContent) := []
  dirs : List String := []

namespace Volume

/-- A path with empty and `.` parts dropped and `..` resolved. -/
def clean (path : String) : String :=
  let step (acc : List String) (p : String) : List String :=
    if p = "" ∨ p = "." then acc
    else if p = ".." then acc.drop 1
    else p :: acc
  let parts := (path.splitOn "/").foldl step []
  "/".intercalate parts.reverse

def parent (path : String) : String :=
  "/".intercalate ((path.splitOn "/").dropLast)

def find? (v : Volume) (path : String) : Option FileContent :=
  ((v.files.find? (·.1 == clean path)).map (·.2))

/-- Whether a path names a directory: the top, or the parent of some file. -/
def isDir (v : Volume) (path : String) : Bool :=
  let p := clean path
  p.isEmpty ∨ v.dirs.contains p ∨ v.files.any fun (q, _) => (p ++ "/").isPrefixOf q

def write (v : Volume) (path : String) (c : FileContent) : Volume :=
  let p := clean path
  if v.files.any (·.1 == p) then
    { v with files := v.files.map fun (q, d) => if q == p then (q, c) else (q, d) }
  else { v with files := v.files ++ [(p, c)] }

/-- The text of a file to read, or the reason it cannot be read. -/
def readText (v : Volume) (path : String) : Except String String :=
  match v.find? path with
  | some (.text s) => .ok s
  | some _ => .ok ""
  | none =>
    if v.isDir path then .error ("read " ++ path ++ ": is a directory")
    else .error ("open " ++ path ++ ": no such file or directory")

/-- Whether a file can be created at a path; the reason when not. -/
def creatable (v : Volume) (path : String) : Except String Unit :=
  if v.isDir path then .error ("open " ++ path ++ ": is a directory")
  else if (clean path).isEmpty ∨ !v.isDir (parent (clean path)) then
    .error ("open " ++ path ++ ": no such file or directory")
  else .ok ()

/-- Opens the format database at a path: a new one where there is no file or an empty one,
the stored one reopened where there is one; any other file is no database. -/
def openDatabase (v : Volume) (path : String) : Except String FormatStore :=
  match v.find? path with
  | some (.database s) => FormatStore.reopen s
  | some (.text "") => .ok FormatStore.database
  | some _ => .error "file is not a database (26)"
  | none =>
    FormatStore.openFile (!v.isDir path ∧ v.isDir (parent (clean path))) none

end Volume

end Galley.Cli
