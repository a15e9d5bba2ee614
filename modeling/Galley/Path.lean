/-!
# Slash-separated paths

Base names and extensions of slash-separated paths, and the job name that a run takes
from the name of its input file: the base name without its last extension.
-/

namespace Galley

namespace Path

/-- The last element of a path. Trailing slashes are dropped first; the empty path is `.`
and a path of slashes only is `/`. -/
def base (p : String) : String :=
  if p.isEmpty then "."
  else
    let cs := (p.toList.reverse.dropWhile (· == '/')).reverse
    if cs.isEmpty then "/"
    else String.ofList ((cs.reverse.takeWhile (· != '/')).reverse)

/-- The extension of a path: from its last dot in the last element to the end, or empty
when the last element has no dot. -/
def extension (p : String) : String :=
  let last := (p.toList.reverse.takeWhile (· != '/')).reverse
  match (last.reverse.findIdx? (· == '.')) with
  | some i => String.ofList (last.drop (last.length - 1 - i))
  | none => ""

/-- The job name of an input path: its base name without the last extension. -/
def jobName (p : String) : String :=
  let b := base p
  let e := extension b
  if e.length ≤ b.length ∧ b.endsWith e then String.ofList (b.toList.take (b.length - e.length))
  else b

end Path

end Galley
