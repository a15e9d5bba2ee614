import Galley.Cli.Run
import Galley.Preview.Png

/-!
# The command line

The program's entry: it gathers what a run needs from the system (the arguments, the
standard input, the file to process and the directories the run may write into), runs the
command, writes its outputs and the files it made, and exits with its status. Standard input
from a terminal is read to its end and then taken line by line. Format databases live for
one run here, since their documents are kept in memory.
-/

open Galley Galley.Cli System

def parentOf (path : String) : String := Volume.parent (Volume.clean path)

/-- Adds to the volume the file to process and the directories the run writes into, as they
are on disk. -/
def gather (cfg : Config) : IO Volume := do
  let mut vol : Volume := {}
  if !cfg.file.isEmpty then
    try
      let t ← IO.FS.readFile cfg.file
      vol := vol.write cfg.file (.text t)
    catch _ => pure ()
  for p in [cfg.png, cfg.database] do
    if p.isEmpty then continue
    let d := parentOf p
    if d.isEmpty then continue
    if ← (FilePath.mk d).isDir then
      vol := { vol with dirs := vol.dirs ++ [Volume.clean d] }
  return vol

/-- Runs the command on the system. -/
def main (args : List String) : IO UInt32 := do
  let stdin ← IO.getStdin
  let cfg := match readFlags args with
    | .ok c => c
    | .error _ => {}
  let vol ← gather cfg
  let tty ← stdin.isTty
  let text ← stdin.readToEnd
  let (o, vol) := run args { text, device := tty } vol "1970-01-01T00:00:00Z"
  IO.print o.stdout
  IO.eprint o.stderr
  for (path, content) in vol.files do
    match content with
    | .image img => IO.FS.writeBinFile path img.png
    | _ => pure ()
  return o.code.toUInt32
