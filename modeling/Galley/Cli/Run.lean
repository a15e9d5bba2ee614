import Galley.Session
import Galley.Path
import Galley.Cli.Flags
import Galley.Cli.Trace
import Galley.Cli.Editor
import Galley.Cli.Volume

/-!
# The command

One run of the command: read the flags, make a session (with the format database when a
format is loaded, stored or listed), process the file and then the text given, or else the
standard input, and print the outer boxes, as text or in full; then write the preview and
store the format if asked. When the standard input is a terminal and nothing else is given,
the command reads it line by line instead, each line processed on its own while definitions
persist. A run answers its exit status (0, 1 after an error, 2 for bad flags), what it
wrote to its two outputs, and the directory as it left it.
-/

namespace Galley.Cli

/-- What a run is given besides its arguments. -/
structure Stdin where
  /-- The bytes of the standard input, as text. -/
  text : String := ""
  /-- The input is a terminal in raw mode. -/
  terminal : Bool := false
  /-- The input is a device that is no terminal: it is taken line by line, like a terminal,
  but without editing. -/
  device : Bool := false

/-- What a run answers. -/
structure Outcome where
  code : Nat
  stdout : String
  stderr : String

/-- The state of a run: the session, the directory, and the two outputs so far. -/
structure RunState where
  session : Session
  volume : Volume
  out : String := ""
  err : String := ""

/-- The boxes as the command prints them: each in full, or its text on a line unless empty. -/
def boxesText (boxes : List Box) (full : Bool) : String :=
  String.join (boxes.map fun b =>
    if full then b.listing else if b.text.isEmpty then "" else b.text ++ "\n")

def isBlank (c : Char) : Bool :=
  c = ' ' ∨ c = '\t' ∨ c = '\n' ∨ c.toNat = 11 ∨ c.toNat = 12 ∨ c = '\r' ∨ c.toNat = 0x85 ∨
    c.toNat = 0xa0 ∨ c.toNat = 0x1680 ∨ (0x2000 ≤ c.toNat ∧ c.toNat ≤ 0x200a) ∨
    c.toNat = 0x2028 ∨ c.toNat = 0x2029 ∨ c.toNat = 0x202f ∨ c.toNat = 0x205f ∨ c.toNat = 0x3000

/-- Processes one line of the interactive loop: its boxes, then the error if there was one. -/
def evalLine (s : Session) (full : Bool) (input : String) : Session × String :=
  let (s, o) := s.process input
  (s, boxesText o.boxes full ++ match o.error with
    | some e => "! " ++ e.message ++ "\n"
    | none => "")

def banner : String :=
  "texfront (Ctrl+D to exit)\nEach line is processed on its own; definitions persist.\n" ++
    "End a line with \\\\ to continue it.\n\n"

/-- Where the interactive loop is: whether it is inside a continued input, and what it has
gathered of it. -/
structure Gathered where
  pending : Option String := none

/-- Takes one line read by the loop: a line ending in a doubled backslash is continued on
the next one (without those two characters), anything else completes the input, which is
answered unless it is blank. -/
def Gathered.take (g : Gathered) (line : String) : Gathered × Option String :=
  if line.endsWith "\\\\" then
    ({ pending := some (g.pending.getD "" ++ (line.dropEnd 2).toString ++ "\n") }, none)
  else
    let input := g.pending.getD "" ++ line
    ({ pending := none }, if input.all isBlank then none else some input)

def Gathered.prompt (g : Gathered) : String := if g.pending.isSome then ". " else "* "

/-- The loop that joins continued lines and answers each complete input. Each line read
comes with the echo its reading wrote: the prompt and the echo are shown, the line is taken,
and a complete input that is not blank is answered by `answer`, whose text is shown after
it. When the input ends, the last prompt is shown with the echo of the line it ended in. -/
def readLines {σ : Type} (answer : σ → String → σ × String) :
    σ → Gathered → List (String × String) → String → String → σ × String
  | s, g, [], last, shown => (s, shown ++ g.prompt ++ last)
  | s, g, (echo, line) :: lines, last, shown =>
    let shown := shown ++ g.prompt ++ echo
    let (g, input) := g.take line
    match input with
    | none => readLines answer s g lines last shown
    | some i =>
      let (s, ans) := answer s i
      readLines answer s g lines last (shown ++ ans)

/-- The interactive loop on a raw terminal: prompts, the editor's echo, and each answer with
its line breaks written as carriage return and line feed. -/
def rawLoop (full : Bool) (s : Session) (bytes : List UInt8) : Session × String :=
  let (lines, last) := terminalLines bytes
  readLines (fun s i => let (s, ans) := evalLine s full i; (s, ans.replace "\n" "\r\n"))
    s {} lines last ""

/-- The interactive loop on other input: prompts and answers, line by line. -/
def plainLoop (full : Bool) (s : Session) (lines : List String) : Session × String :=
  readLines (fun s i => evalLine s full i) s {} (lines.map fun l => ("", l)) "" ""

/-- The lines of a text as a line reader gives them: split after each line feed, a last
empty piece dropped, trailing carriage returns and line feeds removed. -/
def inputLines (text : String) : List String :=
  let pieces := text.splitOn "\n"
  let pieces := if pieces.getLast? = some "" then pieces.dropLast else pieces
  pieces.map fun p => String.ofList (p.toList.reverse.dropWhile (fun c => c = '\r' ∨ c = '\n')).reverse

def traceText (s : Session) : String :=
  String.join (s.log.toList.map fun t => eventLine t ++ "\n")

/-- Finishes a run: the status, the outputs with the trace before any error, the directory. -/
def RunState.finish (st : RunState) (code : Nat) : Outcome × Volume :=
  ({ code, stdout := st.out, stderr := traceText st.session ++ st.err }, st.volume)

def RunState.fail (st : RunState) (msg : String) : Outcome × Volume :=
  { st with err := st.err ++ "Error: " ++ msg ++ "\n" }.finish 1

/-- Keeps the session's store in the database file, unless the database has no path. -/
def RunState.saveStore (st : RunState) (cfg : Config) : RunState :=
  match st.session.store with
  | some db => if cfg.database.isEmpty then st
    else { st with volume := st.volume.write cfg.database (.database db) }
  | none => st

/-- Stores the format after the run, if asked. -/
def RunState.dumpAndFinish (st : RunState) (cfg : Config) : Outcome × Volume :=
  if cfg.dumpAs.isEmpty then st.finish 0
  else match st.session.dumpFormat cfg.dumpAs with
    | .error f => st.fail f.message
    | .ok s => ({ st with session := s }.saveStore cfg).finish 0

/-- Processes a text, adding its boxes; on an error the run fails. -/
def RunState.feed (st : RunState) (boxes : List Box) (text : String) :
    Except (Outcome × Volume) (RunState × List Box) :=
  let (s, o) := st.session.process text
  let st := { st with session := s }
  match o.error with
  | some e => .error (st.fail e.message)
  | none => .ok (st, boxes ++ o.boxes)

/-- Prints the boxes, writes the preview, and stores the format. -/
def RunState.conclude (st : RunState) (cfg : Config) (boxes : List Box) : Outcome × Volume :=
  let st := { st with out := st.out ++ boxesText boxes cfg.showBoxes }
  if cfg.png.isEmpty then st.dumpAndFinish cfg
  else
    match st.volume.creatable cfg.png with
    | .error m => st.fail m
    | .ok () =>
      let page := (vpack (boxes.map .box) {}).1
      let img := Preview.render page cfg.dpi
      { st with volume := st.volume.write cfg.png (.image img) }.dumpAndFinish cfg

/-- A run with its flags read. -/
def runWith (cfg : Config) (stdin : Stdin) (vol : Volume) (clock : String) : Outcome × Volume :=
  let needStore := !cfg.format.isEmpty || !cfg.dumpAs.isEmpty || !cfg.history.isEmpty
  let opened : Except String (Option FormatStore) :=
    if !needStore then .ok none
    else if cfg.database.isEmpty then .ok (some FormatStore.database)
    else (vol.openDatabase cfg.database).map some
  match opened with
  | .error m => ({ code := 1, stdout := "", stderr := "Error: " ++ m ++ "\n" }, vol)
  | .ok store =>
    let opts : SessionOptions :=
      { prelude := if cfg.noPrelude || !cfg.format.isEmpty then .none else .plain,
        store := match store with | some db => .given db | none => .none,
        jobName := if cfg.file.isEmpty then "" else Path.jobName cfg.file,
        traceAll := cfg.trace, clock }
    match Session.create opts with
    | .error f => ({ code := 1, stdout := "", stderr := "Error: " ++ f.message ++ "\n" }, vol)
    | .ok s =>
      let st : RunState := ({ session := s, volume := vol } : RunState).saveStore cfg
      if !cfg.history.isEmpty then
        match s.history cfg.history 0 with
        | .error f => st.fail f.message
        | .ok vs =>
          { st with out := String.join (vs.map fun (v : FormatVersion) =>
              toString v.number ++ "\t" ++ v.stamp ++ "\t" ++ String.ofList (v.digest.toList.take 12) ++
                "\t" ++ toString v.entries ++ " entries\n") }.finish 0
      else
      let loaded : Except (Outcome × Volume) RunState :=
        if cfg.format.isEmpty then .ok st
        else match st.session.loadFormat cfg.format with
          | (_, some f) => .error (st.fail f.message)
          | (s, none) => .ok { st with session := s }
      match loaded with
      | .error r => r
      | .ok st =>
        if !cfg.file.isEmpty || !cfg.eval.isEmpty then
          let fromFile : Except (Outcome × Volume) (RunState × List Box) :=
            if cfg.file.isEmpty then .ok (st, [])
            else match st.volume.readText cfg.file with
              | .error m => .error (st.fail m)
              | .ok t => st.feed [] t
          match fromFile with
          | .error r => r
          | .ok (st, boxes) =>
            let fromText := if cfg.eval.isEmpty then .ok (st, boxes) else st.feed boxes cfg.eval
            match fromText with
            | .error r => r
            | .ok (st, boxes) => st.conclude cfg boxes
        else if stdin.terminal then
          let bytes := stdin.text.toUTF8.toList
          let (s, shown) := rawLoop cfg.showBoxes st.session bytes
          { st with session := s, out := st.out ++ banner ++ shown ++ "\r\n" }.dumpAndFinish cfg
        else if stdin.device then
          let (s, shown) := plainLoop cfg.showBoxes st.session (inputLines stdin.text)
          { st with session := s, out := st.out ++ banner ++ shown ++ "\n" }.dumpAndFinish cfg
        else
          match st.feed [] stdin.text with
          | .error r => r
          | .ok (st, boxes) => st.conclude cfg boxes

/-- Runs the command with its arguments, input, directory and the time of day to stamp
stored versions with. -/
def run (args : List String) (stdin : Stdin) (vol : Volume) (clock : String) : Outcome × Volume :=
  match readFlags args with
  | .error e => ({ code := 2, stdout := "", stderr := e.text }, vol)
  | .ok cfg => runWith cfg stdin vol clock

end Galley.Cli
