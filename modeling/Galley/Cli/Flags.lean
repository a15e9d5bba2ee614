import Galley.Decimal.Read
import Galley.Format.Quote

/-!
# Command-line flags

The command takes single-dash flags (a double dash works too): `-name value` or `-name=value`
for flags with a value, `-name` or `-name=bool` for switches. Reading stops at the first
argument that is not a flag, at a lone `-`, or after `--`; the rest is ignored. A later flag
overrides an earlier one. Any mistake is reported with the usage text, and so is a request
for help.
-/

namespace Galley.Cli

/-- What the command is asked to do. -/
structure Config where
  /-- Text to process. -/
  eval : String := ""
  /-- A file to process, before the text. -/
  file : String := ""
  /-- The format database. -/
  database : String := "texfront.db"
  /-- A format to load instead of the prelude. -/
  format : String := ""
  /-- A format to store after the run. -/
  dumpAs : String := ""
  /-- A format whose versions to list. -/
  history : String := ""
  noPrelude : Bool := false
  trace : Bool := false
  /-- Metrics from outline fonts. Only the synthetic metrics of `Galley.Font` are modelled:
  the switch is read and checked like any other, and has no effect. -/
  goFonts : Bool := false
  /-- Where to write a preview image. -/
  png : String := ""
  dpi : Float := 144
  showBoxes : Bool := false

inductive FlagKind where
  | text
  | number
  | switch
deriving DecidableEq

/-- A flag: its name, kind, description and the default shown for it. -/
structure FlagSpec where
  name : String
  kind : FlagKind
  usage : String
  shownDefault : String := ""

/-- The flags, in the order the usage lists them. -/
def flags : List FlagSpec := [
  ⟨"db", .text, "SQLite format database path", "\"texfront.db\""⟩,
  ⟨"dpi", .number, "Preview resolution", "144"⟩,
  ⟨"dump", .text, "Dump the definitions as a format after the run", ""⟩,
  ⟨"e", .text, "Process TeX string", ""⟩,
  ⟨"f", .text, "Process TeX file", ""⟩,
  ⟨"fmt", .text, "Load a dumped format instead of the prelude", ""⟩,
  ⟨"gofonts", .switch, "Use Go font metrics", ""⟩,
  ⟨"history", .text, "List the stored versions of a format and exit", ""⟩,
  ⟨"no-prelude", .switch, "Disable the plain prelude", ""⟩,
  ⟨"png", .text, "Write a preview image of the output", ""⟩,
  ⟨"show", .switch, "Print the full box structure", ""⟩,
  ⟨"trace", .switch, "Print engine events to stderr", ""⟩]

/-- The usage text: each flag with its kind, then its description and default on an
indented line. -/
def usage : String :=
  "Usage of texfront:\n" ++ String.join (flags.map fun f =>
    let kind := match f.kind with | .text => " string" | .number => " float" | .switch => ""
    "  -" ++ f.name ++ kind ++ "\n    \t" ++ f.usage ++
      (if f.shownDefault.isEmpty then "" else " (default " ++ f.shownDefault ++ ")") ++ "\n")

def readSwitch : String → Option Bool
  | "1" | "t" | "T" | "TRUE" | "true" | "True" => some true
  | "0" | "f" | "F" | "FALSE" | "false" | "False" => some false
  | _ => none

/-- Sets flag `name` to `value`, or says why the value does not fit. -/
def setFlag (c : Config) (name value : String) : Except String Config :=
  match name with
  | "db" => .ok { c with database := value }
  | "dump" => .ok { c with dumpAs := value }
  | "e" => .ok { c with eval := value }
  | "f" => .ok { c with file := value }
  | "fmt" => .ok { c with format := value }
  | "history" => .ok { c with history := value }
  | "png" => .ok { c with png := value }
  | "dpi" =>
    match Decimal.readFloat value with
    | .ok v => .ok { c with dpi := v }
    | .error .malformed => .error "parse error"
    | .error .range => .error "value out of range"
  | _ =>
    match readSwitch value with
    | none => .error "parse error"
    | some b =>
      match name with
      | "gofonts" => .ok { c with goFonts := b }
      | "no-prelude" => .ok { c with noPrelude := b }
      | "show" => .ok { c with showBoxes := b }
      | _ => .ok { c with trace := b }

/-- Why reading the flags stopped the command. -/
inductive FlagError where
  /-- A mistake, reported before the usage. -/
  | invalid (msg : String)
  /-- A request for the usage. -/
  | help

def FlagError.text : FlagError → String
  | .invalid m => m ++ "\n" ++ usage
  | .help => usage

/-- Reads the flags from the arguments, one flag a step; each step takes at least one
argument, so `fuel` at least the number of arguments reads them all. -/
def parseFlags : Nat → Config → List String → Except FlagError Config
  | 0, c, _ => .ok c
  | _, c, [] => .ok c
  | fuel + 1, c, s :: rest =>
    let cs := s.toList
    if cs.length < 2 ∨ cs.head? ≠ some '-' then .ok c
    else if s = "--" then .ok c
    else
      let name := if cs[1]? = some '-' then String.ofList (cs.drop 2) else String.ofList (cs.drop 1)
      match name.toList with
      | [] | '-' :: _ | '=' :: _ => .error (.invalid ("bad flag syntax: " ++ s))
      | n0 :: ns =>
        let (nameRest, value?) := match ns.findIdx? (· = '=') with
          | some i => (ns.take i, some (String.ofList (ns.drop (i + 1))))
          | none => (ns, none)
        let name := String.ofList (n0 :: nameRest)
        match flags.find? (·.name == name) with
        | none =>
          if name = "help" ∨ name = "h" then .error .help
          else .error (.invalid ("flag provided but not defined: -" ++ name))
        | some f =>
          if f.kind = .switch then
            match setFlag c name (value?.getD "true") with
            | .ok c => parseFlags fuel c rest
            | .error e =>
              .error (.invalid ("invalid boolean value " ++ Format.quoted (value?.getD "") ++
                " for -" ++ name ++ ": " ++ e))
          else
            let (value?, rest) := match value?, rest with
              | some v, r => (some v, r)
              | none, v :: r => (some v, r)
              | none, [] => (none, [])
            match value? with
            | none => .error (.invalid ("flag needs an argument: -" ++ name))
            | some v =>
              match setFlag c name v with
              | .ok c => parseFlags fuel c rest
              | .error e =>
                .error (.invalid ("invalid value " ++ Format.quoted v ++ " for flag -" ++ name ++
                  ": " ++ e))

/-- The configuration the arguments ask for. -/
def readFlags (args : List String) : Except FlagError Config :=
  parseFlags args.length {} args

end Galley.Cli
