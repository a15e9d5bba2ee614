import Galley.Engine.Control
import Galley.Plain
import Galley.Format.Dump
import Galley.Format.Store
import Galley.Preview.Render

/-!
# Sessions

A session is one engine together with the options it was made with. It is created by
reading a prelude (the plain one unless the session names its own or none), and then runs
texts one after another: the equivalence table persists from one text to the next, while
the input, the open conditionals and the list being built start afresh each time.

A failure is a cause: an engine error, or a plain message, possibly inside a context such as
`prelude` that is written in front of it.
-/

namespace Galley

/-- The text read when a session starts. -/
inductive Prelude where
  | none
  | plain
  | source (text : String)
  deriving Inhabited, BEq

/-- Where a session keeps its formats. -/
inductive StoreChoice where
  /-- No store: format operations fail. -/
  | none
  /-- A store handed to the session, kept when the session is made afresh. -/
  | given (s : FormatStore)
  /-- A store of its own in memory, empty again whenever the session is made afresh. -/
  | ownMemory
  deriving Inhabited

/-- How a session is made. -/
structure SessionOptions where
  prelude : Prelude := .plain
  store : StoreChoice := .ownMemory
  /-- The most pending input sources; zero or less means no limit. -/
  maxDepth : Int := 5000
  /-- The most expansions in one text; zero means no limit. -/
  maxExpansions : Nat := 0
  /-- The job name; an empty one keeps the default. -/
  jobName : String := ""
  /-- Whether every text, the prelude included, is traced into the session's log. -/
  traceAll : Bool := false
  /-- The time stamped on format versions the session stores. -/
  clock : String := ""
  deriving Inhabited

/-- Why a session operation failed. -/
inductive Failure where
  | engine (e : EngineError)
  | plain (msg : String)
  | within (context : String) (cause : Failure)
  deriving Inhabited

namespace Failure

/-- The engine error kind at the root of a failure, if it is one. -/
def kind? : Failure → Option ErrorKind
  | .engine e => some e.kind
  | .plain _ => none
  | .within _ f => f.kind?

/-- The text of a failure, contexts first. -/
def message : Failure → String
  | .engine e => e.message
  | .plain m => m
  | .within c f => c ++ ": " ++ f.message

end Failure

/-- What running one text answers. -/
structure Outcome where
  /-- The outer vertical list left by the text. -/
  items : Array Item
  /-- The group level after the text. -/
  depth : Nat
  /-- Why the text stopped early, if it did. -/
  error : Option EngineError
  /-- The events of the text, when it was traced. -/
  trace : Array Traced

def Outcome.boxes (o : Outcome) : List Box :=
  o.items.toList.filterMap fun
    | .box b => some b
    | _ => none

/-- A session: its options, its engine and its store. -/
structure Session where
  options : SessionOptions
  engine : Engine
  store : Option FormatStore
  /-- The events of every text so far, when the options trace them all. -/
  log : Array Traced := #[]
  deriving Inhabited

def noStoreMessage : String := "texfront: no format store configured"

namespace Session

/-- The engine options a session's options select. -/
def engineOptions (o : SessionOptions) : EngineOptions :=
  { maxDepth := o.maxDepth, maxExpansions := o.maxExpansions,
    jobName := if o.jobName.isEmpty then "texput" else o.jobName }

/-- Runs a text, recording its events when `traced` or when the session traces all texts. -/
def process (s : Session) (text : String) (traced : Bool := false) : Session × Outcome :=
  let e := s.engine
  let e := { e with options := { e.options with tracing := traced || s.options.traceAll },
                    trace := #[] }
  let (e, err) := e.process text
  let o : Outcome := { items := e.outerList, depth := e.depth, error := err, trace := e.trace }
  let log := if s.options.traceAll then s.log ++ e.trace else s.log
  ({ s with engine := { e with options := { e.options with tracing := false }, trace := #[] }, log },
    o)

/-- The store a session made with these options starts with. -/
def initialStore (o : SessionOptions) : Option FormatStore :=
  match o.store with
  | .none => Option.none
  | .given s => some s
  | .ownMemory => some FormatStore.memory

/-- A session over a fresh engine that has read the prelude, if the options ask for one. -/
def create (o : SessionOptions) : Except Failure Session :=
  let s : Session := { options := o, engine := Engine.create (engineOptions o),
                       store := initialStore o }
  let text := match o.prelude with
    | .none => Option.none
    | .plain => some plainPrelude
    | .source "" => some plainPrelude
    | .source t => some t
  match text with
  | Option.none => .ok s
  | some t =>
    let (s, r) := s.process t
    match r.error with
    | Option.none => .ok s
    | some err => .error (.within "prelude" (.engine err))

def register (s : Session) (sp : Space) (n : Int) : Equivalent := s.engine.get { space := sp, n }

def dump (s : Session) : Except Failure Snapshot :=
  match s.engine.dump with
  | .ok snap => .ok snap
  | .error m => .error (.plain m)

/-- Loads a snapshot into the table; entries before a bad one stay assigned. -/
def load (s : Session) (snap : Snapshot) : Session × Option Failure :=
  let (e, err) := s.engine.load snap
  ({ s with engine := e }, err.map .plain)

/-- Stores the table's snapshot as a new version of a named format. -/
def dumpFormat (s : Session) (name : String) : Except Failure Session :=
  match s.store with
  | Option.none => .error (.plain noStoreMessage)
  | some st =>
    match s.dump with
    | .error f => .error f
    | .ok snap => .ok { s with store := some (st.put name snap s.options.clock) }

/-- Loads the newest version of a named format. -/
def loadFormat (s : Session) (name : String) : Session × Option Failure :=
  match s.store with
  | Option.none => (s, some (.plain noStoreMessage))
  | some st =>
    match st.get name with
    | .error m => (s, some (.within ("load format " ++ name) (.plain m)))
    | .ok Option.none => (s, some (.within ("load format " ++ name) (.plain "not found")))
    | .ok (some snap) => s.load snap

/-- The versions of a named format, newest first. -/
def history (s : Session) (name : String) (limit : Int) : Except Failure (List FormatVersion) :=
  match s.store with
  | Option.none => .error (.plain noStoreMessage)
  | some st => .ok (st.history name limit)

/-- Carries the table over to a fresh session through the store: the format is stored as
`__reload`, a session with the same options but no prelude is made, and the format is loaded
into it. A session with a store of its own finds that store empty. -/
def reload (s : Session) : Session × Option Failure :=
  match s.dumpFormat "__reload" with
  | .error f => (s, some f)
  | .ok s' =>
    let o := { s.options with prelude := .none }
    let store := match o.store with
      | .ownMemory => some FormatStore.memory
      | _ => s'.store
    let fresh : Session := { options := o, engine := Engine.create (engineOptions o), store }
    match fresh.loadFormat "__reload" with
    | (_, some f) => (s', some f)
    | (t, Option.none) => (t, Option.none)

def count (s : Session) (n : Int) : Int32 :=
  match s.register .count n with
  | .int v => v
  | _ => 0

def dimen (s : Session) (n : Int) : Scaled :=
  match s.register .dimen n with
  | .dimen v => v
  | _ => 0

def skip (s : Session) (n : Int) : Glue :=
  match s.register .skip n with
  | .glue v => v
  | _ => {}

def box (s : Session) (n : Int) : Option Box :=
  match s.register .box n with
  | .box v => v
  | _ => none

/-- The boxes of the outer list stacked at their natural size, as a page. -/
def page (s : Session) : Box := (vpack (s.engine.outerBoxes.map .box) {}).1

/-- The preview of box register `n`, or of the page when `n` is negative; none when the
register is void. -/
def preview (s : Session) (n : Int) (dpi : Float) : Option Preview.Image :=
  if n < 0 then some (Preview.render s.page dpi)
  else (s.box n).map fun b => Preview.render b dpi

/-- What `\meaning` prints for the control sequence `name`. -/
def meaning (s : Session) (name : String) : String :=
  (s.engine.meaningOf name).text

end Session

end Galley
