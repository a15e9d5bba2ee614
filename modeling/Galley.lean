import Galley.Scaled.Basic
import Galley.Scaled.Glue
import Galley.Path
import Galley.Scope.Key
import Galley.Scope.Table
import Galley.Token.Basic
import Galley.Token.Lexer
import Galley.Decimal.Digits
import Galley.Box.Basic
import Galley.Box.Pack
import Galley.Box.Show
import Galley.Font
import Galley.Meaning
import Galley.Engine.State
import Galley.Engine.Input
import Galley.Engine.Macro
import Galley.Engine.Skip
import Galley.Engine.Expand
import Galley.Engine.Lists
import Galley.Engine.Scan
import Galley.Engine.Boxes
import Galley.Engine.Assign
import Galley.Engine.Control
import Galley.Plain
import Galley.Digest.Hex
import Galley.Digest.Sha3
import Galley.Digest.Sha256
import Galley.Format.Quote
import Galley.Format.Snapshot
import Galley.Format.Dump
import Galley.Format.Store
import Galley.Session
import Galley.Preview.Image
import Galley.Preview.Raster
import Galley.Preview.Render
import Galley.Decimal.Read
import Galley.Cli.Flags
import Galley.Cli.Trace
import Galley.Cli.Editor
import Galley.Cli.Run
import Galley.Main
import Galley.Proofs.ScopeSnapshots
import Galley.Proofs.Shape
import Galley.Proofs.Lockstep
import Galley.Proofs.Reading
import Galley.Proofs.Skipping
import Galley.Proofs.Conditionals
import Galley.Proofs.Commands
import Galley.Proofs.Branches
import Galley.Proofs.Journal
import Galley.Proofs.Writes
import Galley.Proofs.Soundness
import Galley.Proofs.Trace
import Galley.Proofs.WellFormed
import Galley.Proofs.DumpLoad
import Galley.Proofs.UnitScaling
import Galley.Proofs.StoreHistory
import Galley.Proofs.Arithmetic
import Galley.Proofs.MacroArguments
import Galley.Proofs.MacroCall
import Galley.Proofs.GlueSum
import Galley.Proofs.Packing
import Galley.Proofs.Numbers
import Galley.Proofs.LineMachine
import Galley.Proofs.Badness
import Galley.Proofs.Keywords
import Galley.Proofs.Pending
import Galley.Proofs.InputStack
import Galley.Proofs.TailCalls
import Galley.Proofs.LineEditor
import Galley.Proofs.SpaceFactor
import Galley.Proofs.FractionDigits
import Galley.Proofs.Decimals
import Galley.Proofs.DimensionText
import Galley.Proofs.ReadBack
import Galley.Proofs.Interline
