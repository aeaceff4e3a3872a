import MoonBackend.Assembly.Assemble
import MoonBackend.Assembly.Operand
import MoonBackend.Assembly.Source
import MoonBackend.Command.Flags
import MoonBackend.Command.Host
import MoonBackend.Command.Programs
import MoonBackend.Compile
import MoonBackend.Config.Basic
import MoonBackend.Config.Load
import MoonBackend.Decimal
import MoonBackend.Emit.Basic
import MoonBackend.Emit.Float
import MoonBackend.Emit.Line
import MoonBackend.Emit.Program
import MoonBackend.Emit.Statement
import MoonBackend.Emit.Transfer
import MoonBackend.Emit.Value
import MoonBackend.Fault
import MoonBackend.FilePath
import MoonBackend.Layout.Demand
import MoonBackend.Layout.Place
import MoonBackend.Layout.Resolve
import MoonBackend.Layout.Size
import MoonBackend.Log
import MoonBackend.Machine.Basic
import MoonBackend.Machine.Image
import MoonBackend.Machine.Library
import MoonBackend.Machine.Memory
import MoonBackend.Machine.Opcode
import MoonBackend.Machine.Step
import MoonBackend.Main
import MoonBackend.RegisterPool
import MoonBackend.Symbols.Build
import MoonBackend.Symbols.Entry
import MoonBackend.Symbols.Scope
import MoonBackend.Symbols.Table
import MoonBackend.Text.Bytes
import MoonBackend.Text.Character
import MoonBackend.Text.Numeral
import MoonBackend.Text.Property
import MoonBackend.Text.Quoted
import MoonBackend.Text.Words
import MoonBackend.Tree.Decode
import MoonBackend.Tree.Expr
import MoonBackend.Tree.Operator
import MoonBackend.Tree.Program
import MoonBackend.Tree.Ty
import MoonBackend.Yaml.Cursor
import MoonBackend.Yaml.Node
import MoonBackend.Yaml.Reading
import MoonBackend.Yaml.Scalar
import MoonBackend.Yaml.ScalarText
import MoonBackend.Yaml.Token
import MoonBackend.Proofs.Code.Execution
import MoonBackend.Proofs.Emit.Monad
import MoonBackend.Proofs.Emit.Registers
import MoonBackend.Proofs.Float.Loops
import MoonBackend.Proofs.Float.Sum
import MoonBackend.Proofs.Float.Refinement
import MoonBackend.Proofs.Assembly.Lines
import MoonBackend.Proofs.Assembly.Operands
import MoonBackend.Proofs.Assembly.Labels
import MoonBackend.Proofs.Assembly.Image
import MoonBackend.Proofs.Layout.Later
import MoonBackend.Proofs.Layout.Resolved
import MoonBackend.Proofs.Symbols.Built
import MoonBackend.Proofs.Integer.Code
import MoonBackend.Proofs.Integer.Emission
import MoonBackend.Proofs.Assembly.Acceptable
import MoonBackend.Proofs.Integer.Execution
import MoonBackend.Proofs.Integer.Library
import MoonBackend.Proofs.Integer.Simulation
import MoonBackend.Proofs.Integer.Lines
import MoonBackend.Proofs.Integer.Completion
import MoonBackend.Proofs.Integer.Frame
import MoonBackend.Proofs.Compiled
import MoonBackend.Proofs.Emit.Program
import MoonBackend.Proofs.Integer.Program
import MoonBackend.Proofs.Integer.Assembled
import MoonBackend.Proofs.Layout.Classes
import MoonBackend.Proofs.Integer.Resolve
import MoonBackend.Proofs.Integer.Correct
import MoonBackend.Proofs.Emit.Triple
import MoonBackend.Proofs.Emit.Labels
import MoonBackend.Proofs.Emit.Steps
import MoonBackend.Proofs.Emit.Tags
import MoonBackend.Proofs.Layout.Bytes
import MoonBackend.Proofs.Symbols.Declared
import MoonBackend.Proofs.Layout.Exact
import MoonBackend.Proofs.Layout.Sizing
import MoonBackend.Proofs.Layout.Placing
import MoonBackend.Proofs.Symbols.Reorder
import MoonBackend.Proofs.Layout.Resolution
import MoonBackend.Proofs.Layout.Laid
import MoonBackend.Proofs.Layout.Parts
import MoonBackend.Proofs.Layout.Inheritance
import MoonBackend.Proofs.Emit.Standing
import MoonBackend.Proofs.Emit.Faults
import MoonBackend.Proofs.Assembly.Listing
import MoonBackend.Proofs.Assembly.Exact
import MoonBackend.Proofs.Symbols.Names
import MoonBackend.Proofs.Emit.Pool
import MoonBackend.Proofs.Emit.Prepared
import MoonBackend.Proofs.Emit.Shape
import MoonBackend.Proofs.Emit.Shaped
import MoonBackend.Proofs.Emit.Straight
import MoonBackend.Proofs.Emit.Regular
import MoonBackend.Proofs.Emit.Routines
import MoonBackend.Proofs.Emit.Readable
import MoonBackend.Proofs.Assembly.Flow
import MoonBackend.Proofs.Emit.Closed
import MoonBackend.Proofs.Assembly.Passes
import MoonBackend.Proofs.Text.Numeral
import MoonBackend.Proofs.Symbols.Completed
import MoonBackend.Proofs.Layout.Frames
import MoonBackend.Proofs.Emit.Pieces
import MoonBackend.Proofs.Emit.Slots
import MoonBackend.Proofs.Emit.Encodable
import MoonBackend.Proofs.Emit.Declared
import MoonBackend.Proofs.Emit.Fitting
import MoonBackend.Proofs.Emit.Assembling
import MoonBackend.Proofs.Emit.Confined
import MoonBackend.Proofs.Emit.Confinement
import MoonBackend.Proofs.Assembly.Mirror
import MoonBackend.Proofs.Emit.Comments
import MoonBackend.Proofs.Emit.Conventions
import MoonBackend.Proofs.Machine.Safety
import MoonBackend.Proofs.Float.Symmetry
import MoonBackend.Proofs.Float.Exact
import MoonBackend.Proofs.Float.Literal
import MoonBackend.Proofs.Layout.Tiling
import MoonBackend.Proofs.Symbols.Filled
import MoonBackend.Proofs.Symbols.DeclarationOrder
import MoonBackend.Proofs.Symbols.Annotated
import MoonBackend.Proofs.Emit.Indexing
import MoonBackend.Proofs.Code.Copies
import MoonBackend.Proofs.Emit.Receivers
import MoonBackend.Proofs.Emit.Passing
import MoonBackend.Proofs.Emit.Entering
import MoonBackend.Proofs.Emit.Returning
import MoonBackend.Proofs.Emit.CallSites
import MoonBackend.Proofs.Emit.Loaded
import MoonBackend.Proofs.Emit.Protocol
import MoonBackend.Proofs.Machine.Buffer
import MoonBackend.Proofs.Machine.RoundTrip
import MoonBackend.Proofs.Code.Printing
import MoonBackend.Proofs.Float.Printing
import MoonBackend.Proofs.Tree.TypeText
import MoonBackend.Proofs.Machine.ReadOverWrite
import MoonBackend.Proofs.Machine.Invariants
import MoonBackend.Proofs.Emit.PoolUse
import MoonBackend.Proofs.Symbols.History
