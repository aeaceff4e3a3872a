import MoonBackend.Assembly.Assemble
import MoonBackend.Emit.Program
import MoonBackend.Machine.Step
import MoonBackend.Symbols.Build
import MoonBackend.Tree.Decode

/-!
# From a document to a run

A document is decoded, its names are resolved, its frames are laid out and its code is emitted. The
text of the code can be assembled and run on the machine.
-/

namespace MoonBackend

inductive CompileError where
  | decode (cause : DecodeError)
  | symbols (cause : BuildError)
  | fault (cause : Fault)
  deriving DecidableEq

def CompileError.message : CompileError → String
  | .decode cause => "decode: " ++ cause.message
  | .symbols cause => "symbols: " ++ cause.message
  | .fault cause => cause.message

/-- What a compilation produces. -/
structure Compiled where
  code : Code
  layout : Layout

def Compiled.assembly (c : Compiled) : String := c.code.text

/-- Emits the code of a table. The log tells how far the work came. -/
def compileTable (config : Config) (t : Table) :
    Except CompileError Compiled × List LogRecord :=
  match (Layout.ofTable t config).resolve with
  | (.error f, layout) => (.error (.fault f), layout.log)
  | (.ok (), layout) =>
    match Emit.run config layout with
    | (.error f, log) => (.error (.fault f), layout.log ++ log)
    | (.ok code, log) =>
      (.ok ⟨code, layout⟩, layout.log ++ log ++ [⟨.info, "compiled",
        [("functions", .number t.functions.length), ("classes", .number t.classes.length),
          ("passes", .number layout.passes)]⟩])

/-- Compiles a program. -/
def compile (config : Config) (p : Program) : Except CompileError Compiled × List LogRecord :=
  match Table.build p with
  | .error cause => (.error (.symbols cause), [])
  | .ok t => compileTable config t

def compileSource (config : Config) (source : String) :
    Except CompileError Compiled × List LogRecord :=
  match Program.decode source with
  | .error cause => (.error (.decode cause), [])
  | .ok p => compile config p

inductive RunError where
  | assembly (cause : Assembly.AssemblyError)
  | tooLarge (cause : TooLarge)
  | trap (cause : Trap)
  deriving DecidableEq

def RunError.message : RunError → String
  | .assembly cause => "assembly error: " ++ cause.message
  | .tooLarge cause => cause.message
  | .trap cause => "run: " ++ cause.message

def assembleFor (config : Config) (assembly : String) : Except RunError Image :=
  (Assembly.assemble assembly config.runtime.symbols).mapError .assembly

structure RunOutcome where
  error : Option RunError
  output : Array UInt8
  log : List LogRecord

def runAssembly (config : Config) (assembly : String) (input : List UInt8) : RunOutcome :=
  match assembleFor config assembly with
  | .error e => ⟨some e, #[], []⟩
  | .ok image =>
    match Machine.ofImage image config.runtime input with
    | .error cause => ⟨some (.tooLarge cause), #[], []⟩
    | .ok m =>
      match m.run with
      | (trap, m) => ⟨trap.map .trap, m.output, Machine.runLog (trap, m)⟩

end MoonBackend
