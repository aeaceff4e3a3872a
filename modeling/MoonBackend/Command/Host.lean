import MoonBackend.Command.Flags
import MoonBackend.Compile
import MoonBackend.Config.Load

/-!
# What a command needs from its surroundings

Files, the standard streams, the environment and the working directory, as operations of some
monad, and the steps that several commands share. A command ends with its exit code.
-/

namespace MoonBackend.Command

/-- The surroundings of a command. Failures of files come with the system's own wording. -/
structure Host (m : Type → Type) where
  directory : m String
  environment : m (String → Option String)
  load : String → m (Except String String)
  save : String → String → m (Except String Unit)
  input : m (List UInt8)
  print : List UInt8 → m Unit
  complain : String → m Unit

def success : UInt32 := 0

def failure : UInt32 := 1

def misuse : UInt32 := 2

variable {m : Type → Type} [Monad m]

def Host.printText (host : Host m) (s : String) : m Unit := host.print s.toUTF8.toList

def Host.fail (host : Host m) (message : String) : m UInt32 := do
  host.complain (message ++ "\n")
  return failure

/-- Reports refused flags: a call for help succeeds. -/
def Host.refuse (host : Host m) (e : FlagError) : m UInt32 := do
  host.complain (e.message ++ "\n")
  return if e = .help then success else misuse

def Host.usage (host : Host m) (line : String) : m UInt32 := do
  host.complain (line ++ "\n")
  return misuse

/-- Loads the configuration from a file, or the stock one if no file is named. The error is the
wording of what went wrong. -/
def Host.config (host : Host m) (path : String) : m (Except String Config) := do
  let env ← host.environment
  let source ←
    if path == "" then pure (Except.ok none)
    else
      match ← host.load path with
      | .ok text => pure (.ok (some text))
      | .error e => pure (.error ("read config: " ++ e))
  match source with
  | .error e => return .error e
  | .ok source =>
    match Config.load source env with
    | .ok c => return .ok c
    | .error (.refused cause) => return .error cause.message
    | .error .notWellFormed =>
      return .error ("parse config " ++ path ++ ": yaml: the document cannot be parsed")
    | .error .wrongShape =>
      return .error ("parse config " ++ path ++ ": yaml: a value has the wrong shape")

def Host.compile (host : Host m) (config : Config) (path : String) :
    m (Except String Compiled) := do
  match ← host.load path with
  | .error e => return .error ("read " ++ path ++ ": " ++ e)
  | .ok source => return ((compileSource config source).1).mapError CompileError.message

end MoonBackend.Command
