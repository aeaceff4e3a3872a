import MoonBackend.Command.Host
import MoonBackend.FilePath

/-!
# The commands

`moonc` compiles a document and may run the result, `moondump` prints the layout of a document, and
`moonrun` assembles and runs an assembly text.
-/

namespace MoonBackend.Command

open Text

variable {m : Type → Type} [Monad m]

/-- Writes a text to a file, or prints it when the path is `-`. -/
def Host.writeText (host : Host m) (path text : String) : m (Except String Unit) := do
  if path == "-" then
    host.printText text
    return .ok ()
  host.save path text

def Host.runCompiled (host : Host m) (config : Config) (assembly : String) : m UInt32 := do
  let outcome := runAssembly config assembly (← host.input)
  host.print outcome.output.toList
  match outcome.error with
  | none => return success
  | some e => host.fail ("run failed: " ++ e.message)

def compileFlags : List (String × FlagKind) :=
  [("in", .text), ("out", .text), ("run", .switch), ("config", .text), ("v", .switch)]

/-- Compiles a document to a file next to it, or to where `-out` says, and runs it with `-run`. -/
def moonc (host : Host m) (args : List String) : m UInt32 := do
  match parseFlags compileFlags [] args with
  | .error e => host.refuse e
  | .ok flags =>
    let source := flags.text "in"
    if source == "" then
      host.usage "nothing to do: provide -in <ast.yaml>"
    else
      match ← host.config (flags.text "config") with
      | .error e => host.fail ("config: " ++ e)
      | .ok config =>
        let path := FilePath.absolute (← host.directory) source
        match ← host.compile config path with
        | .error e => host.fail ("compilation failed: " ++ e)
        | .ok compiled =>
          let given := flags.text "out"
          let target := if given == "" then FilePath.replaceExtension path ".m" else given
          match ← host.writeText target compiled.assembly with
          | .error e => host.fail ("failed to write assembly " ++ quoted target ++ ": " ++ e)
          | .ok () =>
            if target != "-" then
              host.complain ("compiled " ++ source ++ " -> " ++ target ++ "\n")
            if flags.isOn "run" then host.runCompiled config compiled.assembly
            else return success

def dumpFlags : List (String × FlagKind) :=
  [("show-asm", .switch), ("config", .text), ("v", .switch)]

/-- Prints the layout of a document and, with `-show-asm`, its assembly text. -/
def moondump (host : Host m) (args : List String) : m UInt32 := do
  match parseFlags dumpFlags [] args with
  | .error e => host.refuse e
  | .ok flags =>
    match flags.arguments with
    | [source] =>
      match ← host.config (flags.text "config") with
      | .error e => host.fail ("config error: " ++ e)
      | .ok config =>
        match ← host.compile config source with
        | .error e => host.fail ("compile error: " ++ e)
        | .ok compiled =>
          let layout := compiled.layout
          host.printText ("Layout (" ++ decimal layout.passes ++ " passes, "
            ++ decimal layout.classLayouts ++ " class layouts)\n" ++ layout.table.dump)
          if flags.isOn "show-asm" then
            host.printText ("\nGenerated Assembly\n" ++ compiled.assembly)
          return success
    | _ => host.usage "usage: moondump [flags] program.yaml"

def runFlags : List (String × FlagKind) :=
  [("config", .text), ("steps", .number), ("v", .switch)]

def trapText (m : Machine) (t : Trap) : String :=
  match m.image.lines[m.pc]? with
  | some line => t.message ++ " (line " ++ decimal line ++ ")"
  | none => t.message

/-- Assembles and runs a text, at most as many steps as `-steps` says. -/
def moonrun (host : Host m) (args : List String) : m UInt32 := do
  match parseFlags runFlags [] args with
  | .error e => host.refuse e
  | .ok flags =>
    match flags.arguments with
    | [source] =>
      match ← host.config (flags.text "config") with
      | .error e => host.fail ("config: " ++ e)
      | .ok config =>
        let steps := flags.number "steps"
        let runtime :=
          if 0 < steps then { config.runtime with maxSteps := steps } else config.runtime
        let config := { config with runtime := runtime }
        match ← host.load (FilePath.absolute (← host.directory) source) with
        | .error e => host.fail ("Failed to read assembly file: " ++ e)
        | .ok text =>
          match assembleFor config text with
          | .error e => host.fail e.message
          | .ok image =>
            match Machine.ofImage image runtime (← host.input) with
            | .error e => host.fail e.message
            | .ok machine =>
              let (trap, machine) := machine.run
              host.print machine.output.toList
              match trap with
              | none => return success
              | some t => host.fail (trapText machine t)
    | _ => host.usage "usage: moonrun [flags] program.m"

def named (host : Host m) (name : String) : Option (List String → m UInt32) :=
  match name with
  | "moonc" => some (moonc host)
  | "moondump" => some (moondump host)
  | "moonrun" => some (moonrun host)
  | _ => none

end MoonBackend.Command
