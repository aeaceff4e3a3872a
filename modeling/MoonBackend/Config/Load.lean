import MoonBackend.Config.Basic
import MoonBackend.Yaml.Reading

/-!
# Loading a configuration

A document is laid over the stock configuration, then the environment, and the result is checked.
-/

namespace MoonBackend

open Yaml

inductive LoadError where
  | notWellFormed
  | wrongShape
  | refused (cause : ConfigError)
  deriving DecidableEq

namespace Config

abbrev Read := Reading LoadError

def readSizes (n : Node) (s : Sizes) : Read Sizes :=
  n.readInto s fun key value s =>
    match key with
    | "word" => return { s with word := ← value.readInt s.word }
    | "float" => return { s with float := ← value.readInt s.float }
    | "boolean" => return { s with boolean := ← value.readInt s.boolean }
    | _ => return s

def readRegisters (n : Node) (r : Registers) : Read Registers :=
  n.readInto r fun key value r =>
    match key with
    | "general" => return { r with general := ← value.readList r.general Node.intItem }
    | "zero" => return { r with zero := ← value.readInt r.zero }
    | "stack_pointer" => return { r with stackPointer := ← value.readInt r.stackPointer }
    | "return_value" => return { r with returnValue := ← value.readInt r.returnValue }
    | "link" => return { r with link := ← value.readInt r.link }
    | _ => return r

def readRuntime (n : Node) (r : Runtime) : Read Runtime :=
  n.readInto r fun key value r =>
    match key with
    | "int_to_string" => return { r with intToString := ← value.readString r.intToString }
    | "print_string" => return { r with printString := ← value.readString r.printString }
    | "read_string" => return { r with readString := ← value.readString r.readString }
    | "string_to_int" => return { r with stringToInt := ← value.readString r.stringToInt }
    | "value_param" => return { r with valueParam := ← value.readInt r.valueParam }
    | "buffer_param" => return { r with bufferParam := ← value.readInt r.bufferParam }
    | "buffer_label" => return { r with bufferLabel := ← value.readString r.bufferLabel }
    | "buffer_size" => return { r with bufferSize := ← value.readInt r.bufferSize }
    | "top_of_memory" => return { r with topOfMemory := ← value.readString r.topOfMemory }
    | "memory_size" => return { r with memorySize := ← value.readInt r.memorySize }
    | "max_steps" => return { r with maxSteps := ← value.readInt r.maxSteps }
    | _ => return r

def readEmission (n : Node) (e : Emission) : Read Emission :=
  n.readInto e fun key value e =>
    match key with
    | "entry_function" => return { e with entryFunction := ← value.readString e.entryFunction }
    | "float_separator" => return { e with floatSeparator := ← value.readString e.floatSeparator }
    | "comments" => return { e with comments := ← value.readBool e.comments }
    | "newline" => return { e with newline := ← value.readBool e.newline }
    | _ => return e

def read (n : Node) (c : Config) : Read Config :=
  n.readInto c fun key value c =>
    match key with
    | "sizes" => return { c with sizes := ← readSizes value c.sizes }
    | "registers" => return { c with registers := ← readRegisters value c.registers }
    | "runtime" => return { c with runtime := ← readRuntime value c.runtime }
    | "emit" => return { c with emit := ← readEmission value c.emit }
    | _ => return c

/-- The configuration with the document laid over it. -/
def overlay (c : Config) (source : String) : Except LoadError Config :=
  match Node.ofSource source with
  | none => .error .notWellFormed
  | some none => .ok c
  | some (some root) => do
    let (c', problem) ← (read root c).finish
    if problem then throw .wrongShape
    return c'

def load (source : Option String) (env : String → Option String) : Except LoadError Config := do
  let c ← match source with
    | some text => overlay {} text
    | none => pure {}
  let c := c.withEnvironment env
  match c.validate with
  | .ok () => return c
  | .error cause => throw (.refused cause)

end Config

end MoonBackend
