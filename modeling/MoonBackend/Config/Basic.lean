import MoonBackend.Text.Numeral

/-!
# Configuration

The target machine and its library as the back end sees them, the stock values, and the
conditions under which a configuration is accepted. Section 5 of the specification.
-/

namespace MoonBackend

open Text

structure Sizes where
  word : Int64 := 4
  float : Int64 := 8
  boolean : Int64 := 1
  deriving DecidableEq

/-- The general registers, in the order in which they are handed out, and the four reserved ones. -/
structure Registers where
  general : List Int64 := [1, 2, 3, 4, 5, 6, 7, 8, 9, 10, 11, 12]
  zero : Int64 := 0
  stackPointer : Int64 := 14
  returnValue : Int64 := 13
  link : Int64 := 15
  deriving DecidableEq

/-- The library's entry names and calling convention, and the size of the machine. -/
structure Runtime where
  intToString : String := "intstr"
  printString : String := "putstr"
  readString : String := "getstr"
  stringToInt : String := "strint"
  valueParam : Int64 := -8
  bufferParam : Int64 := -12
  bufferLabel : String := "buf"
  bufferSize : Int64 := 20
  topOfMemory : String := "topaddr"
  memorySize : Int64 := 65536
  maxSteps : Int64 := 5000000
  deriving DecidableEq

structure Emission where
  entryFunction : String := "main"
  floatSeparator : String := "e"
  comments : Bool := true
  newline : Bool := true
  deriving DecidableEq

/-- A complete configuration. The stock machine is the one with every field at its default. -/
structure Config where
  sizes : Sizes := {}
  registers : Registers := {}
  runtime : Runtime := {}
  emit : Emission := {}
  deriving DecidableEq

inductive ConfigError where
  | floatSize (word float : Int64)
  | booleanSize
  | noGeneralRegisters
  | reservedNotDistinct
  | registerOutOfRange (r : Int64)
  | registerReserved (r : Int64) (role : String)
  | registerTwice (r : Int64)
  | bufferSize
  | noEntryFunction
  deriving DecidableEq

def ConfigError.message : ConfigError → String
  | .floatSize word float =>
    "config: float size must be two words (word " ++ decimal word.toInt ++ ", float "
      ++ decimal float.toInt ++ ")"
  | .booleanSize => "config: boolean size must be positive"
  | .noGeneralRegisters => "config: no general registers"
  | .reservedNotDistinct => "config: reserved registers must be distinct"
  | .registerOutOfRange r => "config: register r" ++ decimal r.toInt ++ " out of range"
  | .registerReserved r role =>
    "config: general register r" ++ decimal r.toInt ++ " is reserved as " ++ role
  | .registerTwice r => "config: general register r" ++ decimal r.toInt ++ " listed twice"
  | .bufferSize => "config: buffer size must be positive"
  | .noEntryFunction => "config: entry function name is empty"

namespace Registers

def reserved (r : Registers) : List (Int64 × String) :=
  [(r.zero, "zero"), (r.stackPointer, "stack pointer"), (r.returnValue, "return value"),
    (r.link, "link")]

/-- The first fault of a list of general registers, of which `seen` were already accepted. -/
def checkGeneral (regs : Registers) (seen : List Int64) : List Int64 → Except ConfigError Unit
  | [] => .ok ()
  | r :: rest =>
    if r < 0 || 15 < r then .error (.registerOutOfRange r)
    else
      match regs.reserved.lookup r with
      | some role => .error (.registerReserved r role)
      | none =>
        if seen.contains r then .error (.registerTwice r) else checkGeneral regs (r :: seen) rest

end Registers

/-- Accepts a configuration that the back end can work with, or names its first fault. -/
def Config.validate (c : Config) : Except ConfigError Unit := do
  if c.sizes.word ≤ 0 || c.sizes.float != 2 * c.sizes.word then
    throw (.floatSize c.sizes.word c.sizes.float)
  if c.sizes.boolean ≤ 0 then
    throw .booleanSize
  if c.registers.general.isEmpty then
    throw .noGeneralRegisters
  if !decide (c.registers.reserved.map Prod.fst).Nodup then
    throw .reservedNotDistinct
  c.registers.checkGeneral [] c.registers.general
  if c.runtime.bufferSize ≤ 0 then
    throw .bufferSize
  if c.emit.entryFunction == "" then
    throw .noEntryFunction

/-- The words that switch comments on, in lower case, capitalised or in upper case. -/
def affirmations : List String :=
  ["1", "t", "y", "true", "yes", "enable", "enabled", "positive", "affirmative", "absolutely"]

def isAffirmation (s : String) : Bool :=
  affirmations.any fun w => s == w || s == w.capitalize || s == w.toUpper

/-- The configuration with the environment's settings laid over it. An empty variable counts as
unset, and a number that cannot be read is passed over. -/
def Config.withEnvironment (c : Config) (env : String → Option String) : Config :=
  let setting (name : String) : Option String := (env name).filter (· != "")
  let number (name : String) (default : Int64) : Int64 :=
    ((setting name).bind fun s => decimal64? s.toList).getD default
  { c with
    emit := { c.emit with
      entryFunction := (setting "MOONC_ENTRY").getD c.emit.entryFunction
      floatSeparator := (setting "MOONC_SEPARATOR").getD c.emit.floatSeparator
      comments := ((setting "MOONC_COMMENTS").map isAffirmation).getD c.emit.comments }
    runtime := { c.runtime with
      bufferSize := number "MOONC_BUFFER_SIZE" c.runtime.bufferSize
      memorySize := number "MOONC_MEMORY" c.runtime.memorySize } }

end MoonBackend
