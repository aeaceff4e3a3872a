import MoonBackend.Machine.Basic
import MoonBackend.Text.Bytes
import MoonBackend.Text.Numeral

/-!
# The library of the machine

Four routines that the machine itself carries out. Their entries lie just past the memory, where no
program can put anything. They find their parameters at fixed distances from the stack pointer and
return through the link register; a text ends at its first zero byte.
-/

namespace MoonBackend

open Text

inductive Routine where
  | intToString
  | printString
  | readString
  | stringToInt
  deriving DecidableEq

namespace Runtime

/-- The address of the first routine: one word past the memory. -/
def libraryBase (rt : Runtime) : Int32 := rt.memorySize.toInt32 + 4

def routine? (rt : Runtime) (addr : Int32) : Option Routine :=
  let base := rt.libraryBase
  if addr == base then some .intToString
  else if addr == base + 4 then some .printString
  else if addr == base + 8 then some .readString
  else if addr == base + 12 then some .stringToInt
  else none

/-- The names that a program may use without defining them, with their addresses. Of two equal
names the later one counts, and it stands first. -/
def symbols (rt : Runtime) : List (String × Int32) :=
  let base := rt.libraryBase
  [(rt.stringToInt, base + 12), (rt.readString, base + 8), (rt.printString, base + 4),
    (rt.intToString, base), (rt.topOfMemory, rt.memorySize.toInt32 - 4)]

end Runtime

namespace Machine

def param (m : Machine) (off : Int64) : Except Trap Int32 :=
  m.loadWord (m.regs.get stackPointer + off.toInt32)

def setResult (m : Machine) (v : Int32) : Machine :=
  { m with regs := m.regs.set resultRegister v }

def getText (m : Machine) (addr : Int32) : Except Trap (List UInt8) :=
  (m.memory.getText addr).mapError fun (place, e) => m.trapOf place e

/-- Writes a text. What was written before a refused byte stays. -/
def putText (m : Machine) (addr : Int32) (text : List UInt8) : Option Trap × Machine :=
  match m with
  | { regs, pc, memory, halted, steps, input, output, image, runtime } =>
    match memory.putText addr text with
    | (refused, memory) =>
      let m : Machine := { regs, pc, memory, halted, steps, input, output, image, runtime }
      (refused.map fun (place, e) => m.trapOf place e, m)

def splitLine (bytes : List UInt8) : List UInt8 × List UInt8 :=
  let line := bytes.takeWhile (· != 10)
  match bytes.dropWhile (· != 10) with
  | [] => (line, [])
  | b :: rest => (line ++ [b], rest)

/-- A line without the line feeds and carriage returns at its end. -/
def chomp (line : List UInt8) : List UInt8 :=
  (line.reverse.dropWhile fun b => b == 10 || b == 13).reverse

/-- The integer that a text spells between blanks, 0 if it spells none. -/
def numberIn (text : List UInt8) : Int32 :=
  (decimal32? ((trimBytes text).map fun b => Char.ofNat b.toNat)).getD 0

/-- Writes the value parameter as a decimal into the buffer; the result is the buffer's address. -/
def intToString (m : Machine) : Option Trap × Machine :=
  match m.param m.runtime.valueParam with
  | .error t => (some t, m)
  | .ok v =>
    match m.param m.runtime.bufferParam with
    | .error t => (some t, m)
    | .ok buffer =>
      match m.putText buffer (textBytes (decimal v.toInt)) with
      | (some t, m) => (some t, m)
      | (none, m) => (none, m.setResult buffer)

def printString (m : Machine) : Option Trap × Machine :=
  match m.param m.runtime.valueParam with
  | .error t => (some t, m)
  | .ok addr =>
    match m.getText addr with
    | .error t => (some t, m)
    | .ok text => (none, { m with output := m.output ++ text })

/-- Reads a line of input into the buffer at the value parameter, cut to the size of the buffer. -/
def readString (m : Machine) : Option Trap × Machine :=
  match m.param m.runtime.valueParam with
  | .error t => (some t, m)
  | .ok addr =>
    match splitLine m.input with
    | (line, rest) =>
      let m := { m with input := rest }
      let room := m.runtime.bufferSize - 1
      if room < 0 then (some .overrun, m)
      else m.putText addr ((chomp line).take room.toNatClampNeg)

def stringToInt (m : Machine) : Option Trap × Machine :=
  match m.param m.runtime.valueParam with
  | .error t => (some t, m)
  | .ok addr =>
    match m.getText addr with
    | .error t => (some t, m)
    | .ok text => (none, m.setResult (numberIn text))

def call (m : Machine) : Routine → Option Trap × Machine
  | .intToString => m.intToString
  | .printString => m.printString
  | .readString => m.readString
  | .stringToInt => m.stringToInt

end Machine

end MoonBackend
