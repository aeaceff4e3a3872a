import MoonBackend.Machine.Opcode
import Std.Data.TreeMap

/-!
# Program images

What an assembler hands to the machine: instructions by address, the initial bytes of the data, the
address of the first instruction, and what is known about the text that they came from.
-/

namespace MoonBackend

open Text

/-- An instruction with its registers and its immediate operand filled in. -/
abbrev MachineInstruction := Instruction UInt8 Int32

def MachineInstruction.text (i : MachineInstruction) : String :=
  i.render (fun r => "r" ++ decimal r.toNat) fun k => decimal k.toInt

/-- A program in the form in which the machine takes it. -/
structure Image where
  code : Std.TreeMap Int32 MachineInstruction := ∅
  data : Array UInt8 := #[]
  entry : Int32 := 0
  /-- The labels of the text with their addresses, the last one first. -/
  labels : List (String × Int32) := []
  /-- The line of the text that an instruction stood on. -/
  lines : Std.TreeMap Int32 Nat := ∅

namespace Image

/-- The number of bytes that an image spans: its data, and a word for every instruction. -/
def size (p : Image) : Int32 :=
  p.code.foldl (fun n addr _ => if n < addr + 4 then addr + 4 else n) (Int32.ofNat p.data.size)

end Image

end MoonBackend
