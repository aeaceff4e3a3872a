import MoonBackend.Config.Basic
import MoonBackend.Machine.Image
import MoonBackend.Machine.Memory

/-!
# The machine

Sixteen registers of 32 bits, memory, the unread input and the output so far. Register 0 is never
written by an instruction.
-/

namespace MoonBackend

open Text

/-- Why the machine stops before its program does. -/
inductive Trap where
  | memory (addr pc : Int32)
  | noInstruction (pc : Int32)
  | divide (pc : Int32)
  | unknownOpcode (op : Opcode) (pc : Int32)
  | stepLimit (limit : Int64)
  /-- An access that passed its check without being inside the machine. -/
  | overrun
  deriving DecidableEq

def Trap.message : Trap → String
  | .memory addr pc =>
    "memory access out of range: " ++ decimal addr.toInt ++ " at pc " ++ decimal pc.toInt
  | .noInstruction pc => "no instruction at pc " ++ decimal pc.toInt
  | .divide pc => "division by zero at pc " ++ decimal pc.toInt
  | .unknownOpcode op pc => "unknown opcode " ++ op.mnemonic ++ " at pc " ++ decimal pc.toInt
  | .stepLimit limit => "step limit reached (" ++ decimal limit.toInt ++ ")"
  | .overrun => "access outside the machine"

structure Machine where
  regs : Vector Int32 16 := Vector.replicate 16 0
  pc : Int32
  memory : Memory
  halted : Bool := false
  steps : Nat := 0
  /-- The bytes of the input that were not read yet. -/
  input : List UInt8 := []
  output : Array UInt8 := #[]
  image : Image
  runtime : Runtime

structure TooLarge where
  size : Int32
  memory : Int64
  deriving DecidableEq

def TooLarge.message (e : TooLarge) : String :=
  "program of " ++ decimal e.size.toInt ++ " bytes does not fit in " ++ decimal e.memory.toInt
    ++ " bytes of memory"

namespace Machine

def resultRegister : Fin 16 := 13

def stackPointer : Fin 16 := 14

def linkRegister : Fin 16 := 15

/-- A machine with a program in its memory, at its first instruction. -/
def ofImage (p : Image) (rt : Runtime) (input : List UInt8) : Except TooLarge Machine :=
  if rt.memorySize.toInt32 < p.size then .error ⟨p.size, rt.memorySize⟩
  else
    .ok { pc := p.entry, memory := .ofData p.data rt.memorySize.toNatClampNeg, input := input,
          image := p, runtime := rt }

def reg? (m : Machine) (r : UInt8) : Option Int32 := m.regs[r.toNat]?

/-- The machine with a register written. Register 0 keeps its value. -/
def setReg (m : Machine) (r : UInt8) (v : Int32) : Machine :=
  if r == 0 then m
  else { m with regs := m.regs.setIfInBounds r.toNat v }

def trapOf (m : Machine) (addr : Int32) : AccessError → Trap
  | .outOfRange => .memory addr m.pc
  | .overrun => .overrun

def loadWord (m : Machine) (addr : Int32) : Except Trap Int32 :=
  (m.memory.loadWord addr).mapError (m.trapOf addr)

def loadByte (m : Machine) (addr : Int32) : Except Trap UInt8 :=
  (m.memory.loadByte addr).mapError (m.trapOf addr)

def check (m : Machine) (addr n : Int32) : Except Trap Unit :=
  (m.memory.check addr n).mapError (m.trapOf addr)

/-- The machine with a word written at an address that was checked. -/
def putWord (m : Machine) (addr v : Int32) : Machine :=
  { m with memory := m.memory.putWord addr v }

/-- The machine with the low byte of a word written at an address that was checked. -/
def putByte (m : Machine) (addr v : Int32) : Machine :=
  { m with memory := m.memory.putByte addr (byteAt v 0) }

def storeWord (m : Machine) (addr v : Int32) : Except Trap Machine :=
  (m.check addr 4).map fun _ => m.putWord addr v

def storeByte (m : Machine) (addr v : Int32) : Except Trap Machine :=
  (m.check addr 1).map fun _ => m.putByte addr v

end Machine

end MoonBackend
