import MoonBackend.Assembly.Operand
import MoonBackend.Machine.Memory

/-!
# Assembling

Two passes over the lines. The first finds the address of every label, the second makes the image.
An instruction and every operand of `dw` take a word, every operand of `db` a byte, `res` as many
bytes as it says; `align` goes to the next word, `org` forward to an address.
-/

namespace MoonBackend.Assembly

open Text

def aligned (addr : Int32) : Int32 := addr + (4 - addr % 4) % 4

def origin (line : SourceLine) (addr : Int32) : Except AssemblyError Int32 :=
  match line.operands with
  | [value] =>
    match literal32? value.toList with
    | none => .error (.badOrigin line.number value)
    | some target => if target < addr then .error (.originBackward line.number) else .ok target
  | _ => .error (.originOperands line.number)

def reserved (line : SourceLine) : Except AssemblyError Int32 :=
  match line.operands with
  | [size] =>
    match literal32? size.toList with
    | none => .error (.badReserve line.number size)
    | some n => if n < 0 then .error (.badReserve line.number size) else .ok n
  | _ => .error (.reserveOperands line.number)

/-- The address that the label and the content of a line have. -/
def lineStart (line : SourceLine) (addr : Int32) : Except AssemblyError Int32 :=
  if line.mnemonic == "org" then origin line addr
  else if line.mnemonic == "align" then .ok (aligned addr)
  else .ok addr

def lineSize (line : SourceLine) : Except AssemblyError Int32 :=
  if ["", "entry", "org", "align"].contains line.mnemonic then .ok 0
  else if line.mnemonic == "dw" then .ok (Int32.ofNat (4 * line.operands.length))
  else if line.mnemonic == "db" then .ok (Int32.ofNat line.operands.length)
  else if line.mnemonic == "res" then reserved line
  else if (Opcode.parse? line.mnemonic).isSome then .ok 4
  else .error (.unknownInstruction line.number line.mnemonic)

def addLabel (line : SourceLine) (addr : Int32) (labels : List (String × Int32)) :
    Except AssemblyError (List (String × Int32)) :=
  if line.label == "" then .ok labels
  else if (labels.lookup line.label).isSome then
    .error (.duplicateLabel line.label line.number)
  else .ok ((line.label, addr) :: labels)

/-- The first pass: the labels of lines from an address onwards, added to those found before. -/
def collectLabels : Int32 → List (String × Int32) → List SourceLine →
    Except AssemblyError (List (String × Int32))
  | _, labels, [] => .ok labels
  | addr, labels, line :: rest =>
    match lineStart line addr with
    | .error e => .error e
    | .ok start =>
      match addLabel line start labels with
      | .error e => .error e
      | .ok labels =>
        match lineSize line with
        | .error e => .error e
        | .ok size => collectLabels (start + size) labels rest

structure Pass where
  address : Int32 := 0
  image : Image := {}
  entrySeen : Bool := false

/-- The data with a byte at an address; the bytes before it that were not given are zero. -/
def poke (data : Array UInt8) (addr : Int32) (b : UInt8) : Array UInt8 :=
  let a := addr.toNatClampNeg
  if addr < 0 then data
  else if a < data.size then data.setIfInBounds a b
  else (data ++ Array.replicate (a - data.size) 0).push b

namespace Pass

def putByte (p : Pass) (b : UInt8) : Pass :=
  { p with
    address := p.address + 1
    image := { p.image with data := poke p.image.data p.address b } }

def putWord (p : Pass) (v : Int32) : Pass :=
  (((p.putByte (byteAt v 24)).putByte (byteAt v 16)).putByte (byteAt v 8)).putByte (byteAt v 0)

def reserve (p : Pass) (n : Int32) : Pass :=
  let data := if 0 < n then poke p.image.data (p.address + n - 1) 0 else p.image.data
  { p with address := p.address + n, image := { p.image with data := data } }

/-- Puts an instruction at the current address, which must be that of a word. -/
def putInstruction (p : Pass) (line : Nat) (i : MachineInstruction) : Except AssemblyError Pass :=
  if p.address % 4 != 0 then .error (.notAligned line)
  else
    .ok { p with
      address := p.address + 4
      image := { p.image with
        code := p.image.code.insert p.address i
        lines := p.image.lines.insert p.address line } }

def setEntry (p : Pass) (line : Nat) : Except AssemblyError Pass :=
  if p.entrySeen then .error (.secondEntry line)
  else .ok { p with entrySeen := true, image := { p.image with entry := p.address } }

def putWords (names : Names) (line : Nat) : List String → Pass → Except AssemblyError Pass
  | [], p => .ok p
  | operand :: rest, p =>
    match parseImmediate names line operand with
    | .error e => .error e
    | .ok v => putWords names line rest (p.putWord v)

def putBytes (names : Names) (line : Nat) : List String → Pass → Except AssemblyError Pass
  | [], p => .ok p
  | operand :: rest, p =>
    match parseImmediate names line operand with
    | .error e => .error e
    | .ok v =>
      if v < -128 || 255 < v then .error (.byteRange line operand)
      else putBytes names line rest (p.putByte (byteAt v 0))

def line (names : Names) (p : Pass) (l : SourceLine) : Except AssemblyError Pass :=
  if l.mnemonic == "" then .ok p
  else if l.mnemonic == "entry" then p.setEntry l.number
  else if l.mnemonic == "org" then (origin l p.address).map fun addr => { p with address := addr }
  else if l.mnemonic == "align" then .ok { p with address := aligned p.address }
  else if l.mnemonic == "res" then (reserved l).map p.reserve
  else if l.mnemonic == "dw" then putWords names l.number l.operands p
  else if l.mnemonic == "db" then putBytes names l.number l.operands p
  else
    match Opcode.parse? l.mnemonic with
    | none => .error (.unknownInstruction l.number l.mnemonic)
    | some op =>
      match parseInstruction names l.number op l.operands with
      | .error e => .error e
      | .ok i => p.putInstruction l.number i

def lines (names : Names) : List SourceLine → Pass → Except AssemblyError Pass
  | [], p => .ok p
  | l :: rest, p =>
    match p.line names l with
    | .error e => .error e
    | .ok p => lines names rest p

end Pass

/-- Assembles a text. A name that is no label is looked up among the symbols. -/
def assemble (text : String) (symbols : List (String × Int32)) : Except AssemblyError Image := do
  let source ← parseLines text
  let labels ← collectLabels 0 [] source
  let pass ← Pass.lines ⟨labels, symbols⟩ source {}
  return { pass.image with labels := labels }

end MoonBackend.Assembly
