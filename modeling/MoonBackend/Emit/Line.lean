import MoonBackend.Fault
import MoonBackend.Machine.Opcode

/-!
# Lines of assembly text

Code is put together as a list of lines whose operands are still names and numbers, and written out
last. A label starts in the first column, everything else in the seventeenth.
-/

namespace MoonBackend

open Text

/-- An immediate operand as it is written. -/
inductive Operand where
  | number (n : Int64)
  | name (s : String)
  deriving DecidableEq

def Operand.text : Operand → String
  | .number n => decimal n.toInt
  | .name s => s

/-- What a line asks the assembler for. -/
inductive Item where
  | instruction (i : Instruction Register Operand)
  | entry
  | reserve (bytes : Int64)
  deriving DecidableEq

def Item.text : Item → String
  | .instruction i => i.render Register.text Operand.text
  | .entry => "entry"
  | .reserve n => "res " ++ decimal n.toInt

namespace Item

/-- The register that stands in the fields which a form leaves open. -/
def unused : Register := ⟨0⟩

/-- `op Ri,Rj,Rk` -/
def reg3 (op : Opcode) (ri rj rk : Register) : Item := .instruction ⟨op, ri, rj, rk, .number 0⟩

/-- `op Ri,Rj,n` -/
def imm (op : Opcode) (ri rj : Register) (n : Int64) : Item :=
  .instruction ⟨op, ri, rj, unused, .number n⟩

/-- `op Ri,Rj,name` -/
def named (op : Opcode) (ri rj : Register) (name : String) : Item :=
  .instruction ⟨op, ri, rj, unused, .name name⟩

def reg1 (op : Opcode) (ri : Register) : Item :=
  .instruction ⟨op, ri, unused, unused, .number 0⟩

def bare (op : Opcode) : Item := .instruction ⟨op, unused, unused, unused, .number 0⟩

def lw (r : Register) (off : Int64) (base : Register) : Item :=
  .instruction ⟨.lw, r, base, unused, .number off⟩

def sw (off : Int64) (base r : Register) : Item :=
  .instruction ⟨.sw, r, base, unused, .number off⟩

def sl (r : Register) (n : Int64) : Item := .instruction ⟨.sl, r, unused, unused, .number n⟩

def bz (r : Register) (label : String) : Item :=
  .instruction ⟨.bz, r, unused, unused, .name label⟩

def bnz (r : Register) (label : String) : Item :=
  .instruction ⟨.bnz, r, unused, unused, .name label⟩

def j (label : String) : Item := .instruction ⟨.j, unused, unused, unused, .name label⟩

def jl (r : Register) (label : String) : Item :=
  .instruction ⟨.jl, r, unused, unused, .name label⟩

end Item

inductive Line where
  | blank
  | comment (text : String)
  | plain (item : Item)
  | labeled (label : String) (item : Item)
  deriving DecidableEq

def Line.indent : Nat := 16

def Line.text : Line → String
  | .blank => ""
  | .comment s => spaces Line.indent ++ "% " ++ s
  | .plain item => spaces Line.indent ++ item.text
  | .labeled label item => padRight (Line.indent - 1) label ++ " " ++ item.text

abbrev Code := List Line

namespace Code

/-- The written code, every line ended by a line feed. -/
def text (c : Code) : String := c.foldl (fun s l => s ++ l.text ++ "\n") ""

theorem text_eq (c : Code) : text c = String.join (c.map fun l => l.text ++ "\n") := by
  unfold text String.join
  rw [List.foldl_map]
  congr 1
  funext s l
  rw [String.append_assoc]

def plain (items : List Item) : Code := items.map .plain

/-- A label before an instruction that does nothing. -/
def mark (label : String) : Line := .labeled label (.bare .nop)

end Code

end MoonBackend
