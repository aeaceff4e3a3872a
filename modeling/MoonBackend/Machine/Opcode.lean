import MoonBackend.Text.Numeral

/-!
# Operations of the machine

The operations in numbered order, their mnemonics, and the shape of their operands.
-/

namespace MoonBackend

/-- What an instruction does. A code without meaning is kept as `undefined`. -/
inductive Opcode where
  | nop
  | hlt
  | lw
  | lb
  | sw
  | sb
  | add
  | sub
  | mul
  | div
  | mod
  | and
  | or
  | not
  | ceq
  | cne
  | clt
  | cle
  | cgt
  | cge
  | addi
  | subi
  | muli
  | divi
  | modi
  | andi
  | ori
  | ceqi
  | cnei
  | clti
  | clei
  | cgti
  | cgei
  | sl
  | sr
  | getc
  | putc
  | bz
  | bnz
  | j
  | jr
  | jl
  | jlr
  | undefined (code : UInt8)
  deriving DecidableEq

inductive Form where
  | none
  | load
  | store
  | threeRegisters
  | twoRegisters
  | immediate
  | registerImmediate
  | oneRegister
  | immediateOnly
  deriving DecidableEq

namespace Form

def all : List Form :=
  [.none, .load, .store, .threeRegisters, .twoRegisters, .immediate, .registerImmediate,
    .oneRegister, .immediateOnly]

def number (f : Form) : Nat := all.idxOf f

/-- How many operands an instruction of the form is written with. -/
def arity : Form → Nat
  | .none => 0
  | .oneRegister | .immediateOnly => 1
  | .load | .store | .twoRegisters | .registerImmediate => 2
  | .threeRegisters | .immediate => 3

end Form

namespace Opcode

def all : List Opcode :=
  [.nop, .hlt, .lw, .lb, .sw, .sb, .add, .sub, .mul, .div, .mod, .and, .or, .not, .ceq, .cne, .clt,
    .cle, .cgt, .cge, .addi, .subi, .muli, .divi, .modi, .andi, .ori, .ceqi, .cnei, .clti, .clei,
    .cgti, .cgei, .sl, .sr, .getc, .putc, .bz, .bnz, .j, .jr, .jl, .jlr]

def ofCode (code : UInt8) : Opcode := (all[code.toNat]?).getD (.undefined code)

def code : Opcode → UInt8
  | .undefined c => c
  | op => UInt8.ofNat (all.idxOf op)

theorem ofCode_code : ∀ op ∈ all, ofCode op.code = op := by decide

def mnemonic : Opcode → String
  | .nop => "nop"
  | .hlt => "hlt"
  | .lw => "lw"
  | .lb => "lb"
  | .sw => "sw"
  | .sb => "sb"
  | .add => "add"
  | .sub => "sub"
  | .mul => "mul"
  | .div => "div"
  | .mod => "mod"
  | .and => "and"
  | .or => "or"
  | .not => "not"
  | .ceq => "ceq"
  | .cne => "cne"
  | .clt => "clt"
  | .cle => "cle"
  | .cgt => "cgt"
  | .cge => "cge"
  | .addi => "addi"
  | .subi => "subi"
  | .muli => "muli"
  | .divi => "divi"
  | .modi => "modi"
  | .andi => "andi"
  | .ori => "ori"
  | .ceqi => "ceqi"
  | .cnei => "cnei"
  | .clti => "clti"
  | .clei => "clei"
  | .cgti => "cgti"
  | .cgei => "cgei"
  | .sl => "sl"
  | .sr => "sr"
  | .getc => "getc"
  | .putc => "putc"
  | .bz => "bz"
  | .bnz => "bnz"
  | .j => "j"
  | .jr => "jr"
  | .jl => "jl"
  | .jlr => "jlr"
  | .undefined c => "Opcode(" ++ Text.decimal c.toNat ++ ")"

def parse? (name : String) : Option Opcode := all.find? (·.mnemonic == name)

theorem parse?_mnemonic : ∀ op ∈ all, parse? op.mnemonic = some op := by decide

def form : Opcode → Form
  | .lw | .lb => .load
  | .sw | .sb => .store
  | .add | .sub | .mul | .div | .mod | .and | .or | .ceq | .cne | .clt | .cle | .cgt | .cge =>
    .threeRegisters
  | .not | .jlr => .twoRegisters
  | .addi | .subi | .muli | .divi | .modi | .andi | .ori | .ceqi | .cnei | .clti | .clei | .cgti
  | .cgei => .immediate
  | .sl | .sr | .bz | .bnz | .jl => .registerImmediate
  | .getc | .putc | .jr => .oneRegister
  | .j => .immediateOnly
  | .nop | .hlt | .undefined _ => .none

end Opcode

/-- An instruction over some kind of registers and of immediate operands. Fields that its form does
not use are there all the same. -/
structure Instruction (ρ κ : Type) where
  op : Opcode
  ri : ρ
  rj : ρ
  rk : ρ
  k : κ
  deriving DecidableEq

def Instruction.render {ρ κ : Type} (reg : ρ → String) (imm : κ → String) (i : Instruction ρ κ) :
    String :=
  match i.op.form with
  | .none => i.op.mnemonic
  | .load => i.op.mnemonic ++ " " ++ reg i.ri ++ "," ++ imm i.k ++ "(" ++ reg i.rj ++ ")"
  | .store => i.op.mnemonic ++ " " ++ imm i.k ++ "(" ++ reg i.rj ++ ")," ++ reg i.ri
  | .threeRegisters => i.op.mnemonic ++ " " ++ reg i.ri ++ "," ++ reg i.rj ++ "," ++ reg i.rk
  | .twoRegisters => i.op.mnemonic ++ " " ++ reg i.ri ++ "," ++ reg i.rj
  | .immediate => i.op.mnemonic ++ " " ++ reg i.ri ++ "," ++ reg i.rj ++ "," ++ imm i.k
  | .registerImmediate => i.op.mnemonic ++ " " ++ reg i.ri ++ "," ++ imm i.k
  | .oneRegister => i.op.mnemonic ++ " " ++ reg i.ri
  | .immediateOnly => i.op.mnemonic ++ " " ++ imm i.k

end MoonBackend
