import MoonBackend.Assembly.Source
import MoonBackend.Machine.Image

/-!
# Operands of an assembly text

Registers, immediates and indexed operands, and the instruction that an operation makes of them. An
immediate is a number that fits in 16 bits, signed or unsigned, or a name with an address.
-/

namespace MoonBackend.Assembly

open Text

/-- The addresses that names stand for: the labels of the text, then the names known from outside.
Of two equal names in one list the first counts. -/
structure Names where
  labels : List (String × Int32)
  symbols : List (String × Int32)

def Names.address? (names : Names) (name : String) : Option Int32 :=
  (names.labels.lookup name).or (names.symbols.lookup name)

/-- A register: `r` or `R` and a number below sixteen. -/
def register? (token : String) : Option UInt8 :=
  match (lower token).toList with
  | 'r' :: digits =>
    match decimal64? digits with
    | some n => if 0 ≤ n && n < 16 then some n.toNatClampNeg.toUInt8 else none
    | none => none
  | _ => none

def parseRegister (line : Nat) (token : String) : Except AssemblyError UInt8 :=
  match register? token with
  | some r => .ok r
  | none => .error (.invalidRegister token line)

def parseImmediate (names : Names) (line : Nat) (token : String) : Except AssemblyError Int32 :=
  match literal32? token.toList with
  | some n =>
    if n < -32768 || 65535 < n then .error (.immediateRange line token) else .ok n
  | none =>
    match names.address? token with
    | some addr => .ok addr
    | none =>
      if isIdentifier token.toList then .error (.undefinedLabel token line)
      else .error (.invalidImmediate token line)

/-- An indexed operand `K(Rj)`. -/
def parseIndexed (names : Names) (line : Nat) (token : String) :
    Except AssemblyError (Int32 × UInt8) :=
  let cs := token.toList
  match cs.dropWhile (· != '('), cs.getLast? with
  | _ :: inside, some ')' => do
    let k ← parseImmediate names line (String.ofList (cs.takeWhile (· != '(')))
    let r ← parseRegister line (String.ofList inside.dropLast)
    return (k, r)
  | _, _ => .error (.notIndexed line token)

def parseInstruction (names : Names) (line : Nat) (op : Opcode) (operands : List String) :
    Except AssemblyError MachineInstruction :=
  match op.form, operands with
  | .none, [] => .ok ⟨op, 0, 0, 0, 0⟩
  | .load, [a, b] => do
    let ri ← parseRegister line a
    let (k, rj) ← parseIndexed names line b
    return ⟨op, ri, rj, 0, k⟩
  | .store, [a, b] => do
    let (k, rj) ← parseIndexed names line a
    let ri ← parseRegister line b
    return ⟨op, ri, rj, 0, k⟩
  | .threeRegisters, [a, b, c] => do
    let ri ← parseRegister line a
    let rj ← parseRegister line b
    let rk ← parseRegister line c
    return ⟨op, ri, rj, rk, 0⟩
  | .twoRegisters, [a, b] => do
    let ri ← parseRegister line a
    let rj ← parseRegister line b
    return ⟨op, ri, rj, 0, 0⟩
  | .immediate, [a, b, c] => do
    let ri ← parseRegister line a
    let rj ← parseRegister line b
    let k ← parseImmediate names line c
    return ⟨op, ri, rj, 0, k⟩
  | .registerImmediate, [a, b] => do
    let ri ← parseRegister line a
    let k ← parseImmediate names line b
    return ⟨op, ri, 0, 0, k⟩
  | .oneRegister, [a] => do
    let ri ← parseRegister line a
    return ⟨op, ri, 0, 0, 0⟩
  | .immediateOnly, [a] => do
    let k ← parseImmediate names line a
    return ⟨op, 0, 0, 0, k⟩
  | form, _ => .error (.operandCount op.mnemonic form.arity line)

end MoonBackend.Assembly
