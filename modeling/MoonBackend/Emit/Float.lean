import MoonBackend.Emit.Basic

/-!
# Float arithmetic

The machine has no floats. A float is a mantissa and a decimal exponent in two words, and the code
for a sum computes what `Decimal.add` and `Decimal.sub` compute, with a word for every quantity: the
operand with the larger exponent is the *big* one, the right one when the exponents agree; the
narrower mantissa is widened until both have the same number of digits, both are scaled by
`Decimal.headroom` and added, and the zeros at the end of the sum are cut off.
Section 4.4 of the specification.
-/

namespace MoonBackend.Emit

open Code

def swap (x y t zero : Register) : Code :=
  plain [.reg3 .add t x zero, .reg3 .add x y zero, .reg3 .add y t zero]

/-- Counts the decimal digits of a mantissa; zero has one. `a` and `t` are scratch. -/
def countDigits (dst src a t zero : Register) : Emit Code := do
  let abs ← freshLabel "fabs"
  let loop ← freshLabel "fdig"
  let stop ← freshLabel "fdigend"
  return plain [.reg3 .add a src zero, .reg3 .cge t a zero, .bnz t abs,
      .reg3 .sub a zero a]
    ++ [.labeled abs (.imm .addi dst zero 1), .labeled loop (.imm .clti t a 10)]
    ++ plain [.bnz t stop, .imm .divi a a 10, .imm .addi dst dst 1, .j loop]
    ++ [mark stop]

/-- Appends zeros to a mantissa of `width` digits until it has `other` digits. -/
def widen (m width other t : Register) : Emit Code := do
  let loop ← freshLabel "fwiden"
  let stop ← freshLabel "fwidened"
  return [.labeled loop (.reg3 .cge t width other)]
    ++ plain [.bnz t stop, .imm .muli m m 10, .imm .addi width width 1, .j loop]
    ++ [mark stop]

structure FloatRegisters where
  bigMantissa : Register
  bigExponent : Register
  smallMantissa : Register
  smallExponent : Register
  bigWidth : Register
  smallWidth : Register
  absolute : Register
  scratch : Register

/-- The sum of two loaded floats, for which `dst` is the slot and `word` the size of a word. A sum
of zero takes the negated exponent of what the slot held before. -/
def floatSum (r : FloatRegisters) (align nonZero done : String) (dst word : Int64)
    (sp zero : Register) : Emit Code := do
  let bigDigits ← countDigits r.bigWidth r.bigMantissa r.absolute r.scratch zero
  let smallDigits ← countDigits r.smallWidth r.smallMantissa r.absolute r.scratch zero
  let widenBig ← widen r.bigMantissa r.bigWidth r.smallWidth r.scratch
  let widenSmall ← widen r.smallMantissa r.smallWidth r.bigWidth r.scratch
  let trim ← freshLabel "ftrim"
  let trimmed ← freshLabel "ftrimmed"
  let sumDigits ← countDigits r.smallMantissa r.bigMantissa r.absolute r.scratch zero
  let t := r.scratch
  return plain [.reg3 .cgt t r.smallExponent r.bigExponent, .bz t align]
    ++ swap r.bigMantissa r.smallMantissa t zero
    ++ swap r.bigExponent r.smallExponent t zero
    ++ [mark align]
    ++ bigDigits ++ smallDigits
    ++ plain [.reg3 .sub t r.bigExponent r.smallExponent, .reg3 .add r.smallWidth r.smallWidth t]
    ++ widenBig ++ widenSmall
    ++ plain
      [.imm .muli r.bigMantissa r.bigMantissa Decimal.headroom,
        .imm .muli r.smallMantissa r.smallMantissa Decimal.headroom,
        .reg3 .add r.bigMantissa r.bigMantissa r.smallMantissa,
        .bnz r.bigMantissa nonZero,
        .lw t (dst - word) sp, .reg3 .sub t zero t, .sw dst sp zero, .sw (dst - word) sp t,
        .j done]
    ++ [.labeled nonZero (.imm .addi r.smallWidth zero 2),
      .labeled trim (.imm .modi t r.bigMantissa 10)]
    ++ plain
      [.bnz t trimmed, .imm .divi r.bigMantissa r.bigMantissa 10,
        .imm .subi r.smallWidth r.smallWidth 1, .j trim]
    ++ [mark trimmed]
    ++ sumDigits
    ++ plain
      [.reg3 .add t r.bigExponent r.smallMantissa, .reg3 .sub t t r.bigWidth,
        .reg3 .sub t t r.smallWidth, .sw dst sp r.bigMantissa, .sw (dst - word) sp t]
    ++ [mark done]

def floatAddSub (path : Path) (e : Expr) (op : BinaryOp) (l r : Place) : Emit Code := do
  let dst ← temporary path e
  let word ← wordSize
  let sp ← stackPointer
  let z ← zero
  let align ← freshLabel "falign"
  let nonZero ← freshLabel "fnz"
  let done ← freshLabel "fdone"
  let note ← comment ("float " ++ e.text)
  let body ← withRegisters 8 fun rs => do
    let reg (i : Nat) : Register := rs.getD i Item.unused
    let f : FloatRegisters := ⟨reg 0, reg 1, reg 2, reg 3, reg 4, reg 5, reg 6, reg 7⟩
    let leftMantissa ← Emit.load f.smallMantissa l 0
    let leftExponent ← Emit.load f.smallExponent l 1
    let rightMantissa ← Emit.load f.bigMantissa r 0
    let rightExponent ← Emit.load f.bigExponent r 1
    let sign := if op = .sub then plain [.reg3 .sub f.bigMantissa z f.bigMantissa] else []
    let sum ← floatSum f align nonZero done dst word sp z
    return leftMantissa ++ leftExponent ++ rightMantissa ++ rightExponent ++ sign ++ sum
  return note ++ body

def floatLiteral (path : Path) (text : String) : Emit Code := do
  match Decimal.parse text with
  | .error cause => throw (.badFloat cause)
  | .ok v =>
    let off ← temporary path (.float text)
    let w ← wordSize
    let sp ← stackPointer
    withRegister fun r => do
      let mantissa ← Emit.constant r v.mantissa
      let exponent ← Emit.constant r v.exponent
      return mantissa ++ plain [.sw off sp r] ++ exponent ++ plain [.sw (off - w) sp r]

end MoonBackend.Emit
