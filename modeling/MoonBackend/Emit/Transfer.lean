import MoonBackend.Emit.Value

/-!
# Code for input and output

The library of the machine turns an integer into text, prints text, reads a line and turns text
into an integer. Its routines find their parameters below the frame of the caller. Section
4.3 of the specification.
-/

namespace MoonBackend.Emit

open Code

def printWord (p : Place) (i : Int64) : Emit Code := do
  let rt := (← read).config.runtime
  let size ← frameSize
  let sp ← stackPointer
  let z ← zero
  let lk ← link
  let result ← resultRegister
  withRegister fun r => do
    let value ← load r p i
    return value ++ plain
      [.imm .addi sp sp (-size), .sw rt.valueParam sp r, .named .addi r z rt.bufferLabel,
        .sw rt.bufferParam sp r, .jl lk rt.intToString, .sw rt.valueParam sp result,
        .jl lk rt.printString, .imm .addi sp sp size]

def printBytes (bytes : List UInt8) : Emit Code := do
  let z ← zero
  withRegister fun r =>
    return plain <| bytes.flatMap fun b =>
      [.imm .addi r z (Int64.ofNat b.toNat), .reg1 .putc r]

/-- Prints an integer, or the mantissa and the exponent of a float with the separator between
them, and ends the line if that is wanted. -/
def write (path : Path) (e : Expr) : Emit Code := do
  let shape := (← read).config.emit
  let (code, p) ← value path e
  let printed ←
    if e.type.isInteger then printWord p 0
    else if e.type.isFloat then do
      let mantissa ← printWord p 0
      let separator ← printBytes shape.floatSeparator.toUTF8.toList
      let exponent ← printWord p 1
      pure (mantissa ++ separator ++ exponent)
    else throw (.noWriteRule e.type)
  let newline ← if shape.newline then printBytes [10] else pure []
  return code ++ printed ++ newline

def readInto (path : Path) (target : Expr) : Emit Code := do
  if !target.type.isInteger then throw (.noReadRule target.type)
  let before ← operands path target
  let rt := (← read).config.runtime
  let size ← frameSize
  let sp ← stackPointer
  let z ← zero
  let lk ← link
  let calls ← withRegister fun r =>
    return plain
      [.imm .addi sp sp (-size), .named .addi r z rt.bufferLabel, .sw rt.valueParam sp r,
        .jl lk rt.readString, .named .addi r z rt.bufferLabel, .sw rt.valueParam sp r,
        .jl lk rt.stringToInt, .imm .addi sp sp size]
  let (code, dst) ← locate path target
  releaseLocation dst
  return before ++ calls ++ code ++ plain [.sw dst.off dst.base (← resultRegister)]

end MoonBackend.Emit
