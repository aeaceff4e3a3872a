import MoonBackend.Emit.Float

/-!
# Code for expressions

Every expression leaves its value in its own slot of the frame: operands are loaded into scratch
registers, combined, stored, and the registers given back before the next expression. An expression
that names a place is first walked for the values that it needs, and its address is computed
afterwards: dots fold into the offset, and only the receiver and indices need a register. Section 4.3
of the specification.
-/

namespace MoonBackend.Emit

open Code

def receiverLocation : Emit (Code × Location) := do
  if !(← read).head.isMember then throw .noReceiver
  let e ← lift ((← read).scope.requireSlot (.function (← read).index (← read).head) .reference)
  let r ← acquire
  let off ← lift e.getOffset
  return (plain [.lw r off (← stackPointer)], ⟨r, 0, true⟩)

def toMember (l : Location) (className member : String) : Emit Location := do
  let (off, _) ← lift ((← read).layout.table.memberOffset className member)
  return { l with off := l.off + off }

/-- Accumulates the linear index of the indices after the first, each with the extent of its
dimension and the place of its value. -/
def accumulateIndex (idx : Register) : List (Int64 × Path × Expr) → Emit Code
  | [] => return []
  | (extent, path, e) :: rest => do
    let add ← withRegister fun r => do
      let code ← load r (← placeOf path e) 0
      return code ++ plain [.reg3 .add idx idx r]
    let more ← accumulateIndex idx rest
    return plain [.imm .muli idx idx extent] ++ add ++ more

/-- The offset of an indexed element, row by row, taken from its base. -/
def indexLocation (path : Path) (base : Location) (dims : List Int64) (indices : List Expr)
    (elemSize : Int64) : Emit (Code × Location) := do
  let idx ← acquire
  let first ←
    match indices with
    | [] => pure []
    | e :: _ => load idx (← placeOf (1 :: path) e) 0
  let later := (List.range indices.length).zip (dims.zip indices) |>.drop 1
  let rest ← accumulateIndex idx (later.map fun (i, extent, e) => (extent, (i + 1) :: path, e))
  releaseLocation base
  return (first ++ rest
    ++ plain [.imm .muli idx idx elemSize, .reg3 .sub idx base.base idx], ⟨idx, base.off, true⟩)

/-- The location of an expression whose operands were emitted before. -/
def locate (path : Path) : Expr → Emit (Code × Location)
  | .var name _ => do
    match ← resolve? name with
    | none => throw (.unresolvedName name)
    | some (l, false) => return ([], ← frame (← lift l.entry.getOffset))
    | some (_, true) =>
      let (code, l) ← receiverLocation
      return (code, ← toMember l (← read).head.className name)
  | .dot left member _ => do
    let (code, l) ← locate (0 :: path) left
    return (code, ← toMember l left.type.base.className member)
  | .index base indices type => do
    let elemSize := wordOfSize (← lift ((← read).layout.sizeOf type))
    let (before, b) ← locate (0 :: path) base
    let (code, l) ← indexLocation path b base.type.dims indices elemSize
    return (before ++ code, l)
  | e => do
    let p ← placeOf path e
    return ([], ← frame p.offset)

/-- Copies the value at the location of an expression into its slot. -/
def materialize (path : Path) (e : Expr) : Emit Code := do
  let (code, src) ← locate path e
  let dst ← frame (← temporary path e)
  let move ← copy dst src (← words e.type)
  releaseLocation src
  return code ++ move

def unary (path : Path) (e : Expr) (op : UnaryOp) (t : Ty) (src : Place) : Emit Code := do
  let off ← temporary path e
  let sp ← stackPointer
  let z ← zero
  let w ← wordSize
  if t.isFloat && op != .not then
    withRegister fun r => do
      let mantissa ← load r src 0
      let exponent ← load r src 1
      let sign := if op = .minus then plain [.reg3 .sub r z r] else []
      return mantissa ++ sign ++ plain [.sw off sp r] ++ exponent ++ plain [.sw (off - w) sp r]
  else if t.isInteger then
    withRegister fun r => do
      let value ← load r src 0
      let apply := match op with
        | .plus => []
        | .minus => plain [.reg3 .sub r z r]
        | .not => plain [.reg3 .ceq r r z]
      return value ++ apply ++ plain [.sw off sp r]
  else throw (.noUnaryRule op t)

/-- The instructions of an integer operator on two registers; the truth operators first turn their
operands into 0 or 1. -/
def integerOperation (a b z : Register) : BinaryOp → Code
  | .add => plain [.reg3 .add a a b]
  | .sub => plain [.reg3 .sub a a b]
  | .mul => plain [.reg3 .mul a a b]
  | .div => plain [.reg3 .div a a b]
  | .and => plain [.reg3 .cne a a z, .reg3 .cne b b z, .reg3 .and a a b]
  | .or => plain [.reg3 .cne a a z, .reg3 .cne b b z, .reg3 .or a a b]
  | .eq => plain [.reg3 .ceq a a b]
  | .ne => plain [.reg3 .cne a a b]
  | .lt => plain [.reg3 .clt a a b]
  | .le => plain [.reg3 .cle a a b]
  | .gt => plain [.reg3 .cgt a a b]
  | .ge => plain [.reg3 .cge a a b]

/-- Applies a binary operator to the values at two places; the type is that of the left one. -/
def binary (path : Path) (e : Expr) (op : BinaryOp) (t : Ty) (l r : Place) : Emit Code := do
  if t.base = .float then
    if op = .add || op = .sub then floatAddSub path e op l r
    else throw (.noFloatRule op)
  else if !t.isInteger then throw (.noBinaryRule op t)
  else
    let off ← temporary path e
    let sp ← stackPointer
    let z ← zero
    withRegisters 2 fun rs => do
      let a := rs.getD 0 Item.unused
      let b := rs.getD 1 Item.unused
      let left ← load a l 0
      let right ← load b r 0
      return left ++ right ++ integerOperation a b z op ++ plain [.sw off sp a]

/-- The absolute address of a location, in a register that is held. -/
def addressOf (l : Location) : Emit (Code × Register) := do
  if l.held then
    return (if l.off == 0 then [] else plain [.imm .addi l.base l.base l.off], l.base)
  let r ← acquire
  return (plain [.imm .addi r l.base l.off], r)

def adjust (r : Register) (off : Int64) : Code :=
  if off == 0 then [] else plain [.imm .addi r r off]

/-- Puts the address that the called member function sees as its receiver into a register: that of
a new object, of the receiver of the call, or the receiver of the function under way. It is moved
to where the part of the called function's class lies in the object. -/
def passReceiver (path : Path) (e recv : Expr) (isNew : Bool) (callee : Signature) (r : Register) :
    Emit Code := do
  let sp ← stackPointer
  let table := (← read).layout.table
  if isNew then
    return plain [.imm .addi r sp (← temporary path e)]
  else if !recv.isMissing then
    let off ← slotOffset (.expr (0 :: path) recv) .reference
    let shift ← lift (table.baseOffset recv.type.base.className callee.className)
    return plain [.lw r off sp] ++ adjust r shift
  else
    let head := (← read).head
    if !head.isMember then throw (.methodWithoutReceiver callee.qualifiedName)
    let off ← ownSlot .reference
    let shift ← lift (table.baseOffset head.className callee.className)
    return plain [.lw r off sp] ++ adjust r shift

/-- Copies the arguments to the parameters of a function whose frame starts `size` bytes below. -/
def passArguments (size : Int64) : List (Entry × Place) → Emit Code
  | [] => return []
  | (param, arg) :: rest => do
    let dst ← frame ((← lift param.getOffset) - size)
    let code ← store dst arg (← words param.type)
    let more ← passArguments size rest
    return code ++ more

def saveReceiver (path : Path) (recv : Expr) : Emit Code := do
  if recv.isMissing then return []
  let slot ← lift ((← read).scope.requireSlot (.expr path recv) .reference)
  let (code, l) ← locate path recv
  let (move, r) ← addressOf l
  let off ← lift slot.getOffset
  release r
  return code ++ move ++ plain [.sw off (← stackPointer) r]

/-- The calling sequence, after the operands of the receiver and the arguments were emitted. The
frame of the called function lies right below that of the function under way. -/
def callSequence (path : Path) (e recv : Expr) (isNew : Bool) (target : Nat) (args : List Place) :
    Emit Code := do
  let c ← read
  match c.layout.table.functions[target]?, c.layout.table.program.functions[target]? with
  | some calleeScope, some callee =>
    let sp ← stackPointer
    let note ← comment ("call " ++ e.text)
    let saved ← saveReceiver (0 :: path) recv
    let size ← frameSize
    let params := calleeScope.params
    if params.length != args.length then
      throw (.argumentCount e.text args.length params.length)
    let passed ← passArguments size (params.zip args)
    let receiver ←
      if callee.isMember then do
        let slot ← lift (calleeScope.requireSlot (.function target callee.toSignature) .reference)
        withRegister fun r => do
          let code ← passReceiver path e recv isNew callee.toSignature r
          let off ← lift slot.getOffset
          return code ++ plain [.sw (off - size) sp r]
      else pure []
    let jump := plain
      [.imm .addi sp sp (-size), .jl (← link) (c.tags.getD target ""), .imm .addi sp sp size]
    let result ←
      if !isNew && callee.returns.base != .void then do
        let dst ← frame (← temporary path e)
        copy dst ⟨← resultRegister, 0, false⟩ (← words callee.returns)
      else pure []
    return note ++ saved ++ passed ++ receiver ++ jump ++ result
  | _, _ => throw (.unresolvedCall e.text)

/-- After the operands of a place: whatever does not name a place must have left a value. -/
def checkOperand (path : Path) : Expr → Emit Unit
  | .var _ _ | .dot _ _ _ | .index _ _ _ => return ()
  | e => do
    let _ ← placeOf path e

mutual

/-- The code of an expression: for its value, or for the values that its location needs. -/
def evaluate (use : Use) (path : Path) : Expr → Emit Code
  | .missing => throw .noExpression
  | .int _ => return []
  | .float text => floatLiteral path text
  | .var name type => do
    if use = .location then return []
    match ← resolve? name with
    | none => throw (.unresolvedName name)
    | some (_, false) => return []
    | some (_, true) => materialize path (.var name type)
  | .dot left member type => do
    let operands ← evaluate .location (0 :: path) left
    checkOperand (0 :: path) left
    if use = .location then return operands
    return operands ++ (← materialize path (.dot left member type))
  | .index base indices type => do
    let operands ← evaluate .location (0 :: path) base
    checkOperand (0 :: path) base
    let (code, _) ← evaluateAll path 1 indices
    if use = .location then return operands ++ code
    return operands ++ code ++ (← materialize path (.index base indices type))
  | .unary op operand type => do
    let code ← evaluate .value (0 :: path) operand
    let src ← placeOf (0 :: path) operand
    return code ++ (← unary path (.unary op operand type) op operand.type src)
  | .binary op left right type => do
    let first ← evaluate .value (0 :: path) left
    let l ← placeOf (0 :: path) left
    let second ← evaluate .value (1 :: path) right
    let r ← placeOf (1 :: path) right
    return first ++ second ++ (← binary path (.binary op left right type) op left.type l r)
  | .call recv name args isNew type target => do
    let e := Expr.call recv name args isNew type target
    match target with
    | none => throw (.unresolvedCall e.text)
    | some target =>
      let operands ←
        if recv.isMissing then pure []
        else do
          let operands ← evaluate .location (0 :: path) recv
          checkOperand (0 :: path) recv
          pure operands
      let (code, places) ← evaluateAll path 1 args
      return operands ++ code ++ (← callSequence path e recv isNew target places)

/-- The code of operands, the first of which is the child of the given number, and the places of
their values. -/
def evaluateAll (path : Path) (i : Nat) : List Expr → Emit (Code × List Place)
  | [] => return ([], [])
  | e :: es => do
    let code ← evaluate .value (i :: path) e
    let p ← placeOf (i :: path) e
    let (rest, ps) ← evaluateAll path (i + 1) es
    return (code ++ rest, p :: ps)

end

def value (path : Path) (e : Expr) : Emit (Code × Place) := do
  let code ← evaluate .value path e
  return (code, ← placeOf path e)

def operands (path : Path) (e : Expr) : Emit Code := do
  let code ← evaluate .location path e
  checkOperand path e
  return code

end MoonBackend.Emit
