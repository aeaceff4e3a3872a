import MoonBackend.Emit.Program
import MoonBackend.Proofs.Emit.Triple

/-!
# Steps with a choice

Where emission chooses between ways to make one part of the code, the choice is named here, and the
step is written as a plain sequence that contains it.
-/

namespace MoonBackend.Emit

open Code

variable {α β : Type}

theorem ite_bind {p : Prop} [Decidable p] (x y : Emit α) (f : α → Emit β) :
    (if p then x else y) >>= f = if p then x >>= f else y >>= f := by
  split <;> rfl

def firstIndex (path : Path) (idx : Register) : List Expr → Emit Code
  | [] => return []
  | e :: _ => do load idx (← placeOf (1 :: path) e) 0

theorem indexLocation_eq (path : Path) (base : Location) (dims : List Int64) (indices : List Expr)
    (elemSize : Int64) :
    indexLocation path base dims indices elemSize = (do
      let idx ← acquire
      let first ← firstIndex path idx indices
      let later := (List.range indices.length).zip (dims.zip indices) |>.drop 1
      let rest ← accumulateIndex idx (later.map fun (i, extent, e) => (extent, (i + 1) :: path, e))
      releaseLocation base
      return (first ++ rest
        ++ plain [.imm .muli idx idx elemSize, .reg3 .sub idx base.base idx],
        ⟨idx, base.off, true⟩)) := by
  cases indices with
  | nil => rfl
  | cons e es =>
    simp only [indexLocation, firstIndex, bind_assoc]

/-- The code that a receiver needs before its address is taken. -/
def receiverOperands (path : Path) (recv : Expr) : Emit Code :=
  if recv.isMissing then return [] else operands (0 :: path) recv

theorem evaluate_call (use : Use) (path : Path) (recv : Expr) (name : String) (args : List Expr)
    (isNew : Bool) (type : Ty) (target : Nat) :
    evaluate use path (.call recv name args isNew type (some target)) = (do
      let operands ← receiverOperands path recv
      let (code, places) ← evaluateAll path 1 args
      return operands ++ code ++ (← callSequence path
        (.call recv name args isNew type (some target)) recv isNew target places)) := by
  unfold receiverOperands
  rw [evaluate, ite_bind]
  simp only [operands, pure_bind, bind_assoc]

def placeReceiver (path : Path) (e recv : Expr) (isNew : Bool) (target : Nat) (callee : Signature)
    (calleeScope : Scope) (size : Int64) (sp : Register) : Emit Code :=
  if callee.isMember then do
    let slot ← lift (calleeScope.requireSlot (.function target callee) .reference)
    withRegister fun r => do
      let code ← passReceiver path e recv isNew callee r
      let off ← lift slot.getOffset
      return code ++ plain [.sw (off - size) sp r]
  else return []

def fetchResult (path : Path) (e : Expr) (isNew : Bool) (callee : Signature) : Emit Code :=
  if !isNew && callee.returns.base != .void then do
    let dst ← frame (← temporary path e)
    copy dst ⟨← resultRegister, 0, false⟩ (← words callee.returns)
  else return []

theorem eval_callSequence {path : Path} {e recv : Expr} {isNew : Bool} {target : Nat}
    {args : List Place} {c : Context} {scope : Scope} {callee : Function}
    (hs : c.layout.table.functions[target]? = some scope)
    (hf : c.layout.table.program.functions[target]? = some callee) (s : Counts) :
    eval (callSequence path e recv isNew target args) c s = eval (do
      let sp ← stackPointer
      let note ← comment ("call " ++ e.text)
      let saved ← saveReceiver (0 :: path) recv
      let size ← frameSize
      if scope.params.length != args.length then
        throw (.argumentCount e.text args.length scope.params.length)
      let passed ← passArguments size (scope.params.zip args)
      let receiver ← placeReceiver path e recv isNew target callee.toSignature scope size sp
      let jump := plain
        [.imm .addi sp sp (-size), .jl (← link) (c.tags.getD target ""), .imm .addi sp sp size]
      let result ← fetchResult path e isNew callee.toSignature
      return note ++ saved ++ passed ++ receiver ++ jump ++ result) c s := by
  unfold callSequence
  rw [eval_bind_ok (eval_read c s), hs, hf]
  simp only [placeReceiver, fetchResult, ite_bind, bind_assoc, pure_bind]

theorem eval_callSequence_unresolved {path : Path} {e recv : Expr} {isNew : Bool} {target : Nat}
    {args : List Place} {c : Context}
    (h : c.layout.table.functions[target]? = none ∨ c.layout.table.program.functions[target]? = none)
    (s : Counts) :
    eval (callSequence path e recv isNew target args) c s = (.error (.unresolvedCall e.text), s) := by
  unfold callSequence
  rw [eval_bind_ok (eval_read c s)]
  rcases h with h | h
  · rw [h]
    rfl
  · rw [h]
    cases c.layout.table.functions[target]? <;> rfl

def printValue (t : Ty) (p : Place) (shape : Emission) : Emit Code :=
  if t.isInteger then printWord p 0
  else if t.isFloat then do
    let mantissa ← printWord p 0
    let separator ← printBytes shape.floatSeparator.toUTF8.toList
    let exponent ← printWord p 1
    return mantissa ++ separator ++ exponent
  else throw (.noWriteRule t)

def endLine (shape : Emission) : Emit Code := if shape.newline then printBytes [10] else return []

theorem write_eq (path : Path) (e : Expr) : write path e = (do
    let shape := (← read).config.emit
    let (code, p) ← value path e
    let printed ← printValue e.type p shape
    let newline ← endLine shape
    return code ++ printed ++ newline) := by
  unfold write
  simp only [printValue, endLine, ite_bind, bind_assoc, pure_bind]

/-- The line at which a function is entered: the entry function only tells its frame, every other
one saves the return address. -/
def functionStart (tag : String) (isEntry : Bool) (sp lk : Register) : Emit Code :=
  if isEntry then do
    let size ← frameSize
    comment ("frame " ++ Text.decimal size.toInt)
  else do
    let off ← ownSlot .returnAddress
    return [.labeled tag (.sw off sp lk)]

def functionResult (returns : Ty) (sp : Register) : Emit Code :=
  if returns.base != .void then do
    let off ← ownSlot .returnValue
    return plain [.imm .addi (← resultRegister) sp off]
  else return []

def functionFinish (isEntry : Bool) (returns : Ty) (sp lk : Register) : Emit Code :=
  if isEntry then return []
  else do
    let result ← functionResult returns sp
    let off ← ownSlot .returnAddress
    return result ++ plain [.lw lk off sp, .reg1 .jr lk]

theorem function_eq (tag : String) (f : Function) : function tag f = (do
    let c ← read
    let sp ← stackPointer
    let lk ← link
    let note ← comment f.toSignature.text
    let start ← functionStart tag (f.isFree c.config.emit.entryFunction) sp lk
    enterBlock
    let body ← stmts [] 0 f.body
    let finish ← functionFinish (f.isFree c.config.emit.entryFunction) f.returns sp lk
    reportFunction c.scope tag
    return note ++ start ++ body ++ [mark c.exit] ++ finish) := by
  unfold function
  simp only [functionStart, functionResult, functionFinish, ite_bind, bind_assoc, pure_bind]

end MoonBackend.Emit
