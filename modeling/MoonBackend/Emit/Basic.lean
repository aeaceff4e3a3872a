import MoonBackend.Emit.Line
import MoonBackend.Layout.Resolve
import MoonBackend.RegisterPool

/-!
# Emission

What emission knows about the function under way, what it keeps count of, and its basic steps:
labels, scratch registers, slots and moves. Every step returns the lines that it asks for.
-/

namespace MoonBackend

/-- What is fixed while the code of one function is emitted. -/
structure Emit.Context where
  config : Config
  layout : Layout
  /-- The entry labels of all functions, by position. -/
  tags : List String
  /-- The position of the function under way. -/
  index : Nat
  head : Signature
  scope : Scope
  /-- The label at the end of the function under way. -/
  exit : String

structure Emit.Counts where
  pool : RegisterPool
  labels : Nat := 0
  blocks : Nat := 0
  log : List LogRecord := []

/-- A step of emission. A fault keeps the counts as they were when it came. -/
abbrev Emit := ReaderT Emit.Context (ExceptT Fault (StateM Emit.Counts))

/-- Where the value of an expression lives: it is known, or it is in a slot of the frame. -/
inductive Place where
  | immediate (value : Int64)
  | slot (off : Int64)
  deriving DecidableEq

/-- The slot of a place; a known value has none and stands for the top of the frame. -/
def Place.offset : Place → Int64
  | .immediate _ => 0
  | .slot off => off

/-- The location `off(base)`. The base is the stack pointer, or a scratch register that is held for
this location. -/
structure Location where
  base : Register
  off : Int64
  held : Bool
  deriving DecidableEq

namespace Emit

def lift {α : Type} (x : Except Fault α) : Emit α :=
  match x with
  | .ok a => pure a
  | .error f => throw f

/-- A label that no other call returns, with the given start. -/
def freshLabel (start : String) : Emit String := do
  let n := (← get).labels + 1
  modify fun s => { s with labels := n }
  return start ++ Text.decimal n

def acquire : Emit Register := do
  let (r, pool) ← lift (← get).pool.acquire
  modify fun s => { s with pool := pool }
  return r

def release (r : Register) : Emit Unit := do
  let pool ← lift ((← get).pool.release r)
  modify fun s => { s with pool := pool }

def releaseLocation (l : Location) : Emit Unit := if l.held then release l.base else return ()

/-- Works on the register pool; what was done to it stays, also when the work faults. -/
def onPool {α : Type} (work : RegisterPool → Except Fault α × RegisterPool) : Emit α := do
  match work (← get).pool with
  | (result, pool) =>
    modify fun s => { s with pool := pool }
    lift result

/-- Runs `body` with `n` scratch registers, which are given back in reverse order afterwards, also
when `body` faults. -/
def withRegisters {α : Type} (n : Nat) (body : List Register → Emit α) : Emit α := do
  let rs ← onPool (RegisterPool.acquireMany n)
  let result ← tryCatch (do return Except.ok (← body rs)) fun f => return .error f
  onPool (RegisterPool.releaseMany rs.reverse)
  lift result

def withRegister {α : Type} (body : Register → Emit α) : Emit α :=
  withRegisters 1 fun rs => body (rs.headD Item.unused)

def stackPointer : Emit Register := return ⟨(← read).config.registers.stackPointer⟩

def zero : Emit Register := return ⟨(← read).config.registers.zero⟩

def resultRegister : Emit Register := return ⟨(← read).config.registers.returnValue⟩

def link : Emit Register := return ⟨(← read).config.registers.link⟩

def wordSize : Emit Int64 := return (← read).config.sizes.word

def comment (text : String) : Emit Code :=
  return if (← read).config.emit.comments then [.comment text] else []

def frameSize : Emit Int64 := do lift (← read).scope.frameSize

/-- The offset of the unnamed slot of a kind that backs a node of the function under way. -/
def slotOffset (node : Backing) (kind : EntryKind) : Emit Int64 := do
  let e ← lift ((← read).scope.requireSlot node kind)
  lift e.getOffset

def temporary (path : Path) (e : Expr) : Emit Int64 := slotOffset (.expr path e) .temporary

/-- The offset of an unnamed slot that backs the function under way itself. -/
def ownSlot (kind : EntryKind) : Emit Int64 := do
  let c ← read
  slotOffset (.function c.index c.head) kind

def resolve? (name : String) : Emit (Option (Located × Bool)) := do
  let c ← read
  return c.layout.table.resolveName c.index name

def frame (off : Int64) : Emit Location := return ⟨← stackPointer, off, false⟩

def words (t : Ty) : Emit Int64 := do
  if t.base = .boolean then throw .booleanStorage
  if t.base = .void then throw .voidValue
  let n := wordOfSize (← lift ((← read).layout.sizeOf t))
  let w ← wordSize
  if 0 < n && n % w == 0 then return n / w
  throw (.partialWords n t)

/-- Where the value of an expression lives once it was emitted. -/
def placeOf (path : Path) (e : Expr) : Emit Place := do
  match e with
  | .int v => return .immediate v
  | .var name type =>
    match ← resolve? name with
    | some (l, false) => return .slot (← lift l.entry.getOffset)
    | _ => return .slot (← temporary path (.var name type))
  | e => return .slot (← temporary path e)

/-- Loads a known value. A value that is too wide for a signed half word is put together from its
halves. -/
def constant (r : Register) (v : Int64) : Emit Code := do
  let z ← zero
  if -32768 ≤ v && v < 32768 then
    return Code.plain [.imm .addi r z v]
  if -2147483648 ≤ v && v < 2147483648 then
    return Code.plain
      [.imm .addi r z (v >>> 16), .sl r 16, .imm .ori r r (v &&& 65535)]
  throw (.constantTooLarge v)

def load (r : Register) (p : Place) (i : Int64) : Emit Code := do
  match p with
  | .immediate v => if i == 0 then constant r v else throw (.immediateWord i)
  | .slot off => return Code.plain [.lw r (off - i * (← wordSize)) (← stackPointer)]

/-- Moves `n` words, the highest address first, through one scratch register. -/
def copy (dst src : Location) (n : Int64) : Emit Code := do
  let w ← wordSize
  withRegister fun r =>
    return Code.plain <| (List.range n.toNatClampNeg).flatMap fun i =>
      let below := Int64.ofNat i * w
      [Item.lw r (src.off - below) src.base, .sw (dst.off - below) dst.base r]

def store (dst : Location) (p : Place) (n : Int64) : Emit Code := do
  match p with
  | .slot off => copy dst (← frame off) n
  | .immediate v =>
    if n != 1 then throw (.wideImmediate n)
    withRegister fun r => do
      let code ← constant r v
      return code ++ Code.plain [.sw dst.off dst.base r]

end Emit

end MoonBackend
