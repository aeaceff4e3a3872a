import MoonBackend.Emit.Transfer

/-!
# Code for statements

A condition is a word, and zero is false. Choices and loops jump to labels of their own, and no scratch
register outlives a statement. Section 4.3 of the specification.
-/

namespace MoonBackend.Emit

open Code

def branchIfZero (path : Path) (cond : Expr) (label : String) : Emit Code := do
  let (code, p) ← value path cond
  let test ← withRegister fun r => do
    let code ← load r p 0
    return code ++ plain [.bz r label]
  return code ++ test

def declare (path : Path) (d : VarDecl) (init : Expr) : Emit Code := do
  if init.isMissing then return []
  let note ← comment (d.name ++ " := " ++ init.text)
  let (code, p) ← value (0 :: path) init
  match (← read).scope.lookup d.name with
  | none => throw (.undeclaredLocal d.name)
  | some e =>
    let dst ← frame (← lift e.getOffset)
    return note ++ code ++ (← store dst p (← words e.type))

/-- The code of an assignment: what the target's location needs, the value, the location, the
move. -/
def assign (path : Path) (target source : Expr) : Emit Code := do
  let note ← comment (target.text ++ " = " ++ source.text)
  let before ← operands (0 :: path) target
  let (code, p) ← value (1 :: path) source
  let (locating, dst) ← locate (0 :: path) target
  let move ← store dst p (← words target.type)
  releaseLocation dst
  return note ++ before ++ code ++ locating ++ move

/-- The code of a return: the result goes to its slot, and control to the end of the function. -/
def ret (path : Path) (result : Expr) : Emit Code := do
  let c ← read
  if result.isMissing then return plain [.j c.exit]
  let note ← comment ("return " ++ result.text)
  if c.head.returns.base = .void then throw (.valueFromVoid c.head.qualifiedName)
  let (code, p) ← value (0 :: path) result
  let dst ← frame (← ownSlot .returnValue)
  let move ← store dst p (← words c.head.returns)
  return note ++ code ++ move ++ plain [.j c.exit]

def enterBlock : Emit Unit := modify fun s => { s with blocks := s.blocks + 1 }

def checkRegisters (s : Stmt) : Emit Unit := do
  let live := (← get).pool.live
  if live != 0 then throw (.liveRegisters live s.text)

def choice (condition yes no : Code) (elseLabel endLabel : String) : Code :=
  condition ++ yes ++ plain [.j endLabel] ++ [mark elseLabel] ++ no ++ [mark endLabel]

mutual

def stmt (path : Path) : Stmt → Emit Code
  | .declare d init => declare path d init
  | .assign target source => assign path target source
  | .when cond body => do
    let elseLabel ← freshLabel "else"
    let endLabel ← freshLabel "endif"
    let note ← comment ("if " ++ cond.text)
    let test ← branchIfZero (0 :: path) cond elseLabel
    enterBlock
    let body ← stmts (1 :: path) 0 body
    return choice (note ++ test) body [] elseLabel endLabel
  | .branch cond yes no => do
    let elseLabel ← freshLabel "else"
    let endLabel ← freshLabel "endif"
    let note ← comment ("if " ++ cond.text)
    let test ← branchIfZero (0 :: path) cond elseLabel
    enterBlock
    let yes ← stmts (1 :: path) 0 yes
    enterBlock
    let no ← stmts (2 :: path) 0 no
    return choice (note ++ test) yes no elseLabel endLabel
  | .loop cond body => do
    let top ← freshLabel "top"
    let stop ← freshLabel "endwhile"
    let note ← comment ("while " ++ cond.text)
    let test ← branchIfZero (0 :: path) cond stop
    enterBlock
    let body ← stmts (1 :: path) 0 body
    return note ++ [mark top] ++ test ++ body ++ plain [.j top] ++ [mark stop]
  | .write e => do
    let note ← comment ("write(" ++ e.text ++ ")")
    return note ++ (← write (0 :: path) e)
  | .read target => do
    let note ← comment ("read(" ++ target.text ++ ")")
    return note ++ (← readInto (0 :: path) target)
  | .ret result => ret path result
  | .call c => evaluate .value (0 :: path) c

/-- The code of the statements of a block, the first of which has the given number. -/
def stmts (path : Path) (i : Nat) : List Stmt → Emit Code
  | [] => return []
  | s :: ss => do
    let code ← stmt (i :: path) s
    checkRegisters s
    let rest ← stmts path (i + 1) ss
    return code ++ rest

end

end MoonBackend.Emit
