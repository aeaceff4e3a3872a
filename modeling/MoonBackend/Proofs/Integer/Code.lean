import MoonBackend.Emit.Program
import MoonBackend.Proofs.Integer.Language

/-!
# The code of the integer language

The lines that are emitted for the integer language, as functions of the slots of the frame and of
the number of labels given out before.
-/

namespace MoonBackend

open Code

/-- The slots of a frame: offsets of variables and of the values of nested expressions, and the
size of the frame. -/
structure Slots where
  var : String → Option Int64
  temp : Path → Option Int64
  size : Int64

namespace Scope

def slots (s : Scope) (size : Int64) : Slots where
  var name := (s.lookup name).bind Entry.offset
  temp path := (s.slot (.expr path) .temporary).bind Entry.offset
  size := size

end Scope

namespace Integer

/-! ### Registers -/

def zero : Register := ⟨0⟩
def first : Register := ⟨1⟩
def second : Register := ⟨2⟩
def result : Register := ⟨13⟩
def stack : Register := ⟨14⟩
def link : Register := ⟨15⟩

/-! ### Expressions -/

def place (slots : Slots) (path : Path) : Expr → Place
  | .int v => .immediate v
  | .var name _ => .slot ((slots.var name).getD 0)
  | _ => .slot ((slots.temp path).getD 0)

def constantCode (r : Register) (v : Int64) : Code :=
  if -32768 ≤ v && v < 32768 then plain [.imm .addi r zero v]
  else plain [.imm .addi r zero (v >>> 16), .sl r 16, .imm .ori r r (v &&& 65535)]

def loadCode (r : Register) : Place → Code
  | .immediate v => constantCode r v
  | .slot off => plain [.lw r off stack]

def unaryCode : UnaryOp → Code
  | .plus => []
  | .minus => plain [.reg3 .sub first zero first]
  | .not => plain [.reg3 .ceq first first zero]

def exprCode (slots : Slots) (path : Path) : Expr → Code
  | .unary op e _ =>
    exprCode slots (0 :: path) e
      ++ (loadCode first (place slots (0 :: path) e) ++ unaryCode op
        ++ plain [.sw ((slots.temp path).getD 0) stack first])
  | .binary op l r _ =>
    exprCode slots (0 :: path) l ++ exprCode slots (1 :: path) r
      ++ (loadCode first (place slots (0 :: path) l) ++ loadCode second (place slots (1 :: path) r)
        ++ Emit.integerOperation first second zero op
        ++ plain [.sw ((slots.temp path).getD 0) stack first])
  | _ => []

/-! ### Statements -/

def note (text : String) : Code := [.comment text]

def label (start : String) (n : Nat) : String := start ++ Text.decimal n

def storeCode (off : Int64) (p : Place) : Code := loadCode first p ++ plain [.sw off stack first]

def testCode (slots : Slots) (path : Path) (cond : Expr) (target : String) : Code :=
  exprCode slots path cond ++ (loadCode first (place slots path cond) ++ plain [.bz first target])

def printCode (size : Int64) (p : Place) : Code :=
  loadCode first p ++ plain
    [.imm .addi stack stack (-size), .sw (-8) stack first, .named .addi first zero "buf",
      .sw (-12) stack first, .jl link "intstr", .sw (-8) stack result, .jl link "putstr",
      .imm .addi stack stack size]

def newlineCode : Code := plain [.imm .addi first zero 10, .reg1 .putc first]

def readCode (size off : Int64) : Code :=
  plain
    [.imm .addi stack stack (-size), .named .addi first zero "buf", .sw (-8) stack first,
      .jl link "getstr", .named .addi first zero "buf", .sw (-8) stack first,
      .jl link "strint", .imm .addi stack stack size]
    ++ plain [.sw off stack result]

mutual

def labelCount : Stmt → Nat
  | .when _ body => 2 + labelCountAll body
  | .branch _ yes no => 2 + labelCountAll yes + labelCountAll no
  | .loop _ body => 2 + labelCountAll body
  | _ => 0

def labelCountAll : List Stmt → Nat
  | [] => 0
  | st :: sts => labelCount st + labelCountAll sts

end

mutual

/-- The code of a statement when `n` labels were given out before it. -/
def stmtCode (slots : Slots) (exit : String) (path : Path) (n : Nat) : Stmt → Code
  | .declare d init =>
    if init.isMissing then []
    else note (d.name ++ " := " ++ init.text) ++ (exprCode slots (0 :: path) init
      ++ storeCode ((slots.var d.name).getD 0) (place slots (0 :: path) init))
  | .assign target e =>
    note (target.text ++ " = " ++ e.text) ++ (exprCode slots (1 :: path) e
      ++ storeCode ((slots.var (targetName target)).getD 0) (place slots (1 :: path) e))
  | .when cond body =>
    Emit.choice (note ("if " ++ cond.text) ++ testCode slots (0 :: path) cond (label "else" (n + 1)))
      (stmtsCode slots exit (1 :: path) 0 (n + 2) body) []
      (label "else" (n + 1)) (label "endif" (n + 2))
  | .branch cond yes no =>
    Emit.choice (note ("if " ++ cond.text) ++ testCode slots (0 :: path) cond (label "else" (n + 1)))
      (stmtsCode slots exit (1 :: path) 0 (n + 2) yes)
      (stmtsCode slots exit (2 :: path) 0 (n + 2 + labelCountAll yes) no)
      (label "else" (n + 1)) (label "endif" (n + 2))
  | .loop cond body =>
    note ("while " ++ cond.text) ++ [mark (label "top" (n + 1))]
      ++ testCode slots (0 :: path) cond (label "endwhile" (n + 2))
      ++ stmtsCode slots exit (1 :: path) 0 (n + 2) body
      ++ plain [.j (label "top" (n + 1))] ++ [mark (label "endwhile" (n + 2))]
  | .write e =>
    note ("write(" ++ e.text ++ ")") ++ (exprCode slots (0 :: path) e
      ++ printCode slots.size (place slots (0 :: path) e) ++ newlineCode)
  | .read target =>
    note ("read(" ++ target.text ++ ")")
      ++ readCode slots.size ((slots.var (targetName target)).getD 0)
  | .ret _ => plain [.j exit]
  | .call _ => []

def stmtsCode (slots : Slots) (exit : String) (path : Path) (i n : Nat) : List Stmt → Code
  | [] => []
  | st :: sts =>
    stmtCode slots exit (i :: path) n st
      ++ stmtsCode slots exit path (i + 1) (n + labelCount st) sts

end

end Integer

end MoonBackend
