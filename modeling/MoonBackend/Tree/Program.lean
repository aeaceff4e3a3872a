import MoonBackend.Tree.Expr

/-!
# Statements, declarations and programs
-/

namespace MoonBackend

structure VarDecl where
  name : String
  type : Ty
  deriving DecidableEq, Inhabited

def VarDecl.text (d : VarDecl) : String := d.name ++ ": " ++ d.type.text

/-- A statement. A local variable without initialiser and a void return hold `Expr.missing`. -/
inductive Stmt where
  | declare (decl : VarDecl) (init : Expr)
  | assign (target value : Expr)
  | when (cond : Expr) (body : List Stmt)
  | branch (cond : Expr) (yes no : List Stmt)
  | loop (cond : Expr) (body : List Stmt)
  | write (value : Expr)
  | read (target : Expr)
  | ret (value : Expr)
  | call (expr : Expr)
  deriving Inhabited

namespace Stmt

/-- How a block is shown: by the number of its statements. -/
def blockText (body : List Stmt) : String := "\x7b" ++ Text.decimal body.length ++ " stmts\x7d"

def text : Stmt → String
  | .declare d init =>
    "localvar " ++ d.text ++ (if init.isMissing then "" else " := " ++ init.text)
  | .assign target value => target.text ++ " := " ++ value.text
  | .when cond body => "if " ++ cond.text ++ " then " ++ blockText body
  | .branch cond yes no =>
    "if " ++ cond.text ++ " then " ++ blockText yes ++ " else " ++ blockText no
  | .loop cond body => "while " ++ cond.text ++ " do " ++ blockText body
  | .write value => "write(" ++ value.text ++ ")"
  | .read target => "read(" ++ target.text ++ ")"
  | .ret value => "return(" ++ value.text ++ ")"
  | .call c => c.text

/-- Every operand that the statement itself needs is there and complete. -/
def isComplete : Stmt → Bool
  | .declare _ init => init.isMissing || init.isComplete
  | .assign target value => target.isComplete && value.isComplete
  | .when cond _ | .branch cond _ _ | .loop cond _ => cond.isComplete
  | .write value => value.isComplete
  | .read target => target.isComplete
  | .ret value => value.isMissing || value.isComplete
  | .call c => c.isComplete

end Stmt

structure ClassDecl where
  name : String
  bases : List String
  attributes : List VarDecl
  deriving DecidableEq, Inhabited

def ClassDecl.text (c : ClassDecl) : String :=
  "class " ++ c.name ++ (if c.bases.isEmpty then "" else " isa " ++ ", ".intercalate c.bases)

/-- The head of a function. The class name is empty for a free function. -/
structure Signature where
  name : String
  className : String
  isConstructor : Bool
  params : List VarDecl
  returns : Ty
  deriving DecidableEq, Inhabited

namespace Signature

def isMember (f : Signature) : Bool := f.className != ""

/-- The name with the class in front, for a member function. -/
def qualifiedName (f : Signature) : String :=
  if f.isMember then f.className ++ "::" ++ f.name else f.name

def text (f : Signature) : String :=
  "function " ++ f.qualifiedName ++ "(" ++ ", ".intercalate (f.params.map VarDecl.text) ++ ") => "
    ++ f.returns.text

def isFree (f : Signature) (name : String) : Bool := !f.isMember && f.name == name

end Signature

structure Function extends Signature where
  body : List Stmt
  deriving Inhabited

/-- A whole program. Functions are referred to by their position. -/
structure Program where
  classes : List ClassDecl
  functions : List Function
  deriving Inhabited

namespace Program

def empty : Program := ⟨[], []⟩

def summary (classes functions : Nat) : String :=
  "Program(classes=" ++ Text.decimal classes ++ ", functions=" ++ Text.decimal functions ++ ")"

def text (p : Program) : String := summary p.classes.length p.functions.length

def class? (p : Program) (name : String) : Option ClassDecl :=
  p.classes.find? (·.name == name)

def function? (p : Program) (name : String) : Option Function :=
  p.functions.find? (·.isFree name)

end Program

end MoonBackend
