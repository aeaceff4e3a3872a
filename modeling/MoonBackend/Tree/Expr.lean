import MoonBackend.Tree.Ty
import MoonBackend.Tree.Operator

/-!
# Expressions

Expressions carry the type they evaluate to, `void` as long as it is not known, and a call also
carries the number of the function that it resolved to.
-/

namespace MoonBackend

/-- An expression. `missing` stands where the document leaves an operand out; as the receiver of a
call it says that the call names none. -/
inductive Expr where
  | missing
  | int (value : Int64)
  | float (text : String)
  | var (name : String) (type : Ty)
  | dot (left : Expr) (member : String) (type : Ty)
  | index (base : Expr) (indices : List Expr) (type : Ty)
  | call (receiver : Expr) (name : String) (args : List Expr) (isNew : Bool) (type : Ty)
      (target : Option Nat)
  | unary (op : UnaryOp) (operand : Expr) (type : Ty)
  | binary (op : BinaryOp) (left right : Expr) (type : Ty)
  deriving Inhabited

namespace Expr

def type : Expr → Ty
  | .missing => .void
  | .int _ => .integer
  | .float _ => .float
  | .var _ t => t
  | .dot _ _ t => t
  | .index _ _ t => t
  | .call _ _ _ _ t _ => t
  | .unary _ _ t => t
  | .binary _ _ _ t => t

def isMissing : Expr → Bool
  | .missing => true
  | _ => false

mutual

/-- The expression as it is shown in comments, dumps and messages. -/
def text : Expr → String
  | .missing => ""
  | .int v => Text.decimal v.toInt
  | .float t => t
  | .var name _ => name
  | .dot left member _ => left.text ++ "." ++ member
  | .index base indices _ =>
    base.text ++ String.join ((texts indices).map fun s => "[" ++ s ++ "]")
  | .call receiver name args _ _ _ =>
    let head := if receiver.isMissing then name else receiver.text ++ "." ++ name
    head ++ "(" ++ ", ".intercalate (texts args) ++ ")"
  | .unary op operand _ =>
    if op = .not then "(not " ++ operand.text ++ ")" else "(" ++ op.text ++ operand.text ++ ")"
  | .binary op left right _ =>
    "(" ++ left.text ++ " " ++ op.text ++ " " ++ right.text ++ ")"

def texts : List Expr → List String
  | [] => []
  | e :: es => e.text :: texts es

end

mutual

/-- No operand is left out anywhere in the expression. -/
def isComplete : Expr → Bool
  | .missing => false
  | .int _ | .float _ | .var _ _ => true
  | .dot left _ _ => left.isComplete
  | .index base indices _ => base.isComplete && areComplete indices
  | .call receiver _ args _ _ _ =>
    (receiver.isMissing || receiver.isComplete) && areComplete args
  | .unary _ operand _ => operand.isComplete
  | .binary _ left right _ => left.isComplete && right.isComplete

def areComplete : List Expr → Bool
  | [] => true
  | e :: es => e.isComplete && areComplete es

end

end Expr

end MoonBackend
