import MoonBackend.Symbols.Table

/-!
# The unnamed slots that a function needs

Every function but the entry function keeps its return address in its frame, a function with a
result keeps the result there, and a member function the address of its receiver. Below them comes
one slot for each value that the body computes, operands before the value that is made of them,
and one for the address of each receiver. They are the synthesized entries of section 4.1 of the
specification.
-/

namespace MoonBackend

structure Demand where
  kind : EntryKind
  type : Ty
  node : Backing

/-- How an expression is used: for its value, or for the place that it names. -/
inductive Use where
  | value
  | location
  deriving DecidableEq

namespace Demand

def temporary (path : Path) (e : Expr) : Demand := ⟨.temporary, e.type, .expr path e⟩

def receiver (path : Path) (e : Expr) : Demand := ⟨.reference, e.type, .expr path e⟩

/-- The slot for the value of an expression that also names a place. -/
def copy (use : Use) (path : Path) (e : Expr) : List Demand :=
  if use = .value then [temporary path e] else []

mutual

/-- The slots that an expression needs. `isMember` says which names stand for members of the
receiver. Child 0 of an expression is its left operand, base or receiver. -/
def ofExpr (isMember : String → Bool) (use : Use) (path : Path) : Expr → List Demand
  | .missing => []
  | .int _ => []
  | .float text => [temporary path (.float text)]
  | .var name type => if isMember name then copy use path (.var name type) else []
  | .dot left member type =>
    ofExpr isMember .location (0 :: path) left ++ copy use path (.dot left member type)
  | .index base indices type =>
    ofExpr isMember .location (0 :: path) base ++ ofExprs isMember path 1 indices
      ++ copy use path (.index base indices type)
  | .unary op operand type =>
    ofExpr isMember .value (0 :: path) operand ++ [temporary path (.unary op operand type)]
  | .binary op left right type =>
    ofExpr isMember .value (0 :: path) left ++ ofExpr isMember .value (1 :: path) right
      ++ [temporary path (.binary op left right type)]
  | .call recv name args isNew type target =>
    ofExpr isMember .location (0 :: path) recv
      ++ (if recv.isMissing then [] else [receiver (0 :: path) recv])
      ++ ofExprs isMember path 1 args
      ++ (if isNew || type.base != .void then
            [temporary path (.call recv name args isNew type target)]
          else [])

def ofExprs (isMember : String → Bool) (path : Path) (i : Nat) : List Expr → List Demand
  | [] => []
  | e :: es => ofExpr isMember .value (i :: path) e ++ ofExprs isMember path (i + 1) es

end

mutual

/-- The slots of a statement. Child 0 is its first expression; child 1 is its second expression or
its first block, and child 2 its second block. -/
def ofStmt (isMember : String → Bool) (path : Path) : Stmt → List Demand
  | .declare _ init => ofExpr isMember .value (0 :: path) init
  | .assign target value =>
    ofExpr isMember .location (0 :: path) target ++ ofExpr isMember .value (1 :: path) value
  | .when cond body =>
    ofExpr isMember .value (0 :: path) cond ++ ofStmts isMember (1 :: path) 0 body
  | .branch cond yes no =>
    ofExpr isMember .value (0 :: path) cond ++ ofStmts isMember (1 :: path) 0 yes
      ++ ofStmts isMember (2 :: path) 0 no
  | .loop cond body =>
    ofExpr isMember .value (0 :: path) cond ++ ofStmts isMember (1 :: path) 0 body
  | .write value => ofExpr isMember .value (0 :: path) value
  | .read target => ofExpr isMember .location (0 :: path) target
  | .ret value => ofExpr isMember .value (0 :: path) value
  | .call c => ofExpr isMember .value (0 :: path) c

def ofStmts (isMember : String → Bool) (path : Path) (i : Nat) : List Stmt → List Demand
  | [] => []
  | s :: ss => ofStmt isMember (i :: path) s ++ ofStmts isMember path (i + 1) ss

end

def ofHead (entryName : String) (node : Backing) (f : Signature) : List Demand :=
  (if f.isFree entryName then [] else [⟨.returnAddress, .integer, node⟩])
    ++ (if f.returns.base = .void then [] else [⟨.returnValue, f.returns, node⟩])
    ++ (if f.isMember then [⟨.reference, .object f.className, node⟩] else [])

def ofFunction (t : Table) (entryName : String) (i : Nat) (f : Function) : List Demand :=
  let isMember (name : String) : Bool := (t.resolveName i name).any Prod.snd
  ofHead entryName (.function i f.toSignature) f.toSignature ++ ofStmts isMember [] 0 f.body

end Demand

end MoonBackend
