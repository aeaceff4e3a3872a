import MoonBackend.Symbols.Table

/-!
# Building the table and completing the tree

`Table.build` makes the scopes of a program and fills in what the tree leaves open: the type of
every expression and the function that every call means. A type or a call target that is already
there is kept. The errors describe programs that validation would have refused.
-/

namespace MoonBackend

open Text

/-- Why the names of a function body do not resolve. Expressions are given by their texts. -/
inductive NameError where
  | declaredTwice (name : String)
  | undeclared (name : String)
  | memberAccess (expr : String) (type : Ty)
  | noMember (expr className member : String)
  | indexCount (expr : String) (count : Nat) (type : Ty)
  | noConstructor (call className : String)
  | methodCall (call : String) (type : Ty)
  | noFunction (call name : String)
  | ambiguous (call : String) (candidates : Nat)
  | noExpression
  deriving DecidableEq

def NameError.message : NameError → String
  | .declaredTwice name => name ++ " declared twice"
  | .undeclared name => "undeclared name " ++ name
  | .memberAccess expr type => expr ++ ": member access on " ++ type.text
  | .noMember expr className member =>
    expr ++ ": class " ++ className ++ " has no member " ++ member
  | .indexCount expr count type =>
    expr ++ ": " ++ decimal count ++ " indices for " ++ type.text
  | .noConstructor call className => call ++ ": class " ++ className ++ " has no constructor"
  | .methodCall call type => call ++ ": method call on " ++ type.text
  | .noFunction call name => call ++ ": no function named " ++ name
  | .ambiguous call candidates =>
    call ++ ": cannot resolve among " ++ decimal candidates ++ " definitions"
  | .noExpression => "unexpected expression <nil>"

inductive BuildError where
  | classTwice (name : String)
  | memberTwice (className name : String)
  | unknownBase (className base : String)
  | unknownClass (function className : String)
  | parameterTwice (function name : String)
  | inFunction (function : String) (cause : NameError)
  deriving DecidableEq

def BuildError.message : BuildError → String
  | .classTwice name => "class " ++ name ++ " declared twice"
  | .memberTwice className name =>
    "class " ++ className ++ ": member " ++ name ++ " declared twice"
  | .unknownBase className base => "class " ++ className ++ ": unknown base " ++ base
  | .unknownClass function className =>
    "function " ++ function ++ ": unknown class " ++ className
  | .parameterTwice function name =>
    "function " ++ function ++ ": parameter " ++ name ++ " declared twice"
  | .inFunction function cause => "function " ++ function ++ ": " ++ cause.message

namespace Scope

/-- The scope with one entry more. Callers check first that the entry is new. -/
def append (s : Scope) (e : Entry) : Scope := { s with entries := s.entries ++ [e] }

/-- Declares named entries one after the other; the first name that is taken is reported. -/
def declareAll (kind : EntryKind) (twice : String → BuildError) :
    List VarDecl → Scope → Except BuildError Scope
  | [], s => .ok s
  | d :: ds, s =>
    if (s.lookup d.name).isSome then .error (twice d.name)
    else declareAll kind twice ds (s.append (.named kind d.name d.type))

mutual

/-- Declares the local variable of a statement, or those of its blocks. A local variable without
name is known by its place. -/
def declareStmt (path : Path) : Stmt → Scope → Except NameError Scope
  | .declare d _, s =>
    if (s.lookup d.name).isSome then .error (.declaredTwice d.name)
    else if d.name == "" then
      .ok (s.append (.backed .localVar d.type (some (.localVar path d))))
    else .ok (s.append (.named .localVar d.name d.type))
  | .when _ body, s => declareStmts (1 :: path) 0 body s
  | .branch _ yes no, s => do
    let s ← declareStmts (1 :: path) 0 yes s
    declareStmts (2 :: path) 0 no s
  | .loop _ body, s => declareStmts (1 :: path) 0 body s
  | _, s => .ok s

def declareStmts (path : Path) (i : Nat) : List Stmt → Scope → Except NameError Scope
  | [], s => .ok s
  | st :: sts, s => do
    let s ← declareStmt (i :: path) st s
    declareStmts path (i + 1) sts s

end

end Scope

namespace Table

def addClass (t : Table) (c : ClassDecl) : Except BuildError Table := do
  if (t.class? c.name).isSome then throw (.classTwice c.name)
  let node : Backing := .classDecl t.classes.length c
  let marker : Entry := { Entry.named .classDecl c.name (.object c.name) with backing := some node }
  let s : Scope := { name := c.name, owner := .classDecl, parent := some .global, backing := node }
  let s ← s.declareAll .member (.memberTwice c.name) c.attributes
  return { t with global := t.global.append marker, classes := t.classes ++ [s] }

def checkBases (t : Table) (c : ClassDecl) : Except BuildError Unit :=
  match c.bases.find? fun b => (t.class? b).isNone with
  | some b => .error (.unknownBase c.name b)
  | none => .ok ()

def addFunction (t : Table) (f : Function) : Except BuildError Table := do
  let head := f.toSignature
  let node : Backing := .function t.functions.length head
  let parent ←
    if head.isMember then
      match t.classIndex? head.className with
      | some i => pure (ScopeId.ofClass i)
      | none => throw (.unknownClass head.qualifiedName head.className)
    else pure .global
  let owner := if head.isMember && head.isConstructor then Owner.constructor else .function
  let t := match t.scope? parent with
    | some s => t.setScope parent (s.append (.backed .function head.returns (some node)))
    | none => t
  let s : Scope :=
    { name := head.qualifiedName, owner := owner, parent := some parent, backing := node }
  let s ← s.declareAll .parameter (.parameterTwice head.qualifiedName) head.params
  match s.declareStmts [] 0 f.body with
  | .ok s => return { t with functions := t.functions ++ [s] }
  | .error cause => throw (.inFunction head.qualifiedName cause)

/-- The scopes of a program whose expressions are not completed yet. -/
def scopes (p : Program) : Except BuildError Table := do
  let global : Scope :=
    { name := "global", owner := .global, parent := none,
      backing := .program p.classes.length p.functions.length }
  let t ← p.classes.foldlM addClass ⟨p, global, [], []⟩
  p.classes.forM t.checkBases
  p.functions.foldlM addFunction t

def signature? (t : Table) (i : Nat) : Option Signature :=
  (t.program.functions[i]?).map Function.toSignature

def acceptsTypes (t : Table) (types : List Ty) (i : Nat) : Bool :=
  (t.signature? i).any fun f => f.params.map VarDecl.type == types

/-- Chooses among functions of one name: the only one with exactly the types of the arguments, or,
if there is none, the only one with their number. -/
def pickOverload (t : Table) (call name : String) (types : List Ty) (candidates : List Nat) :
    Except NameError Nat :=
  let byArity := candidates.filter fun i =>
    (t.signature? i).any fun f => f.params.length == types.length
  match byArity.filter (t.acceptsTypes types), byArity with
  | [i], _ => .ok i
  | [], [i] => .ok i
  | _, _ =>
    if candidates.isEmpty then .error (.noFunction call name)
    else .error (.ambiguous call candidates.length)

/-- The functions that a call may mean: the constructors of its class, the methods that its
receiver's class sees, or the free functions of its name and, failing those, the methods that the
caller's own class sees. -/
def candidates (t : Table) (caller : Nat) (call : String) (receiver : Expr) (name : String)
    (isNew : Bool) : Except NameError (List Nat) :=
  if isNew then
    match t.functionsWhere fun f => f.isConstructor && f.className == name with
    | [] => .error (.noConstructor call name)
    | found => .ok found
  else if !receiver.isMissing then
    match receiver.type with
    | ⟨.object className, []⟩ => .ok (t.methods className name)
    | other => .error (.methodCall call other)
  else
    match t.functionsWhere (·.isFree name), t.signature? caller with
    | [], some f => .ok (if f.isMember then t.methods f.className name else [])
    | found, _ => .ok found

mutual

def complete (t : Table) (caller : Nat) : Expr → Except NameError Expr
  | .missing => .error .noExpression
  | .int v => .ok (.int v)
  | .float text => .ok (.float text)
  | .var name type =>
    match t.resolveName caller name with
    | some (l, _) => .ok (.var name (type.orElse l.entry.type))
    | none => .error (.undeclared name)
  | .dot left member type => do
    let left ← t.complete caller left
    let shown := (Expr.dot left member type).text
    match left.type with
    | ⟨.object className, []⟩ =>
      match t.member? className member with
      | some l => return .dot left member (type.orElse l.entry.type)
      | none => throw (.noMember shown className member)
    | other => throw (.memberAccess shown other)
  | .index base indices type => do
    let base ← t.complete caller base
    let indices ← t.completeAll caller indices
    let bt := base.type
    if indices.isEmpty || bt.dims.length < indices.length then
      throw (.indexCount (Expr.index base indices type).text indices.length bt)
    return .index base indices (type.orElse ⟨bt.base, bt.dims.drop indices.length⟩)
  | .call receiver name args isNew type target => do
    let receiver ← t.completeReceiver caller receiver
    let args ← t.completeAll caller args
    let shown := (Expr.call receiver name args isNew type target).text
    let target ←
      match target with
      | some i => pure i
      | none => do
        let found ← t.candidates caller shown receiver name isNew
        t.pickOverload shown name (args.map Expr.type) found
    let own :=
      if isNew then Ty.object name else ((t.signature? target).map Signature.returns).getD .void
    return .call receiver name args isNew (type.orElse own) (some target)
  | .unary op operand type => do
    let operand ← t.complete caller operand
    return .unary op operand (type.orElse (if op = .not then .integer else operand.type))
  | .binary op left right type => do
    let left ← t.complete caller left
    let right ← t.complete caller right
    return .binary op left right (type.orElse (if op.isTruth then .integer else left.type))

def completeReceiver (t : Table) (caller : Nat) : Expr → Except NameError Expr
  | .missing => .ok .missing
  | e => t.complete caller e

def completeAll (t : Table) (caller : Nat) : List Expr → Except NameError (List Expr)
  | [] => .ok []
  | e :: es => do
    let e ← t.complete caller e
    let es ← t.completeAll caller es
    return e :: es

end

mutual

def completeStmt (t : Table) (caller : Nat) : Stmt → Except NameError Stmt
  | .declare d .missing => .ok (.declare d .missing)
  | .declare d init => return .declare d (← t.complete caller init)
  | .assign target value => do
    let target ← t.complete caller target
    let value ← t.complete caller value
    return .assign target value
  | .when cond body => do
    let cond ← t.complete caller cond
    let body ← t.completeStmts caller body
    return .when cond body
  | .branch cond yes no => do
    let cond ← t.complete caller cond
    let yes ← t.completeStmts caller yes
    let no ← t.completeStmts caller no
    return .branch cond yes no
  | .loop cond body => do
    let cond ← t.complete caller cond
    let body ← t.completeStmts caller body
    return .loop cond body
  | .write value => return .write (← t.complete caller value)
  | .read target => return .read (← t.complete caller target)
  | .ret .missing => .ok (.ret .missing)
  | .ret value => return .ret (← t.complete caller value)
  | .call c => return .call (← t.complete caller c)

def completeStmts (t : Table) (caller : Nat) : List Stmt → Except NameError (List Stmt)
  | [] => .ok []
  | s :: ss => do
    let s ← t.completeStmt caller s
    let ss ← t.completeStmts caller ss
    return s :: ss

end

def completeFunctions (t : Table) (i : Nat) : List Function → Except BuildError (List Function)
  | [] => .ok []
  | f :: fs =>
    match t.completeStmts i f.body with
    | .error cause => .error (.inFunction f.qualifiedName cause)
    | .ok body => do
      let fs ← t.completeFunctions (i + 1) fs
      return { f with body := body } :: fs

/-- The table of a program, whose tree it holds completed. -/
def build (p : Program) : Except BuildError Table := do
  let t ← scopes p
  let functions ← t.completeFunctions 0 p.functions
  return { t with program := { p with functions := functions } }

end Table

end MoonBackend
