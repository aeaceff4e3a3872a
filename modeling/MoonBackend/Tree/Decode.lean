import MoonBackend.Tree.Program
import MoonBackend.Yaml.Reading

/-!
# Programs from documents

A program is a mapping with `classes` and `functions`. A statement or an expression is a mapping
with exactly one key that says its kind; an expression may also have a `type`.

Shape problems come last: they are reported only if nothing else stopped the reading. A statement
or expression in which a problem came up is not looked at any further.
-/

namespace MoonBackend

open Text Yaml

inductive DecodeError where
  | notWellFormed
  | wrongShape
  | unnamedDeclaration (line : Nat)
  | badType (line : Nat) (cause : TypeError)
  | kindKeys (line : Nat) (what : String) (keys : List String)
  | noValue (line : Nat) (what key : String)
  | unknownKind (line : Nat) (what key : String)
  | unknownUnary (line : Nat) (op : String)
  | unknownBinary (line : Nat) (op : String)
  | badReturns (function : String) (cause : TypeError)
  deriving DecidableEq

def DecodeError.message : DecodeError → String
  | .notWellFormed => "yaml: the document cannot be parsed"
  | .wrongShape => "yaml: a value of the document has the wrong shape"
  | .unnamedDeclaration line => atLine line ++ "declaration without a name"
  | .badType line cause => atLine line ++ cause.message
  | .kindKeys line what keys =>
    atLine line ++ what ++ " must have exactly one kind key, found " ++ bracketed keys
  | .noValue line what key => atLine line ++ what ++ " " ++ quoted key ++ " has no value"
  | .unknownKind line what key => atLine line ++ "unknown " ++ what ++ " " ++ quoted key
  | .unknownUnary line op => atLine line ++ "unknown unary operator " ++ quoted op
  | .unknownBinary line op => atLine line ++ "unknown binary operator " ++ quoted op
  | .badReturns function cause => "function " ++ function ++ ": " ++ cause.message
where
  atLine (line : Nat) : String := "line " ++ decimal line ++ ": "

namespace Decode

abbrev Read := Reading DecodeError

def lineOf : Node → Nat
  | .mapping line _ => line
  | _ => 0

/-- Lifts a type text's refusal to the line it stands on. -/
def typeAt (line : Nat) (text : String) : Read Ty :=
  match Ty.parse text with
  | .ok t => return t
  | .error cause => throw (.badType line cause)

/-- The one key of a mapping that says its kind, the side keys apart. Only a return may leave its
value out. -/
def kindKey (what : String) (side : List String) (n : Node) : Read String :=
  match n with
  | .mapping line entries =>
    match entries.filter fun e => !side.contains e.1.scalarText with
    | [(key, value)] =>
      if value.isNull && key.scalarText != "return" then
        throw (.noValue line what key.scalarText)
      else return key.scalarText
    | kinds => throw (.kindKeys line what (kinds.map fun e => e.1.scalarText))
  | _ => return ""

structure CallForm where
  receiver : Expr := .missing
  name : String := ""
  className : String := ""
  args : List Expr := []

def CallForm.call (c : CallForm) (type : Ty) : Expr :=
  .call c.receiver c.name c.args false type none

/-- A constructor call, which evaluates to an object of its class. -/
def CallForm.new (c : CallForm) : Expr :=
  .call c.receiver c.className c.args true (.object c.className) none

def callForm (operand : Node → Read (Option Expr)) (n : Node) : Read CallForm :=
  n.readInto {} fun key value c =>
    match key with
    | "receiver" => return { c with receiver := (← operand value).getD .missing }
    | "name" => return { c with name := ← value.readString c.name }
    | "class" => return { c with className := ← value.readString c.className }
    | "args" => return { c with args := ← value.readList c.args operand }
    | _ => return c

/-- The value under an expression's kind key. -/
inductive ExprForm where
  | int (value : Int64)
  | float (text : String)
  | var (name : String)
  | dot (left : Expr) (member : String)
  | index (base : Expr) (indices : List Expr)
  | call (c : CallForm)
  | new (c : CallForm)
  | unary (op : String) (operand : Expr)
  | binary (op : String) (left right : Expr)

/-- An expression before its kind key is checked. -/
structure RawExpr where
  form : Option ExprForm := none
  type : String := ""

def ExprForm.build (line : Nat) (type : Ty) : ExprForm → Read Expr
  | .int v => return .int v
  | .float t => return .float t
  | .var name => return .var name type
  | .dot left member => return .dot left member type
  | .index base indices => return .index base indices type
  | .call c => return c.call type
  | .new c => return c.new
  | .unary op operand =>
    match UnaryOp.parse? op with
    | some o => return .unary o operand type
    | none => throw (.unknownUnary line op)
  | .binary op left right =>
    match BinaryOp.parse? op with
    | some o => return .binary o left right type
    | none => throw (.unknownBinary line op)

/-- Reads an expression. The fuel bounds the depth of the document. -/
def expr (fuel : Nat) (n : Node) : Read (Option Expr) :=
  match fuel with
  | 0 => return none
  | fuel + 1 => do
    if n.isNull then return none
    let operand (n : Node) (old : Expr) : Read Expr := return (← expr fuel n).getD old
    let field (key : String) (value : Node) (raw : RawExpr) : Read RawExpr := do
      if key == "type" then
        return { raw with type := ← value.readString raw.type }
      else if value.isNull then return raw
      else
        let form : Option ExprForm ←
          match key with
          | "int" => pure (some (.int (← value.readInt 0)))
          | "float" => pure (some (.float (← value.readString "")))
          | "var" => pure (some (.var (← value.readString "")))
          | "dot" =>
            let d ← value.readInto (Expr.missing, "") fun key value (left, member) =>
              match key with
              | "left" => return (← operand value left, member)
              | "member" => return (left, ← value.readString member)
              | _ => return (left, member)
            pure (some (.dot d.1 d.2))
          | "index" =>
            let i ← value.readInto (Expr.missing, []) fun key value (base, indices) =>
              match key with
              | "base" => return (← operand value base, indices)
              | "at" => return (base, ← value.readList indices (expr fuel))
              | _ => return (base, indices)
            pure (some (.index i.1 i.2))
          | "call" => pure (some (.call (← callForm (expr fuel) value)))
          | "new" => pure (some (.new (← callForm (expr fuel) value)))
          | "unary" =>
            let u ← value.readInto ("", Expr.missing) fun key value (op, e) =>
              match key with
              | "op" => return (← value.readString op, e)
              | "operand" => return (op, ← operand value e)
              | _ => return (op, e)
            pure (some (.unary u.1 u.2))
          | "binary" =>
            let b ← value.readInto ("", Expr.missing, Expr.missing) fun key value (op, l, r) =>
              match key with
              | "op" => return (← value.readString op, l, r)
              | "left" => return (op, ← operand value l, r)
              | "right" => return (op, l, ← operand value r)
              | _ => return (op, l, r)
            pure (some (.binary b.1 b.2.1 b.2.2))
          | _ => pure none
        return if form.isSome then { raw with form := form } else raw
    match ← Reading.isolated (n.readRecord {} field) with
    | some (some raw) =>
      let key ← kindKey "expression" ["type"] n
      let type ← if raw.type == "" then pure Ty.void else typeAt (lineOf n) raw.type
      match raw.form with
      | some form => return some (← form.build (lineOf n) type)
      | none => throw (.unknownKind (lineOf n) "expression" key)
    | _ => return none

inductive StmtForm where
  | declare (name type : String) (init : Expr)
  | assign (target value : Expr)
  | branch (cond : Expr) (yes no : Option (List Stmt))
  | loop (cond : Expr) (body : Option (List Stmt))
  | write (value : Expr)
  | read (target : Expr)
  | ret (value : Expr)
  | call (c : CallForm)

/-- The statement of a form. A body that is left out is empty. -/
def StmtForm.build (line : Nat) : StmtForm → Read Stmt
  | .declare name type init => return .declare ⟨name, ← typeAt line type⟩ init
  | .assign target value => return .assign target value
  | .branch cond yes none => return .when cond (yes.getD [])
  | .branch cond yes (some no) => return .branch cond (yes.getD []) no
  | .loop cond body => return .loop cond (body.getD [])
  | .write value => return .write value
  | .read target => return .read target
  | .ret value => return .ret value
  | .call c => return .call (c.call .void)

def stmt (fuel : Nat) (n : Node) : Read (Option Stmt) :=
  match fuel with
  | 0 => return none
  | fuel + 1 => do
    if n.isNull then return none
    let operand (n : Node) (old : Expr) : Read Expr := return (← expr fuel n).getD old
    let block (n : Node) (old : Option (List Stmt)) : Read (Option (List Stmt)) := do
      if n.isNull then return old
      else Reading.isolated (n.readList [] (stmt fuel))
    let field (key : String) (value : Node) (raw : Option StmtForm) : Read (Option StmtForm) := do
      if value.isNull then return raw
      match key with
      | "local" =>
        let l ← value.readInto ("", "", Expr.missing) fun key value (name, type, init) =>
          match key with
          | "name" => return (← value.readString name, type, init)
          | "type" => return (name, ← value.readString type, init)
          | "init" => return (name, type, ← operand value .missing)
          | _ => return (name, type, init)
        return some (.declare l.1 l.2.1 l.2.2)
      | "assign" =>
        let a ← value.readInto (Expr.missing, Expr.missing) fun key value (target, v) =>
          match key with
          | "target" => return (← operand value target, v)
          | "value" => return (target, ← operand value v)
          | _ => return (target, v)
        return some (.assign a.1 a.2)
      | "if" =>
        let b ← value.readInto (Expr.missing, none, none) fun key value (cond, yes, no) =>
          match key with
          | "cond" => return (← operand value cond, yes, no)
          | "then" => return (cond, ← block value yes, no)
          | "else" => return (cond, yes, ← block value no)
          | _ => return (cond, yes, no)
        return some (.branch b.1 b.2.1 b.2.2)
      | "while" =>
        let w ← value.readInto (Expr.missing, none) fun key value (cond, body) =>
          match key with
          | "cond" => return (← operand value cond, body)
          | "body" => return (cond, ← block value body)
          | _ => return (cond, body)
        return some (.loop w.1 w.2)
      | "write" => return some (.write (← operand value .missing))
      | "read" => return some (.read (← operand value .missing))
      | "return" => return some (.ret (← operand value .missing))
      | "call" => return some (.call (← callForm (expr fuel) value))
      | _ => return raw
    match ← Reading.isolated (n.readRecord none field) with
    | some (some raw) =>
      let key ← kindKey "statement" [] n
      match raw with
      | some form => return some (← form.build (lineOf n))
      | none =>
        if key == "return" then return some (.ret .missing)
        else throw (.unknownKind (lineOf n) "statement" key)
    | _ => return none

/-- Reads a declaration, which needs a name and a type. -/
def decl (n : Node) : Read (Option VarDecl) := do
  if n.isNull then return none
  let raw ← Reading.isolated <| n.readRecord ("", "") fun key value (name, type) =>
    match key with
    | "name" => return (← value.readString name, type)
    | "type" => return (name, ← value.readString type)
    | _ => return (name, type)
  match raw with
  | some (some (name, type)) =>
    if name == "" then throw (.unnamedDeclaration (lineOf n))
    else return some ⟨name, ← typeAt (lineOf n) type⟩
  | _ => return none

def classDecl (n : Node) : Read (Option ClassDecl) :=
  n.readRecord ⟨"", [], []⟩ fun key value c =>
    match key with
    | "name" => return { c with name := ← value.readString c.name }
    | "isa" => return { c with bases := ← value.readList c.bases Node.stringItem }
    | "attributes" => return { c with attributes := ← value.readList c.attributes decl }
    | _ => return c

/-- A function whose return type is still a text. -/
structure RawFunction where
  name : String := ""
  className : String := ""
  isConstructor : Bool := false
  params : List VarDecl := []
  returns : String := ""
  body : List Stmt := []

def function (fuel : Nat) (n : Node) : Read (Option RawFunction) :=
  n.readRecord {} fun key value f =>
    match key with
    | "name" => return { f with name := ← value.readString f.name }
    | "class" => return { f with className := ← value.readString f.className }
    | "constructor" => return { f with isConstructor := ← value.readBool f.isConstructor }
    | "params" => return { f with params := ← value.readList f.params decl }
    | "returns" => return { f with returns := ← value.readString f.returns }
    | "body" =>
      if value.isNull then return f
      else return { f with body := (← Reading.isolated (value.readList [] (stmt fuel))).getD [] }
    | _ => return f

/-- Settles the return type, void unless it is given, and the name of a constructor. -/
def RawFunction.build (f : RawFunction) : Except DecodeError Function := do
  let name := if f.isConstructor && f.name == "" then "constructor" else f.name
  let head : Signature := ⟨name, f.className, f.isConstructor, f.params, .void⟩
  if f.returns == "" then return { head with body := f.body }
  match Ty.parse f.returns with
  | .ok t => return { head with returns := t, body := f.body }
  | .error cause => throw (.badReturns head.qualifiedName cause)

def program (fuel : Nat) (n : Node) : Read (List ClassDecl × List RawFunction) :=
  n.readInto ([], []) fun key value (classes, functions) =>
    match key with
    | "classes" => return (← value.readList classes classDecl, functions)
    | "functions" => return (classes, ← value.readList functions (function fuel))
    | _ => return (classes, functions)

end Decode

/-- The program that a document describes. A text without a document is the empty program. -/
def Program.decode (source : String) : Except DecodeError Program :=
  match Node.ofSource source with
  | none => .error .notWellFormed
  | some none => .ok .empty
  | some (some root) => do
    let ((classes, functions), problem) ← (Decode.program (source.length + 2) root).finish
    if problem then throw .wrongShape
    return ⟨classes, ← functions.mapM Decode.RawFunction.build⟩

end MoonBackend
