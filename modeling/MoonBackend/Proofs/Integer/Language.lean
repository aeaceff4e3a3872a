import Mathlib
import MoonBackend.Machine.Step
import MoonBackend.Tree.Program

/-!
# The integer language

The programs whose variables are all single integers, and what they mean without a machine: words
that wrap, a line of output for each `write`, a line of input for each `read`. A division by zero
stops the program. Meaning is given by `exec` with a bound on the depth of the derivation; a program
ends if some bound is enough.
-/

namespace MoonBackend.Integer

/-! ### The language -/

/-- An expression of literals that fit in a word, variables and operators, without types. -/
def IsExpr : Expr → Prop
  | .int v => -2 ^ 31 ≤ v.toInt ∧ v.toInt < 2 ^ 31
  | .var _ type => type = .void
  | .unary _ e type => IsExpr e ∧ type = .void
  | .binary _ l r type => IsExpr l ∧ IsExpr r ∧ type = .void
  | _ => False

theorem IsExpr.induction {motive : Expr → Prop}
    (int : ∀ v : Int64, -2 ^ 31 ≤ v.toInt → v.toInt < 2 ^ 31 → motive (.int v))
    (var : ∀ name, motive (.var name .void))
    (unary : ∀ op e, IsExpr e → motive e → motive (.unary op e .void))
    (binary : ∀ op l r, IsExpr l → IsExpr r → motive l → motive r → motive (.binary op l r .void)) :
    ∀ e, IsExpr e → motive e
  | .int v, h => int v h.1 h.2
  | .var name type, h => by
    have ht : type = .void := h
    subst ht
    exact var name
  | .unary op e type, h => by
    obtain ⟨he, rfl⟩ : IsExpr e ∧ type = .void := h
    exact unary op e he (IsExpr.induction int var unary binary e he)
  | .binary op l r type, h => by
    obtain ⟨hl, hr, rfl⟩ : IsExpr l ∧ IsExpr r ∧ type = .void := h
    exact binary op l r hl hr (IsExpr.induction int var unary binary l hl)
      (IsExpr.induction int var unary binary r hr)

def IsTarget : Expr → Prop
  | .var _ type => type = .void
  | _ => False

/-- The declaration of a single integer with a name that fits on a line. -/
structure IsDecl (d : VarDecl) : Prop where
  type : d.type = .integer
  named : d.name ≠ ""
  oneLine : '\n' ∉ d.name.toList

mutual

def IsStmt : Stmt → Prop
  | .declare d init => IsDecl d ∧ (init = .missing ∨ IsExpr init)
  | .assign target value => IsTarget target ∧ IsExpr value
  | .when cond body => IsExpr cond ∧ AreStmts body
  | .branch cond yes no => IsExpr cond ∧ AreStmts yes ∧ AreStmts no
  | .loop cond body => IsExpr cond ∧ AreStmts body
  | .write value => IsExpr value
  | .read target => IsTarget target
  | .ret value => value = .missing
  | .call _ => False

def AreStmts : List Stmt → Prop
  | [] => True
  | st :: sts => IsStmt st ∧ AreStmts sts

end

/-- A program of one function: the entry function without result. -/
structure IsProgram (p : Program) (f : Function) : Prop where
  functions : p.functions = [f]
  name : f.name = "main"
  free : f.className = ""
  returns : f.returns = .void
  params : ∀ d ∈ f.params, IsDecl d
  body : AreStmts f.body

/-! ### Values -/

def unaryValue (x : Int32) : UnaryOp → Int32
  | .plus => x
  | .minus => -x
  | .not => truth (x == 0)

/-- The value of an operator on two words; none for a division by zero. -/
def binaryValue (x y : Int32) : BinaryOp → Option Int32
  | .add => some (x + y)
  | .sub => some (x - y)
  | .mul => some (x * y)
  | .div => if y = 0 then none else some (x / y)
  | .and => some (truth (x != 0 && y != 0))
  | .or => some (truth (x != 0 || y != 0))
  | .eq => some (truth (x == y))
  | .ne => some (truth (x != y))
  | .lt => some (truth (x < y))
  | .le => some (truth (x ≤ y))
  | .gt => some (truth (y < x))
  | .ge => some (truth (y ≤ x))

/-- The value of an expression. Both operands of every operator are evaluated. -/
def value (vars : String → Int32) : Expr → Option Int32
  | .int v => some v.toInt32
  | .var name _ => some (vars name)
  | .unary op e _ =>
    match value vars e with
    | none => none
    | some x => some (unaryValue x op)
  | .binary op l r _ =>
    match value vars l with
    | none => none
    | some x =>
      match value vars r with
      | none => none
      | some y => binaryValue x y op
  | _ => none

/-! ### Statements -/

/-- The variables, the input that is left and the output so far. -/
structure State where
  vars : String → Int32
  input : List UInt8
  output : Array UInt8

inductive Outcome where
  | next (s : State)
  | returned (s : State)
  | divided (s : State)

namespace State

def assign (s : State) (name : String) (v : Int32) : State :=
  { s with vars := fun x => if x = name then v else s.vars x }

def print (s : State) (v : Int32) : State :=
  { s with output := s.output ++ (Text.textBytes (Text.decimal v.toInt) ++ [10]) }

/-- The number on the first line of some input: what a buffer of 20 bytes keeps of the line, up to
its first zero byte. -/
def numberOnLine (input : List UInt8) : Int32 :=
  Machine.numberIn
    (((Machine.chomp (Machine.splitLine input).1).take 19).takeWhile (· != 0))

def read (s : State) (name : String) : State :=
  { s.assign name (numberOnLine s.input) with input := (Machine.splitLine s.input).2 }

end State

def targetName : Expr → String
  | .var name _ => name
  | _ => ""

def assigned (name : String) (e : Expr) (s : State) : Outcome :=
  match value s.vars e with
  | none => .divided s
  | some v => .next (s.assign name v)

mutual

/-- Carries out a statement; none if the bound is too small. A declaration without a value does
nothing. -/
def exec : Nat → Stmt → State → Option Outcome
  | 0, _, _ => none
  | _ + 1, .declare d init, s =>
    if init.isMissing then some (.next s) else some (assigned d.name init s)
  | _ + 1, .assign target e, s => some (assigned (targetName target) e s)
  | bound + 1, .when cond body, s =>
    match value s.vars cond with
    | none => some (.divided s)
    | some c => if c = 0 then some (.next s) else execAll bound body s
  | bound + 1, .branch cond yes no, s =>
    match value s.vars cond with
    | none => some (.divided s)
    | some c => if c = 0 then execAll bound no s else execAll bound yes s
  | bound + 1, .loop cond body, s =>
    match value s.vars cond with
    | none => some (.divided s)
    | some c =>
      if c = 0 then some (.next s)
      else
        match execAll bound body s with
        | some (.next s') => exec bound (.loop cond body) s'
        | other => other
  | _ + 1, .write e, s =>
    match value s.vars e with
    | none => some (.divided s)
    | some v => some (.next (s.print v))
  | _ + 1, .read target, s => some (.next (s.read (targetName target)))
  | _ + 1, .ret _, s => some (.returned s)
  | _ + 1, .call _, s => some (.next s)

def execAll : Nat → List Stmt → State → Option Outcome
  | _, [], s => some (.next s)
  | 0, _ :: _, _ => none
  | bound + 1, st :: sts, s =>
    match exec bound st s with
    | some (.next s') => execAll bound sts s'
    | other => other

end

/-- All variables are zero and nothing is printed yet. -/
def start (input : List UInt8) : State := ⟨fun _ => 0, input, #[]⟩

/-- The function ends, at its end or at a return, with the given output. -/
def Ends (f : Function) (input : List UInt8) (output : Array UInt8) : Prop :=
  ∃ bound s, s.output = output ∧ (execAll bound f.body (start input) = some (.next s)
    ∨ execAll bound f.body (start input) = some (.returned s))

def Divides (f : Function) (input : List UInt8) (output : Array UInt8) : Prop :=
  ∃ bound s, s.output = output ∧ execAll bound f.body (start input) = some (.divided s)

def outputWithin (bound : Nat) (f : Function) (input : List UInt8) : Option (Array UInt8) :=
  match execAll bound f.body (start input) with
  | some (.next s) => some s.output
  | some (.returned s) => some s.output
  | _ => none

theorem ends_of_outputWithin {bound : Nat} {f : Function} {input : List UInt8}
    {output : Array UInt8} (h : outputWithin bound f input = some output) : Ends f input output := by
  unfold outputWithin at h
  split at h
  · rename_i s hs
    exact ⟨bound, s, Option.some.inj h, .inl hs⟩
  · rename_i s hs
    exact ⟨bound, s, Option.some.inj h, .inr hs⟩
  · cases h

end MoonBackend.Integer
