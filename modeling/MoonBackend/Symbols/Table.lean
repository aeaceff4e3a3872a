import MoonBackend.Symbols.Scope

/-!
# The scope table of a program

One global scope, one scope for each class and one for each function, in declared order, and the
look-ups that follow the inheritance of classes: own members first, then the bases in order, depth
first.
-/

namespace MoonBackend

structure Table where
  program : Program
  global : Scope
  classes : List Scope
  functions : List Scope

structure Located where
  scope : ScopeId
  entry : Entry

namespace Table

def scope? (t : Table) : ScopeId → Option Scope
  | .global => some t.global
  | .ofClass i => t.classes[i]?
  | .ofFunction i => t.functions[i]?

def setScope (t : Table) (id : ScopeId) (s : Scope) : Table :=
  match id with
  | .global => { t with global := s }
  | .ofClass i => { t with classes := t.classes.set i s }
  | .ofFunction i => { t with functions := t.functions.set i s }

def scopeName (t : Table) (id : ScopeId) : String := ((t.scope? id).map Scope.name).getD ""

def classIndex? (t : Table) (name : String) : Option Nat :=
  t.classes.findIdx? (·.name == name)

def class? (t : Table) (name : String) : Option Scope := t.classes.find? (·.name == name)

def baseNames (t : Table) (s : Scope) : List String :=
  match s.backing with
  | .classDecl _ decl => decl.bases.filter fun b => (t.class? b).isSome
  | _ => []

def bases (t : Table) (s : Scope) : List Scope := (t.baseNames s).filterMap t.class?

/-- Searches a member from a class upwards. The depth bounds the length of a chain of bases. -/
def memberFrom (t : Table) : Nat → String → String → Option Located
  | 0, _, _ => none
  | depth + 1, className, name =>
    match t.classIndex? className with
    | none => none
    | some i =>
      match t.classes[i]? with
      | none => none
      | some s =>
        match (s.lookup name).filter (·.kind == .member) with
        | some e => some ⟨.ofClass i, e⟩
        | none => (t.baseNames s).findSome? fun b => t.memberFrom depth b name

/-- A chain of different classes is no longer than there are classes. -/
def depth (t : Table) : Nat := t.classes.length + 1

def member? (t : Table) (className name : String) : Option Located :=
  t.memberFrom t.depth className name

/-- What a bare name in a function stands for: a parameter or local variable, else a member of the
receiver. The flag says that it is a member. -/
def resolveName (t : Table) (function : Nat) (name : String) : Option (Located × Bool) :=
  match t.functions[function]? with
  | none => none
  | some fs =>
    match fs.lookup name with
    | some e => some (⟨.ofFunction function, e⟩, false)
    | none =>
      match fs.backing with
      | .function _ head =>
        if head.isMember then (t.member? head.className name).map fun l => (l, true) else none
      | _ => none

def functionsWhere (t : Table) (p : Signature → Bool) : List Nat :=
  (List.range t.program.functions.length).filter fun i =>
    (t.program.functions[i]?).any fun f => p f.toSignature

def methodsFrom (t : Table) : Nat → String → String → List Nat
  | 0, _, _ => []
  | depth + 1, className, name =>
    match t.class? className with
    | none => []
    | some s =>
      let own := t.functionsWhere fun f =>
        f.className == className && f.name == name && !f.isConstructor
      if own.isEmpty then
        ((t.baseNames s).findSome? fun b =>
          let found := t.methodsFrom depth b name
          if found.isEmpty then none else some found).getD []
      else own

/-- The methods of a name that a class sees: those of the nearest class that has any. -/
def methods (t : Table) (className name : String) : List Nat :=
  t.methodsFrom t.depth className name

def derivedFrom (t : Table) : Nat → String → String → Bool
  | 0, _, _ => false
  | depth + 1, className, base =>
    className == base ||
      match t.class? className with
      | none => false
      | some s =>
        match s.backing with
        | .classDecl _ decl => decl.bases.any fun b => t.derivedFrom depth b base
        | _ => false

/-- Whether a class is the base or has it among its ancestors. -/
def isDerivedFrom (t : Table) (className base : String) : Bool :=
  t.derivedFrom (t.depth + 1) className base

def dump (t : Table) : String :=
  String.join (t.classes.map Scope.dump) ++ String.join (t.functions.map Scope.dump)

end Table

end MoonBackend
