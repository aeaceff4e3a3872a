import MoonBackend.Fault
import MoonBackend.Tree.Program

/-!
# Entries of a scope

An entry is a row of a scope: something that takes space in a frame or an object, or a marker for
a class or a function. A declared entry has a name; an entry made up by the back end has none and
is known by the node that it backs. Sizes and offsets are written once. Section 3 of the specification.
-/

namespace MoonBackend

open Text

inductive EntryKind where
  | parameter
  | localVar
  | temporary
  | member
  | returnAddress
  | returnValue
  | reference
  | function
  | classDecl
  deriving DecidableEq

namespace EntryKind

def all : List EntryKind :=
  [.parameter, .localVar, .temporary, .member, .returnAddress, .returnValue, .reference,
    .function, .classDecl]

def text : EntryKind → String
  | .parameter => "param"
  | .localVar => "local"
  | .temporary => "temp"
  | .member => "member"
  | .returnAddress => "retaddr"
  | .returnValue => "retval"
  | .reference => "ref"
  | .function => "function"
  | .classDecl => "class"

def parse? (s : String) : Option EntryKind := all.find? (·.text == s)

/-- Markers for functions and classes take no space. -/
def isStorage : EntryKind → Bool
  | .function | .classDecl => false
  | _ => true

end EntryKind

/-- The place of a node in a function body: the child numbers on the way to it, the last first. -/
abbrev Path := List Nat

inductive Backing where
  | program (classes functions : Nat)
  | classDecl (index : Nat) (decl : ClassDecl)
  | function (index : Nat) (head : Signature)
  | localVar (path : Path) (decl : VarDecl)
  | expr (path : Path) (e : Expr)

namespace Backing

/-- What tells two nodes apart: which declaration they are, or where they stand. -/
inductive Key where
  | program
  | classDecl (index : Nat)
  | function (index : Nat)
  | localVar (path : Path)
  | expr (path : Path)
  deriving DecidableEq

def key : Backing → Key
  | .program _ _ => .program
  | .classDecl i _ => .classDecl i
  | .function i _ => .function i
  | .localVar path _ => .localVar path
  | .expr path _ => .expr path

def text : Backing → String
  | .program classes functions => Program.summary classes functions
  | .classDecl _ decl => decl.text
  | .function _ head => head.text
  | .localVar _ decl => decl.text
  | .expr _ e => e.text

end Backing

structure Entry where
  kind : EntryKind
  name : String
  type : Ty
  backing : Option Backing
  size : Option Int64 := none
  offset : Option Int64 := none

/-- The size that the number -1 stands for is an unknown one. -/
def sizeOfWord (n : Int64) : Option Int64 := if n == -1 then none else some n

/-- The number by which a size is shown, -1 for an unknown one. -/
def wordOfSize (size : Option Int64) : Int64 := size.getD (-1)

namespace Entry

def named (kind : EntryKind) (name : String) (type : Ty) : Entry :=
  ⟨kind, name, type, none, none, none⟩

def backed (kind : EntryKind) (type : Ty) (node : Option Backing) : Entry :=
  ⟨kind, "", type, node, none, none⟩

def label (e : Entry) : String :=
  if e.name != "" then e.name
  else
    match e.kind, e.backing with
    | .temporary, some b | .reference, some b => "<" ++ e.kind.text ++ " " ++ b.text ++ ">"
    | .function, some (.function _ head) => head.qualifiedName
    | _, _ => "<" ++ e.kind.text ++ ">"

def text (e : Entry) : String := e.kind.text ++ " " ++ e.label ++ ": " ++ e.type.text

/-- The entry with its size, which must be new and not negative. -/
def setSize (e : Entry) (n : Int64) : Except Fault Entry :=
  if e.size.isSome then .error (.sizeSetTwice e.text)
  else if n < 0 then .error (.negativeSize n e.text)
  else .ok { e with size := some n }

def getOffset (e : Entry) : Except Fault Int64 :=
  match e.offset with
  | some o => .ok o
  | none => .error (.offsetNotSet e.text)

/-- The entry with its offset, which must be new and come after the size. -/
def setOffset (e : Entry) (o : Int64) : Except Fault Entry :=
  if e.offset.isSome then .error (.offsetSetTwice e.text)
  else if e.size.isNone then .error (.offsetBeforeSize e.text)
  else .ok { e with offset := some o }

end Entry

end MoonBackend
