import MoonBackend.Symbols.Entry

/-!
# Scopes

The entries of one class or function, in the order in which they were added. A name is declared
once, and a node backs at most one unnamed entry of each kind. An operation that faults leaves the
scope as it was.
-/

namespace MoonBackend

open Text

inductive Owner where
  | global
  | classDecl
  | function
  | constructor
  deriving DecidableEq

namespace Owner

def all : List Owner := [.global, .classDecl, .function, .constructor]

def text : Owner → String
  | .global => "global"
  | .classDecl => "class"
  | .function => "function"
  | .constructor => "constructor"

end Owner

inductive ScopeId where
  | global
  | ofClass (index : Nat)
  | ofFunction (index : Nat)
  deriving DecidableEq

/-- The entries of a class or a function and how they are laid out. -/
structure Scope where
  name : String
  owner : Owner
  parent : Option ScopeId
  /-- The declaration that the scope belongs to. -/
  backing : Backing
  entries : List Entry := []
  base : Int64 := 0
  size : Option Int64 := none
  placed : Bool := false

namespace Scope

def lookup (s : Scope) (name : String) : Option Entry :=
  if name == "" then none else s.entries.find? (·.name == name)

/-- Whether an entry is the unnamed one of the given kind that backs the node. -/
def backs (key : Backing.Key) (kind : EntryKind) (e : Entry) : Bool :=
  e.name == "" && e.kind == kind && (e.backing.map Backing.key) == some key

def slot (s : Scope) (key : Backing.Key) (kind : EntryKind) : Option Entry :=
  s.entries.find? (backs key kind)

def first (s : Scope) (kind : EntryKind) : Option Entry := s.entries.find? (·.kind == kind)

def storage (s : Scope) : List Entry := s.entries.filter (·.kind.isStorage)

def params (s : Scope) : List Entry := s.entries.filter (·.kind == .parameter)

def add (s : Scope) (e : Entry) : Except Fault Scope :=
  if e.name != "" then
    if (s.lookup e.name).isSome then .error (.declaredTwice e.name s.name)
    else .ok { s with entries := s.entries ++ [e] }
  else
    match e.backing with
    | none => .error (.noBackingNode e.kind.text)
    | some node =>
      if (s.slot node.key e.kind).isSome then
        .error (.synthesizedTwice e.kind.text node.text s.name)
      else .ok { s with entries := s.entries ++ [e] }

theorem entries_add {s s' : Scope} {e : Entry} (h : s.add e = .ok s') :
    s' = { s with entries := s.entries ++ [e] } := by
  unfold add at h
  repeat' split at h
  all_goals simp_all

def synthesize (s : Scope) (kind : EntryKind) (type : Ty) (node : Option Backing) :
    Except Fault Scope :=
  s.add (.backed kind type node)

def modifyEntry (s : Scope) (i : Nat) (f : Entry → Except Fault Entry) : Except Fault Scope :=
  match s.entries[i]? with
  | none => .ok s
  | some e => (f e).map fun e' => { s with entries := s.entries.set i e' }

def setSize (s : Scope) (n : Int64) : Except Fault Scope :=
  if s.size.isSome then .error (.scopeSizeSetTwice s.name)
  else .ok { s with size := sizeOfWord n }

/-- Records where the scope's own entries start, once. -/
def place (s : Scope) (base : Int64) : Except Fault Scope :=
  if s.placed then .error (.scopePlacedTwice s.name)
  else .ok { s with base := base, placed := true }

def numberText : Option Int64 → String
  | some n => decimal n.toInt
  | none => "?"

def entryLine (e : Entry) : String :=
  "  " ++ padRight 8 e.kind.text ++ " " ++ padRight 28 e.label ++ " Offset: "
    ++ padLeft 4 (numberText e.offset) ++ " (Size: " ++ numberText e.size ++ ", Type: "
    ++ e.type.text ++ ")\n"

def dump (s : Scope) : String :=
  s.owner.text ++ " " ++ s.name ++ " (Size: " ++ numberText s.size ++ ", Base: "
    ++ decimal s.base.toInt ++ ")\n" ++ String.join (s.entries.map entryLine)

end Scope

end MoonBackend
