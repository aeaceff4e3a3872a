import MoonBackend.Yaml.Scalar

/-!
# Reading values out of a document

A value of the wrong shape is a *problem*: it is noted, the value is passed over, and the reading
goes on. Any other error stops the reading at once. Null leaves a field as it was, and a null
element of a list falls away.
-/

namespace MoonBackend.Yaml

/-- A reading that may note a problem, the state, and may stop with an error. -/
abbrev Reading (ε : Type) := StateT Bool (Except ε)

namespace Reading

variable {ε α σ : Type}

def problem : Reading ε Unit := set true

/-- Runs a reading on its own: a result counts only if no problem came up on the way. -/
def isolated (r : Reading ε α) : Reading ε (Option α) := do
  let outer ← get
  set false
  let a ← r
  let inner ← get
  set (outer || inner)
  return if inner then none else some a

def finish (r : Reading ε α) : Except ε (α × Bool) := r.run false

end Reading

namespace Node

variable {ε α σ : Type}

def isNull : Node → Bool
  | .scalar isQuoted text => !isQuoted && isNullWord text
  | _ => false

def scalarText : Node → String
  | .scalar _ text => text
  | _ => ""

def sameKey : Node → Node → Bool
  | .scalar _ s, .scalar _ t => s == t
  | .sequence _, .sequence _ => true
  | .mapping _ _, .mapping _ _ => true
  | _, _ => false

def repeatsKey : List (Node × Node) → Bool
  | [] => false
  | (k, _) :: entries => entries.any (fun e => sameKey k e.1) || repeatsKey entries

/-- Reads the entries of a mapping in order. A null key is passed over, a key that is no scalar is a
problem. -/
def readEntries (field : String → Node → σ → Reading ε σ) :
    List (Node × Node) → σ → Reading ε σ
  | [], s => return s
  | (key, value) :: entries, s => do
    match key with
    | .scalar _ text =>
      if key.isNull then readEntries field entries s
      else do
        let s' ← field text value s
        readEntries field entries s'
    | _ =>
      Reading.problem
      readEntries field entries s

/-- Reads a record from a mapping, whose fields change the record one after the other. -/
def readRecord (n : Node) (init : σ) (field : String → Node → σ → Reading ε σ) :
    Reading ε (Option σ) :=
  match n with
  | .mapping _ entries =>
    if repeatsKey entries then do
      Reading.problem
      return none
    else some <$> readEntries field entries init
  | _ =>
    if n.isNull then return none
    else do
      Reading.problem
      return none

def readInto (n : Node) (old : σ) (field : String → Node → σ → Reading ε σ) : Reading ε σ :=
  return (← n.readRecord old field).getD old

def readString (n : Node) (old : String) : Reading ε String :=
  match n with
  | .scalar _ text => return if n.isNull then old else text
  | _ => do
    Reading.problem
    return old

def readInt (n : Node) (old : Int64) : Reading ε Int64 :=
  if n.isNull then return old
  else
    match n with
    | .scalar false text =>
      match wordOf? text with
      | some v => return v
      | none => do
        Reading.problem
        return old
    | _ => do
      Reading.problem
      return old

def readBool (n : Node) (old : Bool) : Reading ε Bool :=
  if n.isNull then return old
  else
    match n with
    | .scalar isQuoted text =>
      match boolOf? isQuoted text with
      | some v => return v
      | none => do
        Reading.problem
        return old
    | _ => do
      Reading.problem
      return old

/-- Reads items one after the other and keeps those that have a value. -/
def readItems (item : Node → Reading ε (Option α)) : List α → List Node → Reading ε (List α)
  | done, [] => return done.reverse
  | done, n :: ns => do
    match ← item n with
    | some a => readItems item (a :: done) ns
    | none => readItems item done ns

def readList (n : Node) (old : List α) (item : Node → Reading ε (Option α)) :
    Reading ε (List α) :=
  match n with
  | .sequence items => readItems item [] items
  | _ =>
    if n.isNull then return []
    else do
      Reading.problem
      return old

def stringItem (n : Node) : Reading ε (Option String) :=
  if n.isNull then return none
  else
    match n with
    | .scalar _ text => return some text
    | _ => do
      Reading.problem
      return none

def intItem (n : Node) : Reading ε (Option Int64) := do
  if n.isNull then return none
  else
    let v ← Reading.isolated (n.readInt 0)
    return v

end Node

end MoonBackend.Yaml
