import MoonBackend.Layout.Place
import MoonBackend.Log

/-!
# The layout of a program

Resolving a layout supplies the unnamed slots, sizes classes and frames on a list of pending scopes
until none is left, and then assigns every offset once (section 4.1 of the specification). A fault
leaves the layout as far as it had come.
-/

namespace MoonBackend

structure Layout where
  table : Table
  sizes : Sizes
  entryName : String
  resolved : Bool := false
  /-- How many times the pending scopes were gone through. -/
  passes : Nat := 0
  /-- How many classes were laid out. -/
  classLayouts : Nat := 0
  log : List LogRecord := []

/-- Steps that may fault and leave what they did before. -/
abbrev Resolving := ExceptT Fault (StateM Layout)

namespace Layout

def ofTable (t : Table) (c : Config) : Layout :=
  { table := t, sizes := c.sizes, entryName := c.emit.entryFunction }

def report (message : String) (attributes : List (String × LogValue)) : Resolving Unit :=
  modify fun l => { l with log := l.log ++ [.debug "layout" message attributes] }

/-- Works on one scope; what was done to it stays, also when the work faults. -/
def onScope {α : Type} (id : ScopeId) (absent : α) (work : Table → Scope → Except Fault α × Scope) :
    Resolving α := do
  let l ← get
  match l.table.scope? id with
  | none => return absent
  | some s =>
    match work l.table s with
    | (result, s) =>
      set { l with table := l.table.setScope id s }
      ExceptT.mk (pure result)

/-- Adds unnamed slots to a scope, up to the first that is refused. -/
def supply : List Demand → Scope → Except Fault Unit × Scope
  | [], s => (.ok (), s)
  | d :: ds, s =>
    match s.synthesize d.kind d.type (some d.node) with
    | .error f => (.error f, s)
    | .ok s => supply ds s

def supplyFunction (i : Nat) : Resolving Unit := do
  let l ← get
  match l.table.program.functions[i]? with
  | none => return ()
  | some f =>
    let demands := Demand.ofFunction l.table l.entryName i f
    onScope (.ofFunction i) () fun _ s => supply demands s

/-- Goes through the pending scopes once and keeps those that are not finished. -/
def sizePending : List ScopeId → Resolving (List ScopeId)
  | [] => return []
  | id :: ids => do
    let sizes := (← get).sizes
    let finished ← onScope id true fun t s => t.sizeScope sizes s
    let rest ← sizePending ids
    return if finished then rest else id :: rest

/-- Goes through the pending scopes until none is left. A pass that finishes nothing is a fault. -/
def sizeAll (pending : List ScopeId) : Resolving Unit := do
  if pending.isEmpty then return ()
  modify fun l => { l with passes := l.passes + 1 }
  let next ← sizePending pending
  let l ← get
  report "layout pass"
    [("pass", .number l.passes), ("pending", .number pending.length),
      ("resolved", .number ((pending.length : Int) - next.length))]
  if _h : next.length < pending.length then
    sizeAll next
  else
    throw (.neverResolved (next.map l.table.scopeName))
termination_by pending.length

def sizedScopes (t : Table) : List ScopeId :=
  (List.range t.classes.length).map .ofClass ++ (List.range t.functions.length).map .ofFunction

/-- Lays out a class after its bases, unless that is done. -/
def placeClass : Nat → Nat → Resolving Unit
  | 0, _ => return ()
  | depth + 1, i => do
    let t := (← get).table
    match t.classes[i]? with
    | none => return ()
    | some s =>
      if s.placed then return ()
      ((t.baseNames s).filterMap t.classIndex?).forM (placeClass depth)
      let base := t.ownBase s
      onScope (.ofClass i) () fun _ s => s.layOut base
      modify fun l => { l with classLayouts := l.classLayouts + 1 }
      report "class layout"
        [("class", .text s.name), ("size", .number (wordOfSize s.size).toInt),
          ("base", .number base.toInt)]

def placeFunction (i : Nat) : Resolving Unit := do
  onScope (.ofFunction i) () fun _ s => s.layOut 0
  match (← get).table.functions[i]? with
  | none => return ()
  | some s =>
    report "frame"
      [("function", .text s.name), ("size", .number (wordOfSize s.size).toInt),
        ("entries", .number s.storage.length)]

def resolveSteps : Resolving Unit := do
  let l ← get
  if l.resolved then throw .resolvedTwice
  let functions := List.range l.table.functions.length
  functions.forM supplyFunction
  sizeAll (sizedScopes l.table)
  (List.range l.table.classes.length).forM (placeClass l.table.depth)
  functions.forM placeFunction
  modify fun l => { l with resolved := true }

/-- Resolves a layout. What was done before a fault stays in the layout. -/
def resolve (l : Layout) : Except Fault Unit × Layout := resolveSteps.run l

/-- The size of a type, none while that of its class is open. -/
def sizeOf (l : Layout) (type : Ty) : Except Fault (Option Int64) := l.table.sizeOf l.sizes type

end Layout

namespace Scope

def frameSize (s : Scope) : Except Fault Int64 :=
  match s.size with
  | some n => .ok n
  | none => .error (.frameNotResolved s.name)

def requireSlot (s : Scope) (node : Backing) (kind : EntryKind) : Except Fault Entry :=
  match s.slot node.key kind with
  | some e => .ok e
  | none => .error (.noSlot kind.text node.text s.name)

end Scope

end MoonBackend
