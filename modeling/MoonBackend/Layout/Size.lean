import MoonBackend.Config.Basic
import MoonBackend.Layout.Demand

/-!
# Sizes

The size of a type is that of its element times its dimensions, the size of a class that of its
bases and its members, the size of a frame that of its entries. A class whose size is still open
leaves everything that holds it open (section 4.1 of the specification). The number -1 marks an open
size, also where arithmetic arrives at it.
-/

namespace MoonBackend

/-- Applies a step to one element after the other, up to the first that is refused; what was done
before stays. -/
def advance {α ε : Type} (step : α → Except ε α) : List α → Except ε Unit × List α
  | [] => (.ok (), [])
  | a :: as =>
    match step a with
    | .error f => (.error f, a :: as)
    | .ok a' =>
      match advance step as with
      | (result, as') => (result, a' :: as')

namespace Ty

/-- A size multiplied by dimensions, all of which must be positive. -/
def scale (t : Ty) : List Int64 → Int64 → Except Fault Int64
  | [], n => .ok n
  | d :: ds, n => if 0 < d then scale t ds (n * d) else .error (.badDimension d t)

end Ty

namespace Table

def elementSize (t : Table) (sizes : Sizes) (type : Ty) : Except Fault (Option Int64) :=
  match type.base with
  | .integer => .ok (some sizes.word)
  | .float => .ok (some sizes.float)
  | .boolean => .ok (some sizes.boolean)
  | .object name =>
    match t.class? name with
    | some s => .ok s.size
    | none => .error (.unknownClass name)
  | .void => .error (.noSize type)

def sizeOf (t : Table) (sizes : Sizes) (type : Ty) : Except Fault (Option Int64) := do
  match ← t.elementSize sizes type with
  | none => return none
  | some n => return sizeOfWord (← type.scale type.dims n)

/-- The size of an entry: addresses take a word, everything else what its type takes. -/
def entrySize (t : Table) (sizes : Sizes) (e : Entry) : Except Fault (Option Int64) :=
  match e.kind with
  | .returnAddress | .reference => .ok (sizeOfWord sizes.word)
  | _ => t.sizeOf sizes e.type

/-- The entry with its size, if it takes space, has none yet and can be sized. -/
def sizeEntry (t : Table) (sizes : Sizes) (e : Entry) : Except Fault Entry :=
  if e.kind.isStorage && e.size.isNone then do
    match ← t.entrySize sizes e with
    | none => return e
    | some n => e.setSize n
  else .ok e

def basesSize (t : Table) (s : Scope) : Option Int64 :=
  (t.bases s).foldl (fun total b => do return (← total) + (← b.size)) (some 0)

end Table

namespace Scope

def entriesSize (s : Scope) : Option Int64 :=
  s.storage.foldl (fun total e => do return (← total) + (← e.size)) (some 0)

end Scope

namespace Table

/-- Sizes the entries of a scope that can be sized and, when none is left, the scope. The answer
says whether the scope is finished. A class waits for its bases before its entries are looked at. -/
def sizeScope (t : Table) (sizes : Sizes) (s : Scope) : Except Fault Bool × Scope :=
  match t.basesSize s with
  | none => (.ok false, s)
  | some below =>
    match advance (t.sizeEntry sizes) s.entries with
    | (.error f, entries) => (.error f, { s with entries := entries })
    | (.ok (), entries) =>
      let s := { s with entries := entries }
      match s.entriesSize with
      | none => (.ok false, s)
      | some own =>
        match s.setSize (below + own) with
        | .error f => (.error f, s)
        | .ok s => (.ok true, s)

end Table

end MoonBackend
