import MoonBackend.Layout.Size

/-!
# Offsets

Storage grows downwards: an entry of size `s` at offset `o` takes the bytes from `o` down to
`o - s + 1`, and the next entry starts at `o - s`. A class keeps its bases, in declared order, above
its own members. Sections 3 (memory convention) and 4.1 (offsets) of the specification.
-/

namespace MoonBackend

namespace Scope

/-- Gives every entry that takes space its offset, from `off` downwards, up to the first that is
refused. -/
def placeEntries : Int64 → List Entry → Except Fault Unit × List Entry
  | _, [] => (.ok (), [])
  | off, e :: es =>
    if e.kind.isStorage then
      match e.setOffset off with
      | .error f => (.error f, e :: es)
      | .ok e' =>
        match placeEntries (off - wordOfSize e.size) es with
        | (result, es') => (result, e' :: es')
    else
      match placeEntries off es with
      | (result, es') => (result, e :: es')

def layOut (s : Scope) (base : Int64) : Except Fault Unit × Scope :=
  match s.place base with
  | .error f => (.error f, s)
  | .ok s =>
    match placeEntries base s.entries with
    | (result, entries) => (result, { s with entries := entries })

end Scope

namespace Table

/-- Where the members of a class start: below all its bases. -/
def ownBase (t : Table) (s : Scope) : Int64 :=
  (t.bases s).foldl (fun pos b => pos - wordOfSize b.size) 0

def classWord (t : Table) (name : String) : Int64 :=
  wordOfSize ((t.class? name).bind Scope.size)

/-- Searches the bases of a class from the top of the object downwards. The answer is a position in
the object and what was found there. -/
def firstBelow {α : Type} (t : Table) (search : String → Except Fault (Option (Int64 × α))) :
    Int64 → List String → Except Fault (Option (Int64 × α))
  | _, [] => .ok none
  | pos, b :: bs =>
    match search b with
    | .error f => .error f
    | .ok (some (off, a)) => .ok (some (pos + off, a))
    | .ok none => t.firstBelow search (pos - t.classWord b) bs

def memberOffsetFrom (t : Table) : Nat → String → String → Except Fault (Option (Int64 × Located))
  | 0, _, _ => .ok none
  | depth + 1, className, name =>
    match t.classIndex? className with
    | none => .error (.unknownClass className)
    | some i =>
      match t.classes[i]? with
      | none => .error (.unknownClass className)
      | some s =>
        match (s.lookup name).filter (·.kind == .member) with
        | some e => e.getOffset.map fun off => some (off, ⟨.ofClass i, e⟩)
        | none => t.firstBelow (fun b => t.memberOffsetFrom depth b name) 0 (t.baseNames s)

def memberOffset (t : Table) (className name : String) : Except Fault (Int64 × Located) :=
  match t.memberOffsetFrom t.depth className name with
  | .error f => .error f
  | .ok (some found) => .ok found
  | .ok none => .error (.noMember className name)

def firstBaseBelow (t : Table) (search : String → Option Int64) :
    Int64 → List String → Option Int64
  | _, [] => none
  | pos, b :: bs =>
    match search b with
    | some off => some (pos + off)
    | none => t.firstBaseBelow search (pos - t.classWord b) bs

def baseOffsetFrom (t : Table) : Nat → String → String → Option Int64
  | 0, _, _ => none
  | depth + 1, derived, base =>
    if derived == base then some 0
    else
      match t.class? derived with
      | none => none
      | some s => t.firstBaseBelow (fun b => t.baseOffsetFrom depth b base) 0 (t.baseNames s)

/-- Where the part that belongs to a base starts inside an object. A class is its own base. -/
def baseOffset (t : Table) (derived base : String) : Except Fault Int64 :=
  match t.baseOffsetFrom (t.depth + 1) derived base with
  | some off => .ok off
  | none => .error (.notDerived derived base)

end Table

end MoonBackend
