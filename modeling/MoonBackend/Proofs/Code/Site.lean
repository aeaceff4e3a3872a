import Mathlib
import MoonBackend.Assembly.Operand
import MoonBackend.Emit.Line
import MoonBackend.Machine.Library

/-!
# Code in its place

A `Site` is what surrounds a piece of emitted code once it is loaded: the image, the library and the
addresses of names. `Site.Holds` says that lines stand at an address of the image, instruction by
instruction, and that every label among them names the address of its line.
-/

namespace MoonBackend

def Register.index? (r : Register) : Option UInt8 :=
  if 0 ≤ r.number ∧ r.number < 16 then some r.number.toNatClampNeg.toUInt8 else none

/-- The word of a written operand: a number that fits in 16 bits, signed or unsigned, or the address
of a name. -/
def Operand.value? (names : Assembly.Names) : Operand → Option Int32
  | .number n => if -32768 ≤ n ∧ n ≤ 65535 then some n.toInt32 else none
  | .name s => names.address? s

def Instruction.encode? (names : Assembly.Names) (i : Instruction Register Operand) :
    Option MachineInstruction :=
  match i.ri.index?, i.rj.index?, i.rk.index?, i.k.value? names with
  | some ri, some rj, some rk, some k => some ⟨i.op, ri, rj, rk, k⟩
  | _, _, _, _ => none

theorem Instruction.encode?_eq_some {names : Assembly.Names} {i : Instruction Register Operand}
    {mi : MachineInstruction} (h : i.encode? names = some mi) :
    mi.op = i.op ∧ i.ri.index? = some mi.ri ∧ i.rj.index? = some mi.rj
      ∧ i.rk.index? = some mi.rk ∧ i.k.value? names = some mi.k := by
  unfold Instruction.encode? at h
  split at h
  · rename_i ri rj rk k h1 h2 h3 h4
    have he := Option.some.inj h
    subst he
    exact ⟨rfl, h1, h2, h3, h4⟩
  · cases h

def Item.size : Item → Nat
  | .instruction _ => 4
  | .entry => 0
  | .reserve n => n.toNatClampNeg

@[simp]
theorem Item.size_reg3 (op : Opcode) (ri rj rk : Register) : (Item.reg3 op ri rj rk).size = 4 :=
  rfl

@[simp]
theorem Item.size_imm (op : Opcode) (ri rj : Register) (n : Int64) :
    (Item.imm op ri rj n).size = 4 := rfl

@[simp]
theorem Item.size_named (op : Opcode) (ri rj : Register) (name : String) :
    (Item.named op ri rj name).size = 4 := rfl

@[simp] theorem Item.size_reg1 (op : Opcode) (ri : Register) : (Item.reg1 op ri).size = 4 := rfl

@[simp] theorem Item.size_bare (op : Opcode) : (Item.bare op).size = 4 := rfl

@[simp]
theorem Item.size_lw (r : Register) (off : Int64) (base : Register) :
    (Item.lw r off base).size = 4 := rfl

@[simp]
theorem Item.size_sw (off : Int64) (base r : Register) : (Item.sw off base r).size = 4 := rfl

@[simp] theorem Item.size_sl (r : Register) (n : Int64) : (Item.sl r n).size = 4 := rfl

@[simp] theorem Item.size_bz (r : Register) (label : String) : (Item.bz r label).size = 4 := rfl

@[simp] theorem Item.size_bnz (r : Register) (label : String) : (Item.bnz r label).size = 4 := rfl

@[simp] theorem Item.size_j (label : String) : (Item.j label).size = 4 := rfl

@[simp] theorem Item.size_jl (r : Register) (label : String) : (Item.jl r label).size = 4 := rfl

def Line.size : Line → Nat
  | .blank => 0
  | .comment _ => 0
  | .plain item => item.size
  | .labeled _ item => item.size

def Code.size (c : Code) : Nat := (c.map Line.size).sum

@[simp] theorem Code.size_nil : Code.size [] = 0 := rfl

@[simp]
theorem Code.size_cons (l : Line) (c : Code) : Code.size (l :: c) = l.size + Code.size c := by
  simp [Code.size]

@[simp]
theorem Code.size_append (c d : Code) : Code.size (c ++ d) = Code.size c + Code.size d := by
  simp [Code.size]

/-- What surrounds loaded code. -/
structure Site where
  image : Image
  runtime : Runtime
  names : Assembly.Names

namespace Site

/-- The item stands at an address: its instruction is fetched there and no library routine. -/
def HoldsItem (site : Site) (a : Nat) : Item → Prop
  | .instruction i =>
    site.runtime.routine? (Int32.ofNat a) = none
      ∧ ∃ mi, i.encode? site.names = some mi ∧ site.image.code[Int32.ofNat a]? = some mi
  | .entry => True
  | .reserve _ => True

def HoldsLine (site : Site) (a : Nat) : Line → Prop
  | .blank => True
  | .comment _ => True
  | .plain item => site.HoldsItem a item
  | .labeled label item => site.names.address? label = some (Int32.ofNat a) ∧ site.HoldsItem a item

/-- The lines stand one after the other from an address onwards. -/
def Holds (site : Site) : Nat → Code → Prop
  | _, [] => True
  | a, l :: c => site.HoldsLine a l ∧ site.Holds (a + l.size) c

theorem Holds.exists_line {site : Site} {a : Nat} {c : Code} (h : site.Holds a c) {l : Line}
    (hl : l ∈ c) : ∃ b, site.HoldsLine b l := by
  induction c generalizing a with
  | nil => cases hl
  | cons l' c ih =>
    rcases List.mem_cons.1 hl with rfl | hl
    · exact ⟨a, h.1⟩
    · exact ih h.2 hl

@[simp] theorem holds_nil (site : Site) (a : Nat) : site.Holds a [] = True := rfl

@[simp]
theorem holds_append (site : Site) (a : Nat) (c d : Code) :
    site.Holds a (c ++ d) ↔ site.Holds a c ∧ site.Holds (a + Code.size c) d := by
  induction c generalizing a with
  | nil => simp
  | cons l c ih =>
    have ha : a + (l.size + Code.size c) = a + l.size + Code.size c := by omega
    simp only [List.cons_append, Holds, ih, Code.size_cons, ha]
    exact and_assoc.symm

@[simp]
theorem holds_blank (site : Site) (a : Nat) (c : Code) :
    site.Holds a (.blank :: c) ↔ site.Holds a c := by simp [Holds, HoldsLine, Line.size]

@[simp]
theorem holds_comment (site : Site) (a : Nat) (s : String) (c : Code) :
    site.Holds a (.comment s :: c) ↔ site.Holds a c := by simp [Holds, HoldsLine, Line.size]

@[simp]
theorem holds_plain (site : Site) (a : Nat) (item : Item) (c : Code) :
    site.Holds a (.plain item :: c) ↔ site.HoldsItem a item ∧ site.Holds (a + item.size) c := by
  simp [Holds, HoldsLine, Line.size]

@[simp]
theorem holds_labeled (site : Site) (a : Nat) (label : String) (item : Item) (c : Code) :
    site.Holds a (.labeled label item :: c) ↔
      (site.names.address? label = some (Int32.ofNat a) ∧ site.HoldsItem a item)
        ∧ site.Holds (a + item.size) c := by
  simp [Holds, HoldsLine, Line.size]

end Site

end MoonBackend
