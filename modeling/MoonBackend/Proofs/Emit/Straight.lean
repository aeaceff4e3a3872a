import MoonBackend.Proofs.Emit.Shape
import MoonBackend.Proofs.Emit.Labels
import MoonBackend.Proofs.Symbols.Names

/-!
# Straight code

Most steps of emission answer instructions that go on to the next one: they are written down with a
number or with the address of the buffer, and they carry no label. Code that goes around, the sum of
floats for one, names labels of its own. Calls are told apart by the name that they jump to.
-/

namespace MoonBackend

open Text Code

/-! ### Calls of a body -/

mutual

/-- The functions that the calls of an expression mean, in the order of evaluation. -/
def Expr.callees : Expr → List Nat
  | .missing | .int _ | .float _ | .var _ _ => []
  | .dot left _ _ => left.callees
  | .index base indices _ => base.callees ++ Expr.calleesOf indices
  | .call recv _ args _ _ target => recv.callees ++ Expr.calleesOf args ++ target.toList
  | .unary _ operand _ => operand.callees
  | .binary _ left right _ => left.callees ++ right.callees

def Expr.calleesOf : List Expr → List Nat
  | [] => []
  | e :: es => e.callees ++ Expr.calleesOf es

end

mutual

def Stmt.callees : Stmt → List Nat
  | .declare _ e | .write e | .read e | .ret e | .call e => e.callees
  | .assign target value => target.callees ++ value.callees
  | .when cond body | .loop cond body => cond.callees ++ Stmt.calleesOf body
  | .branch cond yes no => cond.callees ++ Stmt.calleesOf yes ++ Stmt.calleesOf no

def Stmt.calleesOf : List Stmt → List Nat
  | [] => []
  | st :: sts => st.callees ++ Stmt.calleesOf sts

end

/-! ### Lines -/

def Opcode.isJump (op : Opcode) : Bool := op ∈ [Opcode.bz, .bnz, .j, .jl]

theorem Opcode.straight_of_form {op : Opcode}
    (h : op.form ∈ [Form.threeRegisters, .immediate, .oneRegister]) :
    op ∈ Opcode.all ∧ op.isJump = false := by
  cases op with
  | undefined code => exact absurd h (by simp [Opcode.form])
  | _ => first | exact ⟨by decide, by decide⟩ | exact absurd h (by decide)

/-- An instruction that goes on to the next one or to an address in a register, and whose operand
is a number or the address of the buffer. -/
def Item.Straight (buffer : String) : Item → Prop
  | .instruction i => i.op ∈ Opcode.all ∧ i.Canonical ∧ i.op.isJump = false
    ∧ ∀ s, i.k = .name s → i.op = .addi ∧ s = buffer
  | _ => False

/-- A straight instruction or a jump to one of the labels. -/
inductive Item.Steady (buffer : String) (labels : List String) : Item → Prop
  | straight {item : Item} : item.Straight buffer → item.Steady buffer labels
  | bz {r : Register} {label : String} : label ∈ labels → (Item.bz r label).Steady buffer labels
  | bnz {r : Register} {label : String} : label ∈ labels → (Item.bnz r label).Steady buffer labels
  | j {label : String} : label ∈ labels → (Item.j label).Steady buffer labels

/-- A line that stays in its function or calls another one. -/
def Line.Regular (buffer : String) (labels : List String) : Line → Prop
  | .blank => True
  | .comment s => OneLine s
  | .plain item | .labeled _ item => item.Steady buffer labels ∨ ∃ r tag, item = .jl r tag

def Item.link? : Item → Option String
  | .instruction ⟨.jl, _, _, _, .name s⟩ => some s
  | _ => none

def Code.links (c : Code) : List String := c.filterMap fun l => l.item?.bind Item.link?

@[simp] theorem Code.links_nil : links [] = [] := rfl

@[simp] theorem Code.links_append (c d : Code) : links (c ++ d) = links c ++ links d := by
  simp [links]

def Runtime.entries (rt : Runtime) : List String :=
  [rt.intToString, rt.printString, rt.readString, rt.stringToInt]

namespace Item

variable {buffer : String} {op : Opcode} {r ri rj rk : Register} {n : Int64}

@[simp] theorem straight_reg3 (h : op.form = .threeRegisters) :
    (Item.reg3 op ri rj rk).Straight buffer := by
  obtain ⟨hop, hjump⟩ := Opcode.straight_of_form (by rw [h]; decide)
  exact ⟨hop, by simp [Instruction.Canonical, h], hjump, by simp⟩

@[simp] theorem straight_imm (h : op.form = .immediate) : (Item.imm op ri rj n).Straight buffer := by
  obtain ⟨hop, hjump⟩ := Opcode.straight_of_form (by rw [h]; decide)
  exact ⟨hop, by simp [Instruction.Canonical, h], hjump, by simp⟩

@[simp] theorem straight_reg1 (h : op.form = .oneRegister) : (Item.reg1 op r).Straight buffer := by
  obtain ⟨hop, hjump⟩ := Opcode.straight_of_form (by rw [h]; decide)
  exact ⟨hop, by simp [Instruction.Canonical, h], hjump, by simp⟩

@[simp] theorem straight_named : (Item.named .addi ri rj buffer).Straight buffer :=
  ⟨(by decide : Opcode.addi ∈ Opcode.all), rfl, rfl,
    fun s hs => ⟨rfl, (Operand.name.inj hs).symm⟩⟩

@[simp] theorem straight_lw : (Item.lw r n rj).Straight buffer :=
  ⟨(by decide : Opcode.lw ∈ Opcode.all), rfl, rfl, by simp⟩

@[simp] theorem straight_sw : (Item.sw n rj r).Straight buffer :=
  ⟨(by decide : Opcode.sw ∈ Opcode.all), rfl, rfl, by simp⟩

@[simp] theorem straight_sl : (Item.sl r n).Straight buffer :=
  ⟨(by decide : Opcode.sl ∈ Opcode.all), ⟨rfl, rfl⟩, rfl, by simp⟩

@[simp] theorem straight_nop : (Item.bare .nop).Straight buffer :=
  ⟨(by decide : Opcode.nop ∈ Opcode.all), ⟨rfl, rfl, rfl, rfl⟩, rfl, by simp⟩

theorem Straight.link? {item : Item} (h : item.Straight buffer) : item.link? = none := by
  cases item with
  | instruction i =>
    obtain ⟨-, -, hjump, -⟩ := h
    obtain ⟨op, ri, rj, rk, k⟩ := i
    unfold Item.link?
    split
    · rename_i heq
      cases heq
      cases hjump
    · rfl
  | _ => exact h.elim

variable {labels : List String} {label : String}

@[simp] theorem steady_straight {item : Item} (h : item.Straight buffer) :
    item.Steady buffer labels := .straight h

@[simp] theorem steady_bz (h : label ∈ labels) : (Item.bz r label).Steady buffer labels := .bz h

@[simp] theorem steady_bnz (h : label ∈ labels) : (Item.bnz r label).Steady buffer labels := .bnz h

@[simp] theorem steady_j (h : label ∈ labels) : (Item.j label).Steady buffer labels := .j h

theorem Steady.link? {item : Item} (h : item.Steady buffer labels) : item.link? = none := by
  cases h with
  | straight h => exact h.link?
  | bz => rfl
  | bnz => rfl
  | j => rfl

end Item

namespace Emit

def Straight (c : Context) (code : Code) : Prop :=
  ∀ l ∈ code, ∃ item, l = .plain item ∧ item.Straight c.config.runtime.bufferLabel

def Steady (c : Context) (labels : List String) (code : Code) : Prop :=
  ∀ l ∈ code, ∃ item, l.item? = some item ∧ item.Steady c.config.runtime.bufferLabel labels

/-- The lines are regular, jumps lead to the given labels, and the calls that do not go to the
library are those of the given functions. -/
structure Regular (c : Context) (labels : List String) (targets : List Nat) (code : Code) : Prop where
  lines : ∀ l ∈ code, l.Regular c.config.runtime.bufferLabel labels
  links : (Code.links code).filter (· ∉ c.config.runtime.entries)
    = targets.map fun k => c.tags.getD k ""
  known : ∀ k ∈ targets, k < c.layout.table.program.functions.length

variable {c : Context} {labels : List String} {targets targets' : List Nat} {code code' : Code}

@[simp] theorem straight_nil : Straight c [] := fun _ h => by cases h

@[simp] theorem straight_plain {items : List Item} :
    Straight c (plain items) ↔ ∀ item ∈ items, item.Straight c.config.runtime.bufferLabel := by
  unfold Straight plain
  simp

@[simp] theorem straight_append :
    Straight c (code ++ code') ↔ Straight c code ∧ Straight c code' := List.forall_mem_append

@[simp] theorem steady_plain {items : List Item} : Steady c labels (plain items) ↔
    ∀ item ∈ items, item.Steady c.config.runtime.bufferLabel labels := by
  unfold Steady plain
  simp [Line.item?]

@[simp] theorem steady_append : Steady c labels (code ++ code') ↔
    Steady c labels code ∧ Steady c labels code' := List.forall_mem_append

@[simp] theorem steady_nil : Steady c labels [] := fun _ h => by cases h

@[simp] theorem steady_labeled {label : String} {item : Item} :
    Steady c labels (.labeled label item :: code) ↔
      item.Steady c.config.runtime.bufferLabel labels ∧ Steady c labels code := by
  unfold Steady
  simp [Line.item?]

@[simp] theorem steady_mark (label : String) :
    Steady c labels (mark label :: code) ↔ Steady c labels code := by
  simp [Code.mark]

theorem Straight.steady (h : Straight c code) : Steady c labels code := fun l hl => by
  obtain ⟨item, rfl, hitem⟩ := h l hl
  exact ⟨item, rfl, .straight hitem⟩

theorem Steady.regular (h : Steady c labels code) : Regular c labels [] code := by
  have hlinks : Code.links code = [] := by
    refine List.filterMap_eq_nil_iff.2 fun l hl => ?_
    obtain ⟨item, hl, hitem⟩ := h l hl
    rw [hl]
    exact hitem.link?
  refine ⟨fun l hl => ?_, by rw [hlinks]; rfl, by simp⟩
  obtain ⟨item, hl, hitem⟩ := h l hl
  cases l with
  | blank => trivial
  | comment => cases hl
  | plain => exact .inl (Option.some.inj hl ▸ hitem)
  | labeled => exact .inl (Option.some.inj hl ▸ hitem)

theorem Straight.regular (h : Straight c code) : Regular c labels [] code := h.steady.regular

namespace Regular

theorem nil : Regular c labels [] [] := ⟨by simp, rfl, by simp⟩

theorem append (h : Regular c labels targets code) (h' : Regular c labels targets' code') :
    Regular c labels (targets ++ targets') (code ++ code') := by
  refine ⟨List.forall_mem_append.2 ⟨h.lines, h'.lines⟩, ?_,
    List.forall_mem_append.2 ⟨h.known, h'.known⟩⟩
  rw [Code.links_append, List.filter_append, h.links, h'.links, List.map_append]

theorem link_cases (h : Regular c labels targets code) {s : String} (hs : s ∈ Code.links code) :
    s ∈ c.config.runtime.entries
      ∨ ∃ k ∈ targets, s = c.tags.getD k "" := by
  refine or_iff_not_imp_left.2 fun hentry => ?_
  have hmem : s ∈ (Code.links code).filter (· ∉ c.config.runtime.entries) :=
    List.mem_filter.2 ⟨hs, by simpa using hentry⟩
  rw [h.links] at hmem
  obtain ⟨k, hk, rfl⟩ := List.mem_map.1 hmem
  exact ⟨k, hk, rfl⟩

theorem before (h : Regular c labels [] code) (h' : Regular c labels targets code') :
    Regular c labels targets (code ++ code') := h.append h'

theorem after (h : Regular c labels targets code) (h' : Regular c labels [] code') :
    Regular c labels targets (code ++ code') := by
  have := h.append h'
  rwa [List.append_nil] at this

theorem note {text : String} (h : OneLine text) : Regular c labels [] (c.note text) := by
  unfold Context.note
  split
  · exact ⟨by simpa [Line.Regular] using h, rfl, by simp⟩
  · exact nil

theorem library {r : Register} {s : String} (h : s ∈ c.config.runtime.entries) :
    Regular c labels [] (plain [.jl r s]) := by
  refine ⟨by simp [plain, Line.Regular], ?_, by simp⟩
  simp [Code.links, plain, Line.item?, Item.link?, Item.jl, h]

theorem call {r : Register} {k : Nat} (h : c.tags.getD k "" ∉ c.config.runtime.entries)
    (hk : k < c.layout.table.program.functions.length) :
    Regular c labels [k] (plain [.jl r (c.tags.getD k "")]) := by
  refine ⟨by simp [plain, Line.Regular], ?_, by simpa using hk⟩
  simpa [Code.links, plain, Line.item?, Item.link?, Item.jl] using h

end Regular

/-! ### Straight code -/

section

variable {r : Register} {path : Path} {e : Expr}

theorem Constant.straight {v : Int64} (h : Constant c r v code) : Straight c code := by
  cases h <;> simp +decide

theorem Loads.straight {p : Place} {i : Int64} (h : Loads c r p i code) : Straight c code := by
  cases h with
  | immediate h => exact h.straight
  | slot => simp +decide

theorem straight_copyCode (word : Int64) (dst src : Location) (n : Int64) :
    Straight c (copyCode word r dst src n) := by
  simp only [copyCode, straight_plain, List.mem_flatMap]
  rintro item ⟨i, -, hi⟩
  simp only [List.mem_cons, List.not_mem_nil, or_false] at hi
  rcases hi with rfl | rfl <;> simp +decide

theorem Stores.straight {dst : Location} {p : Place} {n : Int64} (h : Stores c r dst p n code) :
    Straight c code := by
  cases h with
  | slot => exact straight_copyCode _ _ _ _
  | immediate h => simp +decide [h.straight]

theorem Accumulates.straight {held : List Register} {idx : Register}
    {later : List (Int64 × Path × Expr)} (h : Accumulates c held idx later code) :
    Straight c code := by
  induction h with
  | nil => simp +decide
  | cons _ _ _ hload _ ih => simp +decide [hload.straight, ih]

theorem StartsIndex.straight {idx : Register} {indices : List Expr}
    (h : StartsIndex c path idx indices code) : Straight c code := by
  cases h with
  | nil => simp +decide
  | cons _ hload => exact hload.straight

theorem Locates.straight {l : Location} (h : Locates c path e code l) : Straight c code := by
  induction h with
  | «variable» => simp +decide
  | member => simp +decide
  | value => simp +decide
  | dot _ _ ih => exact ih
  | index _ _ _ _ hfirst hrest ih => simp +decide [ih, hfirst.straight, hrest.straight]

theorem Materializes.straight (h : Materializes c path e code) : Straight c code := by
  obtain ⟨hloc, -, -, -, -⟩ := h
  exact straight_append.2 ⟨hloc.straight, straight_copyCode _ _ _ _⟩

theorem straight_unaryCode (zero : Register) (op : UnaryOp) : Straight c (unaryCode r zero op) := by
  cases op <;> simp +decide [unaryCode]

theorem Unary.straight {op : UnaryOp} {t : Ty} {src : Place} (h : Unary c path e op t src code) :
    Straight c code := by
  cases h with
  | float _ _ _ _ hm he =>
    simp only [straight_append, hm.straight, he.straight]
    split <;> simp +decide
  | integer _ _ _ hv => simp +decide [hv.straight, straight_unaryCode]

theorem straight_integerOperation (a b zero : Register) (op : BinaryOp) :
    Straight c (integerOperation a b zero op) := by
  cases op <;> simp +decide [integerOperation]

theorem Addresses.straight {l : Location} (h : Addresses c l code r) : Straight c code := by
  cases h with
  | held => split <;> simp +decide
  | free => simp +decide

theorem straight_adjust (off : Int64) : Straight c (adjust r off) := by
  unfold adjust
  split <;> simp +decide

theorem SavesReceiver.straight (h : SavesReceiver c path e code) : Straight c code := by
  cases h with
  | none => simp +decide
  | some _ _ hloc haddr => simp +decide [hloc.straight, haddr.straight]

theorem PassesArguments.straight {size : Int64} {args : List (Entry × Place)}
    (h : PassesArguments c size args code) : Straight c code := by
  induction h with
  | nil => simp +decide
  | cons _ _ _ hstore _ ih => exact straight_append.2 ⟨hstore.straight, ih⟩

section

variable {recv : Expr} {isNew : Bool} {callee : Signature}

theorem PassesReceiver.straight (h : PassesReceiver c path e recv isNew callee r code) :
    Straight c code := by
  cases h <;> simp +decide [straight_adjust]

theorem PlacesReceiver.straight {target : Nat} {scope : Scope} {size : Int64}
    (h : PlacesReceiver c path e recv isNew target callee scope size code) : Straight c code := by
  cases h with
  | free => simp +decide
  | member _ _ _ _ hpass => simp +decide [hpass.straight]

theorem FetchesResult.straight (h : FetchesResult c path e isNew callee code) : Straight c code := by
  cases h with
  | none => simp +decide
  | some => exact straight_copyCode _ _ _ _

end

theorem PrintsBytes.straight {bytes : List UInt8} (h : PrintsBytes c bytes code) :
    Straight c code := by
  obtain ⟨-⟩ := h
  simp only [straight_plain, List.mem_flatMap]
  rintro item ⟨b, -, hi⟩
  simp only [List.mem_cons, List.not_mem_nil, or_false] at hi
  rcases hi with rfl | rfl <;> simp +decide

theorem EndsLine.straight (h : EndsLine c code) : Straight c code := by
  cases h with
  | none => simp +decide
  | some h => exact h.straight

/-! ### Float sums -/

section

variable {dst src a t zero : Register}

theorem steady_swap (x y : Register) : Steady c labels (swap x y t zero) := by
  simp +decide [swap]

theorem steady_digitsCode {abs loop stop : String}
    (h : labelNames (digitsCode dst src a t zero abs loop stop) ⊆ labels) :
    Steady c labels (digitsCode dst src a t zero abs loop stop) := by
  simp [digitsCode, digitsLoop, Code.mark] at h
  simp +decide [digitsCode, digitsLoop, h]

theorem steady_widenCode {m width other : Register} {loop stop : String}
    (h : labelNames (widenCode m width other t loop stop) ⊆ labels) :
    Steady c labels (widenCode m width other t loop stop) := by
  simp [widenCode, Code.mark] at h
  simp +decide [widenCode, h]

theorem steady_trimCode {m count : Register} {trim trimmed : String}
    (h : labelNames (trimCode m count t trim trimmed) ⊆ labels) :
    Steady c labels (trimCode m count t trim trimmed) := by
  simp [trimCode, Code.mark] at h
  simp +decide [trimCode, h]

theorem steady_sumCode {f : FloatRegisters} {l : SumLabels} {slot word : Int64} {sp : Register}
    (h : labelNames (sumCode f l slot word sp zero) ⊆ labels) :
    Steady c labels (sumCode f l slot word sp zero) := by
  simp only [sumCode, orderCode, alignCode, addCode, zeroCode, storeCode, labelNames_append,
    List.append_subset] at h ⊢
  obtain ⟨⟨⟨⟨⟨⟨-, halign⟩, ⟨⟨⟨⟨hbig, hsmall⟩, -⟩, hwide⟩, hnarrow⟩⟩, -⟩, -⟩, -⟩,
    ⟨⟨⟨hnz, htrim⟩, hsum⟩, -⟩, hdone⟩ := h
  simp [Code.mark] at halign hnz hdone
  simp +decide [steady_swap, halign, hnz, hdone, steady_digitsCode hbig, steady_digitsCode hsmall,
    steady_widenCode hwide, steady_widenCode hnarrow, steady_trimCode htrim, steady_digitsCode hsum]

end

theorem PointsToResult.straight {returns : Ty} (h : PointsToResult c returns code) :
    Straight c code := by
  cases h <;> simp +decide

end

end Emit

end MoonBackend
