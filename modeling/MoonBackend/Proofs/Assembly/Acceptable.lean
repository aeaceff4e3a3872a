import MoonBackend.Proofs.Assembly.Image

/-!
# Lines that the assembler takes

A line is acceptable when it can be read back, names only what is there, takes whole words and does
not set the entry. Code of acceptable lines with different labels assembles; here are the conditions
for the shapes of lines that are emitted.
-/

namespace MoonBackend

open Text Assembly

/-- The line can be assembled among the given names and is not the entry. -/
structure Line.Acceptable (names : Names) (l : Line) : Prop where
  readable : l.Readable
  known : l.Known names
  whole : l.size % 4 = 0
  ordinary : l.item? ≠ some .entry

namespace Code

def Acceptable (names : Names) (c : Code) : Prop := ∀ l ∈ c, l.Acceptable names

theorem acceptable_nil {names : Names} : Acceptable names [] := fun _ h => by cases h

theorem acceptable_append {names : Names} {c d : Code} :
    Acceptable names (c ++ d) ↔ Acceptable names c ∧ Acceptable names d := by
  simp only [Acceptable, List.mem_append]
  constructor
  · intro h
    exact ⟨fun l hl => h l (.inl hl), fun l hl => h l (.inr hl)⟩
  · rintro ⟨h1, h2⟩ l (hl | hl)
    · exact h1 l hl
    · exact h2 l hl

theorem acceptable_cons {names : Names} {l : Line} {c : Code} :
    Acceptable names (l :: c) ↔ l.Acceptable names ∧ Acceptable names c := by
  simp [Acceptable]

theorem acceptable_comment {names : Names} {s : String} (h : '\n' ∉ s.toList) :
    Acceptable names [.comment s] := by
  rw [acceptable_cons]
  exact ⟨⟨h, by simp [Line.Known, Line.item?], rfl, by simp [Line.item?]⟩, acceptable_nil⟩

end Code

/-! ### Instructions -/

/-- The instruction has an encoding among the given names, and its open fields are at their
defaults. -/
structure Instruction.Proper (names : Names) (i : Instruction Register Operand) : Prop where
  op : i.op ∈ Opcode.all
  canonical : i.Canonical
  encoded : (i.encode? names).isSome = true

theorem Instruction.isSome_encode?_iff {names : Names} {i : Instruction Register Operand} :
    (i.encode? names).isSome = true ↔ i.ri.index?.isSome = true ∧ i.rj.index?.isSome = true
      ∧ i.rk.index?.isSome = true ∧ (i.k.value? names).isSome = true := by
  unfold Instruction.encode?
  cases i.ri.index? <;> cases i.rj.index? <;> cases i.rk.index? <;> cases i.k.value? names <;> simp

theorem Instruction.proper_iff {names : Names} {i : Instruction Register Operand} :
    i.Proper names ↔ i.op ∈ Opcode.all ∧ i.Canonical ∧ i.ri.index?.isSome = true
      ∧ i.rj.index?.isSome = true ∧ i.rk.index?.isSome = true
      ∧ (i.k.value? names).isSome = true := by
  constructor
  · rintro ⟨h1, h2, h3⟩
    exact ⟨h1, h2, Instruction.isSome_encode?_iff.1 h3⟩
  · rintro ⟨h1, h2, h3⟩
    exact ⟨h1, h2, Instruction.isSome_encode?_iff.2 h3⟩

def Item.Proper (names : Names) : Item → Prop
  | .instruction i => i.Proper names
  | _ => False

namespace Item

variable {names : Names}

theorem proper_reg3 {op : Opcode} {ri rj rk : Register} (hop : op ∈ Opcode.all)
    (hf : op.form = .threeRegisters) (hi : ri.index?.isSome = true) (hj : rj.index?.isSome = true)
    (hk : rk.index?.isSome = true) : (Item.reg3 op ri rj rk).Proper names := by
  refine Instruction.proper_iff.2 ⟨hop, ?_, hi, hj, hk, rfl⟩
  simp [Instruction.Canonical, hf]

theorem proper_imm {op : Opcode} {ri rj : Register} {n : Int64} (hop : op ∈ Opcode.all)
    (hf : op.form = .immediate) (hi : ri.index?.isSome = true) (hj : rj.index?.isSome = true)
    (hn : ((Operand.number n).value? names).isSome = true) : (Item.imm op ri rj n).Proper names := by
  refine Instruction.proper_iff.2 ⟨hop, ?_, hi, hj, rfl, hn⟩
  simp [Instruction.Canonical, hf]

theorem proper_named {ri rj : Register} {s : String} (hi : ri.index?.isSome = true)
    (hj : rj.index?.isSome = true) (hs : (names.address? s).isSome = true) :
    (Item.named .addi ri rj s).Proper names :=
  Instruction.proper_iff.2 ⟨(by decide : Opcode.addi ∈ Opcode.all), rfl, hi, hj, rfl, hs⟩

theorem proper_lw {r base : Register} {n : Int64} (hi : r.index?.isSome = true)
    (hj : base.index?.isSome = true) (hn : ((Operand.number n).value? names).isSome = true) :
    (Item.lw r n base).Proper names :=
  Instruction.proper_iff.2 ⟨(by decide : Opcode.lw ∈ Opcode.all), rfl, hi, hj, rfl, hn⟩

theorem proper_sw {r base : Register} {n : Int64} (hi : r.index?.isSome = true)
    (hj : base.index?.isSome = true) (hn : ((Operand.number n).value? names).isSome = true) :
    (Item.sw n base r).Proper names :=
  Instruction.proper_iff.2 ⟨(by decide : Opcode.sw ∈ Opcode.all), rfl, hi, hj, rfl, hn⟩

theorem proper_sl {r : Register} {n : Int64} (hi : r.index?.isSome = true)
    (hn : ((Operand.number n).value? names).isSome = true) : (Item.sl r n).Proper names :=
  Instruction.proper_iff.2 ⟨(by decide : Opcode.sl ∈ Opcode.all), ⟨rfl, rfl⟩, hi, rfl, rfl, hn⟩

theorem proper_bz {r : Register} {s : String} (hi : r.index?.isSome = true)
    (hs : (names.address? s).isSome = true) : (Item.bz r s).Proper names :=
  Instruction.proper_iff.2 ⟨(by decide : Opcode.bz ∈ Opcode.all), ⟨rfl, rfl⟩, hi, rfl, rfl, hs⟩

theorem proper_j {s : String} (hs : (names.address? s).isSome = true) : (Item.j s).Proper names :=
  Instruction.proper_iff.2 ⟨(by decide : Opcode.j ∈ Opcode.all), ⟨rfl, rfl, rfl⟩, rfl, rfl, rfl, hs⟩

theorem proper_jl {r : Register} {s : String} (hi : r.index?.isSome = true)
    (hs : (names.address? s).isSome = true) : (Item.jl r s).Proper names :=
  Instruction.proper_iff.2 ⟨(by decide : Opcode.jl ∈ Opcode.all), ⟨rfl, rfl⟩, hi, rfl, rfl, hs⟩

theorem proper_reg1 {op : Opcode} {r : Register} (hop : op ∈ Opcode.all)
    (hf : op.form = .oneRegister) (hi : r.index?.isSome = true) : (Item.reg1 op r).Proper names := by
  refine Instruction.proper_iff.2 ⟨hop, ?_, hi, rfl, rfl, rfl⟩
  simp [Instruction.Canonical, hf]

theorem proper_bare {op : Opcode} (hop : op ∈ Opcode.all) (hf : op.form = .none) :
    (Item.bare op).Proper names := by
  refine Instruction.proper_iff.2 ⟨hop, ?_, rfl, rfl, rfl, rfl⟩
  simp [Instruction.Canonical, hf]

end Item

namespace Code

variable {names : Names}

theorem readable_of_proper (hn : names.Proper) {i : Instruction Register Operand}
    (h : i.Proper names) : (Item.instruction i).Readable := by
  refine ⟨h.op, h.canonical, fun s hs => ?_⟩
  obtain ⟨mi, he⟩ := Option.isSome_iff_exists.1 h.encoded
  obtain ⟨-, -, -, -, hk⟩ := Instruction.encode?_eq_some he
  rw [hs] at hk
  exact hn s mi.k hk

theorem acceptable_plain (hn : names.Proper) {items : List Item}
    (h : ∀ item ∈ items, item.Proper names) : Acceptable names (plain items) := by
  intro l hl
  obtain ⟨item, hi, rfl⟩ := List.mem_map.1 hl
  cases item with
  | instruction i =>
    refine ⟨readable_of_proper hn (h _ hi), fun j hj => ?_, ?_, by simp [Line.item?]⟩
    · simp only [Line.item?, Option.some.injEq, Item.instruction.injEq] at hj
      subst hj
      exact (h _ hi).encoded
    · simp [Line.size, Item.size]
  | _ => exact absurd (h _ hi) (by simp [Item.Proper])

theorem acceptable_labeled (hn : names.Proper) {label : String} {item : Item}
    (hl : isIdentifier label.toList = true) (h : item.Proper names) :
    Acceptable names [.labeled label item] := by
  rw [acceptable_cons]
  refine ⟨?_, acceptable_nil⟩
  cases item with
  | instruction i =>
    refine ⟨⟨hl, readable_of_proper hn h⟩, fun j hj => ?_, ?_, by simp [Line.item?]⟩
    · simp only [Line.item?, Option.some.injEq, Item.instruction.injEq] at hj
      subst hj
      exact h.encoded
    · simp [Line.size, Item.size]
  | _ => exact absurd h (by simp [Item.Proper])

theorem value?_number {n : Int64} (h0 : -32768 ≤ n.toInt) (h1 : n.toInt ≤ 65535) :
    ((Operand.number n).value? names).isSome = true := by
  have hr : -32768 ≤ n ∧ n ≤ 65535 := by
    simp only [Int64.le_iff_toInt_le]
    exact ⟨h0, h1⟩
  simp [Operand.value?, hr]

/-! ### The labels of code -/

/-- The labels of lines, in their order. -/
def labelNames (c : Code) : List String := c.filterMap Line.label?

@[simp] theorem labelNames_nil : labelNames [] = [] := rfl

@[simp] theorem labelNames_append (c d : Code) :
    labelNames (c ++ d) = labelNames c ++ labelNames d := by simp [labelNames]

@[simp] theorem labelNames_plain (items : List Item) : labelNames (plain items) = [] := by
  induction items with
  | nil => rfl
  | cons item items ih => exact ih

@[simp] theorem labelNames_blank (c : Code) : labelNames (.blank :: c) = labelNames c := rfl

@[simp] theorem labelNames_comment (s : String) (c : Code) :
    labelNames (.comment s :: c) = labelNames c := rfl

@[simp] theorem labelNames_labeled (label : String) (item : Item) (c : Code) :
    labelNames (.labeled label item :: c) = label :: labelNames c := rfl

theorem map_fst_labelsFrom (a : Nat) (c : Code) : (labelsFrom a c).map Prod.fst = labelNames c := by
  induction c generalizing a with
  | nil => rfl
  | cons l c ih =>
    simp only [labelsFrom, List.map_append, ih, labelNames, List.filterMap_cons]
    cases l.label? with
    | none => rfl
    | some label => rfl

theorem names_proper_of_labels {c : Code} {symbols : List (String × Int32)}
    (hl : ∀ s ∈ labelNames c, isIdentifier s.toList = true)
    (hs : ∀ e ∈ symbols, isIdentifier e.1.toList = true) : (c.names symbols).Proper := by
  intro s k hk
  simp only [names, Names.address?, Option.or_eq_some_iff] at hk
  rcases hk with hk | ⟨-, hk⟩
  · refine hl s ?_
    rw [← map_fst_labelsFrom 0]
    exact List.mem_map.2 ⟨(s, k), List.mem_reverse.1 (mem_of_lookup hk), rfl⟩
  · exact hs (s, k) (mem_of_lookup hk)

theorem address?_of_not_mem {c : Code} {symbols : List (String × Int32)} {s : String}
    (h : s ∉ labelNames c) : (c.names symbols).address? s = symbols.lookup s := by
  have hnone : (labelsFrom 0 c).reverse.lookup s = none := by
    rw [← Option.not_isSome_iff_eq_none, lookup_isSome, List.map_reverse, map_fst_labelsFrom,
      List.mem_reverse]
    exact h
  simp [names, Names.address?, hnone]

theorem address?_isSome {c : Code} {symbols : List (String × Int32)} {s : String}
    (h : s ∈ labelNames c ∨ s ∈ symbols.map Prod.fst) :
    ((c.names symbols).address? s).isSome = true := by
  rw [Names.address?, Option.isSome_or, Bool.or_eq_true]
  rcases h with h | h
  · refine .inl (lookup_isSome.2 ?_)
    simp only [names, List.map_reverse, map_fst_labelsFrom, List.mem_reverse]
    exact h
  · exact .inr (lookup_isSome.2 h)

end Code

end MoonBackend
