import MoonBackend.Proofs.Code.Site
import MoonBackend.Proofs.Machine.Execution
import MoonBackend.Proofs.Machine.Memory

/-!
# Executing placed code

Registers read and written by their written names, the words that the operations compute, and one
execution lemma for each shape of item. Writing register 0 or a register that does not exist does
nothing here, as on the machine.
-/

namespace MoonBackend

def Register.Writable (r : Register) : Prop := 0 < r.number ∧ r.number < 16

instance (r : Register) : Decidable r.Writable := by unfold Register.Writable; infer_instance

namespace Machine

/-- The word in a register; a register that does not exist reads as zero. -/
def get (m : Machine) (r : Register) : Int32 := (r.index?.bind m.reg?).getD 0

def put (m : Machine) (r : Register) (v : Int32) (a : Nat) : Machine :=
  match r.index? with
  | some i => (m.setReg i v).goto (Int32.ofNat a)
  | none => m.goto (Int32.ofNat a)

def poke (m : Machine) (x : Int) (v : Int32) (a : Nat) : Machine :=
  { m with memory := m.memory.setWord x v, pc := Int32.ofNat a }

/-- The machine runs at a site and stands at an address. -/
structure On (m : Machine) (site : Site) (a : Nat) : Prop where
  image : m.image = site.image
  runtime : m.runtime = site.runtime
  running : m.halted = false
  pc : m.pc = Int32.ofNat a

/-! ### Registers -/

theorem index?_toNat {r : Register} {i : UInt8} (h : r.index? = some i) :
    r.number.toInt = i.toNat ∧ i.toNat < 16 := by
  unfold Register.index? at h
  split at h
  · rename_i hr
    have hi := Option.some.inj h
    have h0 : 0 ≤ r.number.toInt := by simpa [Int64.le_iff_toInt_le] using hr.1
    have h1 : r.number.toInt < 16 := by simpa [Int64.lt_iff_toInt_lt] using hr.2
    have hc : (r.number.toNatClampNeg : Int) = r.number.toInt := by
      rw [← Int64.toNat_toInt]
      omega
    have ht : i.toNat = r.number.toNatClampNeg := by
      rw [← hi]
      exact UInt8.toNat_ofNat_of_lt (by simp [UInt8.size]; omega)
    omega
  · cases h

theorem index?_inj {r q : Register} {i : UInt8} (hr : r.index? = some i) (hq : q.index? = some i) :
    r = q := by
  have h1 := index?_toNat hr
  have h2 := index?_toNat hq
  have hn : r.number = q.number := Int64.toInt_inj.1 (by omega)
  cases r
  cases q
  simpa using hn

theorem index?_of_writable {r : Register} (h : r.Writable) :
    ∃ i : UInt8, r.index? = some i ∧ i ≠ 0 ∧ i.toNat < 16 := by
  obtain ⟨h0, h1⟩ := h
  have h0' : 0 ≤ r.number := Int64.le_of_lt h0
  have hi : r.index? = some r.number.toNatClampNeg.toUInt8 := if_pos ⟨h0', h1⟩
  have ht := index?_toNat hi
  refine ⟨_, hi, ?_, ht.2⟩
  intro he
  rw [he] at ht
  have hz : 0 < r.number.toInt := by simpa [Int64.lt_iff_toInt_lt] using h0
  have := ht.1
  simp at this
  omega

theorem reg?_eq_get {m : Machine} {r : Register} {i : UInt8} (h : r.index? = some i) :
    m.reg? i = some (m.get r) := by
  have hlt := (index?_toNat h).2
  simp only [get, h, Option.bind_some, reg?]
  rw [Vector.getElem?_eq_getElem hlt]
  rfl

theorem reg?_setReg (m : Machine) (i j : UInt8) (v : Int32) (hi : i ≠ 0) (hlt : i.toNat < 16) :
    (m.setReg i v).reg? j = if i = j then some v else m.reg? j := by
  have hb : (i == 0) = false := by simpa using hi
  simp only [setReg, hb, Bool.false_eq_true, if_false, reg?, Vector.getElem?_setIfInBounds]
  by_cases hij : i = j
  · subst hij
    simp [hlt]
  · have hne : i.toNat ≠ j.toNat := fun h => hij (UInt8.toNat_inj.1 h)
    simp [hij, hne]

@[simp]
theorem get_put_self {m : Machine} {r : Register} {v : Int32} {a : Nat} (h : r.Writable) :
    (m.put r v a).get r = v := by
  obtain ⟨i, hi, hne, hlt⟩ := index?_of_writable h
  simp only [put, get, hi, Option.bind_some]
  have he := reg?_setReg m i i v hne hlt
  simp only [if_true] at he
  have hg : ((m.setReg i v).goto (Int32.ofNat a)).reg? i = (m.setReg i v).reg? i := rfl
  rw [hg, he]
  rfl

theorem get_put_of_ne {m : Machine} {r q : Register} {v : Int32} {a : Nat} (h : q ≠ r) :
    (m.put r v a).get q = m.get q := by
  cases hr : r.index? with
  | none => simp only [put, hr]; rfl
  | some i =>
    simp only [put, hr]
    cases hq : q.index? with
    | none => simp only [get, hq]; rfl
    | some j =>
      have hij : i ≠ j := by
        intro he
        subst he
        exact h (index?_inj hq hr)
      have hlt := (index?_toNat hr).2
      simp only [get, hq, Option.bind_some]
      have hg : ((m.setReg i v).goto (Int32.ofNat a)).reg? j = (m.setReg i v).reg? j := rfl
      rw [hg]
      by_cases hz : i = 0
      · subst hz
        rfl
      · rw [reg?_setReg m i j v hz hlt, if_neg hij]

@[simp] theorem get_goto (m : Machine) (pc : Int32) (r : Register) :
    (m.goto pc).get r = m.get r := rfl

@[simp] theorem get_poke (m : Machine) (x : Int) (v : Int32) (a : Nat) (r : Register) :
    (m.poke x v a).get r = m.get r := rfl

/-! ### What the updates leave alone -/

theorem setReg_eq (m : Machine) (i : UInt8) (v : Int32) :
    ∃ regs, m.setReg i v = { m with regs := regs } := by
  unfold setReg
  split
  · exact ⟨m.regs, rfl⟩
  · exact ⟨_, rfl⟩

theorem put_eq (m : Machine) (r : Register) (v : Int32) (a : Nat) :
    ∃ regs, m.put r v a = { m with regs := regs, pc := Int32.ofNat a } := by
  unfold put
  split
  · rename_i i hi
    obtain ⟨regs, hr⟩ := setReg_eq m i v
    exact ⟨regs, by rw [hr]; rfl⟩
  · exact ⟨m.regs, rfl⟩

@[simp] theorem memory_put (m : Machine) (r : Register) (v : Int32) (a : Nat) :
    (m.put r v a).memory = m.memory := by
  obtain ⟨regs, hr⟩ := put_eq m r v a
  rw [hr]

@[simp] theorem input_put (m : Machine) (r : Register) (v : Int32) (a : Nat) :
    (m.put r v a).input = m.input := by
  obtain ⟨regs, hr⟩ := put_eq m r v a
  rw [hr]

@[simp] theorem output_put (m : Machine) (r : Register) (v : Int32) (a : Nat) :
    (m.put r v a).output = m.output := by
  obtain ⟨regs, hr⟩ := put_eq m r v a
  rw [hr]

@[simp] theorem memory_poke (m : Machine) (x : Int) (v : Int32) (a : Nat) :
    (m.poke x v a).memory = m.memory.setWord x v := rfl

@[simp] theorem input_poke (m : Machine) (x : Int) (v : Int32) (a : Nat) :
    (m.poke x v a).input = m.input := rfl

@[simp] theorem output_poke (m : Machine) (x : Int) (v : Int32) (a : Nat) :
    (m.poke x v a).output = m.output := rfl

@[simp] theorem memory_goto (m : Machine) (pc : Int32) : (m.goto pc).memory = m.memory := rfl

@[simp] theorem input_goto (m : Machine) (pc : Int32) : (m.goto pc).input = m.input := rfl

@[simp] theorem output_goto (m : Machine) (pc : Int32) : (m.goto pc).output = m.output := rfl

theorem On.put {m : Machine} {site : Site} {a : Nat} (h : m.On site a) (r : Register) (v : Int32)
    (b : Nat) : (m.put r v b).On site b := by
  obtain ⟨regs, hr⟩ := put_eq m r v b
  rw [hr]
  exact ⟨h.image, h.runtime, h.running, rfl⟩

theorem On.poke {m : Machine} {site : Site} {a : Nat} (h : m.On site a) (x : Int) (v : Int32)
    (b : Nat) : (m.poke x v b).On site b := ⟨h.image, h.runtime, h.running, rfl⟩

theorem On.goto {m : Machine} {site : Site} {a : Nat} (h : m.On site a) (b : Nat) :
    (m.goto (Int32.ofNat b)).On site b := ⟨h.image, h.runtime, h.running, rfl⟩

/-! ### Fetching an item -/

theorem ofNat_add_four (a : Nat) : Int32.ofNat a + 4 = Int32.ofNat (a + 4) := by
  rw [Int32.ofNat_add]
  rfl

theorem On.fetch {m : Machine} {site : Site} {a : Nat} {i : Instruction Register Operand}
    (h : m.On site a) (hi : site.HoldsItem a (.instruction i)) :
    ∃ mi, i.encode? site.names = some mi ∧ m.Fetches mi
      ∧ m.effect mi = m.effectOn mi (m.get i.ri) (m.get i.rj) (m.get i.rk) := by
  obtain ⟨hn, mi, he, hc⟩ := hi
  obtain ⟨-, hri, hrj, hrk, -⟩ := Instruction.encode?_eq_some he
  refine ⟨mi, he, ⟨h.running, ?_, ?_⟩, ?_⟩
  · rw [h.runtime, h.pc]
    exact hn
  · rw [h.image, h.pc]
    exact hc
  · simp only [effect, reg?_eq_get hri, reg?_eq_get hrj, reg?_eq_get hrk]

theorem proceed_eq {m : Machine} {site : Site} {a : Nat} (h : m.On site a) :
    m.proceed = m.goto (Int32.ofNat (a + 4)) := by
  simp only [proceed, goto, h.pc, ofNat_add_four]

theorem setReg_proceed {m : Machine} {site : Site} {a : Nat} {r : Register} {i : UInt8}
    (h : m.On site a) (hi : r.index? = some i) (v : Int32) :
    (m.setReg i v).proceed = m.put r v (a + 4) := by
  obtain ⟨regs, hr⟩ := setReg_eq m i v
  have hp : (m.setReg i v).pc = Int32.ofNat a := by rw [hr]; exact h.pc
  simp only [put, hi, proceed, goto, hp, ofNat_add_four]

/-! ### What the operations compute -/

/-- The word that an operation makes of two words; a division by zero makes none. -/
def valueOf? (op : Opcode) (x y : Int32) : Option Int32 :=
  match op with
  | .add | .addi => some (x + y)
  | .sub | .subi => some (x - y)
  | .mul | .muli => some (x * y)
  | .div | .divi => if y = 0 then none else some (x / y)
  | .mod | .modi => if y = 0 then none else some (x % y)
  | .and | .andi => some (x &&& y)
  | .or | .ori => some (x ||| y)
  | .ceq | .ceqi => some (truth (x == y))
  | .cne | .cnei => some (truth (x != y))
  | .clt | .clti => some (truth (x < y))
  | .cle | .clei => some (truth (x ≤ y))
  | .cgt | .cgti => some (truth (y < x))
  | .cge | .cgei => some (truth (y ≤ x))
  | _ => none

theorem effectOn_threeRegisters {m : Machine} {mi : MachineInstruction} {x y z v : Int32}
    (hf : mi.op.form = .threeRegisters) (hv : valueOf? mi.op y z = some v) :
    m.effectOn mi x y z = .ok (.write mi.ri v) := by
  obtain ⟨op, ri, rj, rk, k⟩ := mi
  cases op <;> simp_all [valueOf?, effectOn, quotient, remainder, Opcode.form]

theorem effectOn_immediate {m : Machine} {mi : MachineInstruction} {x y z v : Int32}
    (hf : mi.op.form = .immediate) (hv : valueOf? mi.op y mi.k = some v) :
    m.effectOn mi x y z = .ok (.write mi.ri v) := by
  obtain ⟨op, ri, rj, rk, k⟩ := mi
  cases op <;> simp_all [valueOf?, effectOn, quotient, remainder, Opcode.form]

theorem number_value {names : Assembly.Names} {n : Int64} {k : Int32}
    (h : (Operand.number n).value? names = some k) :
    k = n.toInt32 ∧ k.toInt = n.toInt ∧ -32768 ≤ n.toInt ∧ n.toInt ≤ 65535 := by
  simp only [Operand.value?] at h
  split at h
  · rename_i hr
    have hk := Option.some.inj h
    have h0 : -32768 ≤ n.toInt := by simpa [Int64.le_iff_toInt_le] using hr.1
    have h1 : n.toInt ≤ 65535 := by simpa [Int64.le_iff_toInt_le] using hr.2
    refine ⟨hk.symm, ?_, h0, h1⟩
    rw [← hk, Int64.toInt_toInt32]
    exact Int.bmod_eq_of_le (by omega) (by omega)
  · cases h

theorem toInt32_eq_ofInt (n : Int64) : n.toInt32 = Int32.ofInt n.toInt := by
  apply Int32.toInt_inj.1
  rw [Int64.toInt_toInt32, Int32.toInt_ofInt]

theorem operand_fits {site : Site} {a : Nat} {i : Instruction Register Operand} {n : Int64}
    (h : site.HoldsItem a (.instruction i)) (hn : i.k = .number n) :
    -32768 ≤ n.toInt ∧ n.toInt ≤ 65535 := by
  obtain ⟨-, mi, he, -⟩ := h
  obtain ⟨-, -, -, -, hk⟩ := Instruction.encode?_eq_some he
  rw [hn] at hk
  exact (number_value hk).2.2

/-! ### One execution lemma for each shape -/

section
variable {m : Machine} {site : Site} {a : Nat}

theorem On.exec_reg3 {op : Opcode} {ri rj rk : Register} {v : Int32} (h : m.On site a)
    (hi : site.HoldsItem a (.reg3 op ri rj rk)) (hf : op.form = .threeRegisters)
    (hv : valueOf? op (m.get rj) (m.get rk) = some v) : Exec m (m.put ri v (a + 4)) := by
  obtain ⟨mi, he, hfetch, heff⟩ := h.fetch hi
  obtain ⟨hop, hri, -, -, -⟩ := Instruction.encode?_eq_some he
  simp only at hop hri heff
  rw [← hop] at hf hv
  rw [effectOn_threeRegisters hf hv] at heff
  have hx := hfetch.exec heff
  rwa [perform, setReg_proceed h hri] at hx

theorem On.exec_imm {op : Opcode} {ri rj : Register} {n : Int64} {v : Int32} (h : m.On site a)
    (hi : site.HoldsItem a (.imm op ri rj n)) (hf : op.form = .immediate)
    (hv : valueOf? op (m.get rj) n.toInt32 = some v) : Exec m (m.put ri v (a + 4)) := by
  obtain ⟨mi, he, hfetch, heff⟩ := h.fetch hi
  obtain ⟨hop, hri, -, -, hk⟩ := Instruction.encode?_eq_some he
  simp only at hop hri heff
  rw [← hop, ← (number_value hk).1] at hv
  rw [← hop] at hf
  rw [effectOn_immediate hf hv] at heff
  have hx := hfetch.exec heff
  rwa [perform, setReg_proceed h hri] at hx

theorem On.exec_named {ri rj : Register} {name : String} {k : Int32} (h : m.On site a)
    (hi : site.HoldsItem a (.named .addi ri rj name)) (hk : site.names.address? name = some k) :
    Exec m (m.put ri (m.get rj + k) (a + 4)) := by
  obtain ⟨mi, he, hfetch, heff⟩ := h.fetch hi
  obtain ⟨hop, hri, -, -, hk'⟩ := Instruction.encode?_eq_some he
  simp only at hop hri heff
  have hkk : mi.k = k := Option.some.inj (hk'.symm.trans hk)
  have hv : valueOf? mi.op (m.get rj) mi.k = some (m.get rj + k) := by rw [hop, hkk]; rfl
  rw [effectOn_immediate (by rw [hop]; rfl) hv] at heff
  have hx := hfetch.exec heff
  rwa [perform, setReg_proceed h hri] at hx

theorem On.exec_nop (h : m.On site a) (hi : site.HoldsItem a (.bare .nop)) :
    Exec m (m.goto (Int32.ofNat (a + 4))) := by
  obtain ⟨mi, he, hfetch, heff⟩ := h.fetch hi
  obtain ⟨hop, -, -, -, -⟩ := Instruction.encode?_eq_some he
  have hx := hfetch.exec (e := .proceed) (by rw [heff]; simp only [effectOn, hop])
  rwa [perform, proceed_eq h] at hx

theorem address_eq {names : Assembly.Names} {off : Int64} {k b : Int32} {x : Int}
    (hk : (Operand.number off).value? names = some k) (hb : b = Int32.ofInt x) :
    b + k = Int32.ofInt (x + off.toInt) := by
  rw [(number_value hk).1, toInt32_eq_ofInt, hb, ← Int32.ofInt_add]

theorem On.exec_lw {r base : Register} {off : Int64} {x : Int} (h : m.On site a)
    (hi : site.HoldsItem a (.lw r off base)) (hb : m.get base = Int32.ofInt x)
    (hin : m.memory.Inside (x + off.toInt) 4) :
    Exec m (m.put r (m.memory.word (x + off.toInt)) (a + 4)) := by
  obtain ⟨mi, he, hfetch, heff⟩ := h.fetch hi
  obtain ⟨hop, hri, -, -, hk⟩ := Instruction.encode?_eq_some he
  simp only at hop hri heff
  have hl : m.loadWord (m.get base + mi.k) = .ok (m.memory.word (x + off.toInt)) := by
    simp only [loadWord, address_eq hk hb, hin.loadWord, Except.mapError]
  have hx := hfetch.exec (e := .write mi.ri (m.memory.word (x + off.toInt)))
    (by rw [heff]; simp only [effectOn, hop, hl, Except.map])
  rwa [perform, setReg_proceed h hri] at hx

theorem On.exec_sw {r base : Register} {off : Int64} {x : Int} (h : m.On site a)
    (hi : site.HoldsItem a (.sw off base r)) (hb : m.get base = Int32.ofInt x)
    (hin : m.memory.Inside (x + off.toInt) 4) :
    Exec m (m.poke (x + off.toInt) (m.get r) (a + 4)) := by
  obtain ⟨mi, he, hfetch, heff⟩ := h.fetch hi
  obtain ⟨hop, -, -, -, hk⟩ := Instruction.encode?_eq_some he
  simp only at hop heff
  have hc : m.check (m.get base + mi.k) 4 = .ok () := by
    have hcheck := hin.check (by decide)
    rw [show Int32.ofNat 4 = 4 from rfl] at hcheck
    simp only [check, address_eq hk hb, hcheck, Except.mapError]
  have hx := hfetch.exec (e := .storeWord (m.get base + mi.k) (m.get r))
    (by rw [heff]; simp only [effectOn, hop, hc, Except.map])
  rw [perform, address_eq hk hb] at hx
  have hp : (m.putWord (Int32.ofInt (x + off.toInt)) (m.get r)).proceed
      = m.poke (x + off.toInt) (m.get r) (a + 4) := by
    simp only [putWord, proceed, Machine.poke, h.pc, ofNat_add_four, Memory.setWord]
  rwa [hp] at hx

theorem On.exec_sl {r : Register} {n : Int64} (h : m.On site a)
    (hi : site.HoldsItem a (.sl r n)) :
    Exec m (m.put r (shiftLeft (m.get r) n.toInt32) (a + 4)) := by
  obtain ⟨mi, he, hfetch, heff⟩ := h.fetch hi
  obtain ⟨hop, hri, -, -, hk⟩ := Instruction.encode?_eq_some he
  simp only at hop hri heff
  have hx := hfetch.exec (e := .write mi.ri (shiftLeft (m.get r) n.toInt32))
    (by rw [heff]; simp only [effectOn, hop, (number_value hk).1])
  rwa [perform, setReg_proceed h hri] at hx

theorem On.exec_j {label : String} {b : Nat} (h : m.On site a)
    (hi : site.HoldsItem a (.j label)) (hl : site.names.address? label = some (Int32.ofNat b)) :
    Exec m (m.goto (Int32.ofNat b)) := by
  obtain ⟨mi, he, hfetch, heff⟩ := h.fetch hi
  obtain ⟨hop, -, -, -, hk⟩ := Instruction.encode?_eq_some he
  have hkk : mi.k = Int32.ofNat b := Option.some.inj (hk.symm.trans hl)
  have hx := hfetch.exec (e := .goto (Int32.ofNat b))
    (by rw [heff]; simp only [effectOn, hop, hkk])
  exact hx

theorem On.exec_bz {r : Register} {label : String} {b : Nat} (h : m.On site a)
    (hi : site.HoldsItem a (.bz r label)) (hl : site.names.address? label = some (Int32.ofNat b)) :
    Exec m (m.goto (Int32.ofNat (if m.get r = 0 then b else a + 4))) := by
  obtain ⟨mi, he, hfetch, heff⟩ := h.fetch hi
  obtain ⟨hop, -, -, -, hk⟩ := Instruction.encode?_eq_some he
  have hkk : mi.k = Int32.ofNat b := Option.some.inj (hk.symm.trans hl)
  by_cases hz : m.get r = 0
  · have hx := hfetch.exec (e := .goto (Int32.ofNat b))
      (by rw [heff]; simp [effectOn, hop, hkk, hz])
    rw [if_pos hz]
    exact hx
  · have hx := hfetch.exec (e := .proceed) (by rw [heff]; simp [effectOn, hop, hz])
    rw [if_neg hz]
    rwa [perform, proceed_eq h] at hx

theorem On.exec_bnz {r : Register} {label : String} {b : Nat} (h : m.On site a)
    (hi : site.HoldsItem a (.bnz r label))
    (hl : site.names.address? label = some (Int32.ofNat b)) :
    Exec m (m.goto (Int32.ofNat (if m.get r = 0 then a + 4 else b))) := by
  obtain ⟨mi, he, hfetch, heff⟩ := h.fetch hi
  obtain ⟨hop, -, -, -, hk⟩ := Instruction.encode?_eq_some he
  have hkk : mi.k = Int32.ofNat b := Option.some.inj (hk.symm.trans hl)
  by_cases hz : m.get r = 0
  · have hx := hfetch.exec (e := .proceed) (by rw [heff]; simp [effectOn, hop, hz])
    rw [if_pos hz]
    rwa [perform, proceed_eq h] at hx
  · have hx := hfetch.exec (e := .goto (Int32.ofNat b))
      (by rw [heff]; simp [effectOn, hop, hkk, hz])
    rw [if_neg hz]
    exact hx

theorem On.exec_jl {r : Register} {label : String} {k : Int32} (h : m.On site a)
    (hi : site.HoldsItem a (.jl r label)) (hl : site.names.address? label = some k) :
    Exec m ((m.put r (Int32.ofNat (a + 4)) a).goto k) := by
  obtain ⟨mi, he, hfetch, heff⟩ := h.fetch hi
  obtain ⟨hop, hri, -, -, hk⟩ := Instruction.encode?_eq_some he
  simp only at hop hri
  have hkk : mi.k = k := Option.some.inj (hk.symm.trans hl)
  have hx := hfetch.exec (e := .link mi.ri k) (by rw [heff]; simp only [effectOn, hop, hkk])
  have hp : m.perform (.link mi.ri k) = (m.put r (Int32.ofNat (a + 4)) a).goto k := by
    simp only [perform, Machine.put, hri, h.pc, ofNat_add_four]
    rfl
  rwa [hp] at hx

theorem On.exec_jr {r : Register} (h : m.On site a) (hi : site.HoldsItem a (.reg1 .jr r)) :
    Exec m (m.goto (m.get r)) := by
  obtain ⟨mi, he, hfetch, heff⟩ := h.fetch hi
  obtain ⟨hop, -, -, -, -⟩ := Instruction.encode?_eq_some he
  exact hfetch.exec (e := .goto (m.get r)) (by rw [heff]; simp only [effectOn, hop])

theorem On.exec_putc {r : Register} (h : m.On site a) (hi : site.HoldsItem a (.reg1 .putc r)) :
    Exec m { m with
      output := m.output ++ Text.charBytes (Char.ofNat (byteAt (m.get r) 0).toNat)
      pc := Int32.ofNat (a + 4) } := by
  obtain ⟨mi, he, hfetch, heff⟩ := h.fetch hi
  obtain ⟨hop, -, -, -, -⟩ := Instruction.encode?_eq_some he
  have hx := hfetch.exec (e := .print (byteAt (m.get r) 0))
    (by rw [heff]; simp only [effectOn, hop])
  simp only [perform, proceed, h.pc, ofNat_add_four] at hx
  exact hx

theorem On.exec_hlt (h : m.On site a) (hi : site.HoldsItem a (.bare .hlt)) :
    Exec m { m with halted := true, pc := Int32.ofNat (a + 4) } := by
  obtain ⟨mi, he, hfetch, heff⟩ := h.fetch hi
  obtain ⟨hop, -, -, -, -⟩ := Instruction.encode?_eq_some he
  have hx := hfetch.exec (e := .halt) (by rw [heff]; simp only [effectOn, hop])
  simp only [perform, proceed, h.pc, ofNat_add_four] at hx
  exact hx

end

/-! ### Pieces of code that only compute -/

/-- The machine gets from one place to another and changes at most the given registers. -/
structure Computes (site : Site) (w : List Register) (m : Machine) (b : Nat) (m' : Machine) :
    Prop where
  exec : Exec m m'
  on : m'.On site b
  get : ∀ q, q ∉ w → m'.get q = m.get q
  memory : m'.memory = m.memory
  input : m'.input = m.input
  output : m'.output = m.output

namespace Computes

variable {site : Site} {w w' : List Register} {m m₁ m₂ : Machine} {a b c : Nat}

theorem refl (h : m.On site a) : Computes site w m a m :=
  ⟨.refl m, h, fun _ _ => rfl, rfl, rfl, rfl⟩

theorem trans (h : Computes site w m b m₁) (h' : Computes site w m₁ c m₂) :
    Computes site w m c m₂ :=
  ⟨h.exec.trans h'.exec, h'.on, fun q hq => (h'.get q hq).trans (h.get q hq),
    h'.memory.trans h.memory, h'.input.trans h.input, h'.output.trans h.output⟩

theorem mono (h : Computes site w m b m₁) (hs : ∀ r ∈ w, r ∈ w') :
    Computes site w' m b m₁ :=
  ⟨h.exec, h.on, fun q hq => h.get q fun hm => hq (hs q hm), h.memory, h.input, h.output⟩

theorem put {r : Register} {v : Int32} (h : m.On site a) (he : Exec m (m.put r v b))
    (hr : r ∈ w) : Computes site w m b (m.put r v b) := by
  refine ⟨he, h.put r v b, ?_, memory_put .., input_put .., output_put ..⟩
  intro q hq
  refine get_put_of_ne ?_
  rintro rfl
  exact hq hr

theorem goto (h : m.On site a) (he : Exec m (m.goto (Int32.ofNat b))) :
    Computes site w m b (m.goto (Int32.ofNat b)) :=
  ⟨he, h.goto b, fun _ _ => rfl, rfl, rfl, rfl⟩

end Computes

/-! ### Pieces of code that also write memory -/

/-- The machine gets from one place to another with a given memory there, and changes at most the
given registers. -/
structure Reaches (site : Site) (w : List Register) (m : Machine) (b : Nat) (mem : Memory)
    (m' : Machine) : Prop where
  exec : Exec m m'
  on : m'.On site b
  get : ∀ q, q ∉ w → m'.get q = m.get q
  memory : m'.memory = mem
  input : m'.input = m.input
  output : m'.output = m.output

namespace Reaches

variable {site : Site} {w w' : List Register} {m m₁ m₂ : Machine} {a b c : Nat} {mem mem' : Memory}

theorem trans (h : Reaches site w m b mem m₁) (h' : Reaches site w m₁ c mem' m₂) :
    Reaches site w m c mem' m₂ :=
  ⟨h.exec.trans h'.exec, h'.on, fun q hq => (h'.get q hq).trans (h.get q hq), h'.memory,
    h'.input.trans h.input, h'.output.trans h.output⟩

theorem of_computes (h : Computes site w m b m₁) : Reaches site w m b m.memory m₁ :=
  ⟨h.exec, h.on, h.get, h.memory, h.input, h.output⟩

theorem after (h : Computes site w m b m₁) (h' : Reaches site w m₁ c mem m₂) :
    Reaches site w m c mem m₂ := (of_computes h).trans h'

theorem before (h : Reaches site w m b mem m₁) (h' : Computes site w m₁ c m₂) :
    Reaches site w m c mem m₂ := by
  have ht := h.trans (of_computes h')
  rwa [h.memory] at ht

theorem mono (h : Reaches site w m b mem m₁) (hs : ∀ r ∈ w, r ∈ w') :
    Reaches site w' m b mem m₁ :=
  ⟨h.exec, h.on, fun q hq => h.get q fun hm => hq (hs q hm), h.memory, h.input, h.output⟩

theorem poke {x : Int} {v : Int32} (h : m.On site a) (he : Exec m (m.poke x v b)) :
    Reaches site w m b (m.memory.setWord x v) (m.poke x v b) :=
  ⟨he, h.poke x v b, fun _ _ => rfl, rfl, rfl, rfl⟩

end Reaches

end Machine

end MoonBackend
