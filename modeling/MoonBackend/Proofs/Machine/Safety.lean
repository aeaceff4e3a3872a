import MoonBackend.Proofs.Assembly.Exact
import MoonBackend.Proofs.Machine.Execution
import MoonBackend.Proofs.Machine.Memory

/-!
# Machines that run assembled texts

What a step of the machine can end with. The range check of an access adds in word arithmetic, so it
tells the truth about every access that ends below the largest address and about no other. An image
that was assembled names registers and operations of the machine only, and no step changes the
image, the configuration or the size of the memory. Hence every step from every state that the
machine can come to succeeds or reports a fault of the program, as long as what it asks for is
addressable.
-/

namespace MoonBackend

/-! ### Accesses to memory -/

/-- The end of the `n` bytes from an address onwards is an address too. -/
def Addressable (addr : Int32) (n : Nat) : Prop := addr.toInt + n < 2 ^ 31

instance (addr : Int32) (n : Nat) : Decidable (Addressable addr n) :=
  inferInstanceAs (Decidable (addr.toInt + n < 2 ^ 31))

namespace Memory

/-- All of the `n` bytes from an address onwards are in the memory. -/
def Has (m : Memory) (addr : Int32) (n : Nat) : Prop := 0 ≤ addr.toInt ∧ addr.toInt + n ≤ m.size

instance (m : Memory) (addr : Int32) (n : Nat) : Decidable (m.Has addr n) :=
  inferInstanceAs (Decidable (0 ≤ addr.toInt ∧ addr.toInt + n ≤ m.size))

variable {m : Memory} {addr : Int32} {n : Nat}

theorem check_of_has (h : m.Has addr n) (hs : m.size < 2 ^ 31) (hn : n ≤ 4) :
    m.check addr (Int32.ofNat n) = .ok () := by
  have hin : m.Inside addr.toInt n := ⟨h.1, h.2, hs⟩
  rw [← hin.check hn, Int32.ofInt_toInt]

theorem toInt_add_width (ha : Addressable addr n) (hn : n ≤ 4) :
    (addr + Int32.ofNat n).toInt = addr.toInt + n := by
  have hlow := Int32.le_toInt addr
  have hn' : (Int32.ofNat n).toInt = n := Int32.toInt_ofNat_of_lt (by omega)
  unfold Addressable at ha
  rw [Int32.toInt_add, hn']
  exact Int.bmod_eq_of_le (by omega) (by omega)

theorem check_of_outside (h : ¬ m.Has addr n) (ha : Addressable addr n) (hs : m.size < 2 ^ 31)
    (hn : n ≤ 4) : m.check addr (Int32.ofNat n) = .error .outOfRange := by
  have hsize : (Int32.ofNat m.size).toInt = m.size := Int32.toInt_ofNat_of_lt hs
  have hsum := toInt_add_width ha hn
  unfold check
  rw [if_pos]
  rw [Bool.or_eq_true, decide_eq_true_eq, decide_eq_true_eq, Int32.lt_iff_toInt_lt,
    Int32.lt_iff_toInt_lt, hsize, hsum, Int32.toInt_zero]
  unfold Has at h
  omega

/-- The check wraps around and passes, and the bytes are not there. -/
theorem check_of_not_addressable (ha : ¬ Addressable addr n) (hs : m.size < 2 ^ 31) (hn : n ≤ 4) :
    m.check addr (Int32.ofNat n) = .error .overrun := by
  have hup := Int32.toInt_lt addr
  have hsize : (Int32.ofNat m.size).toInt = m.size := Int32.toInt_ofNat_of_lt hs
  have hn' : (Int32.ofNat n).toInt = n := Int32.toInt_ofNat_of_lt (by omega)
  have hnc : (Int32.ofNat n).toNatClampNeg = n := Int32.toNatClampNeg_ofNat_of_lt (by omega)
  have hac : (addr.toNatClampNeg : Int) = addr.toInt.toNat := by rw [Int32.toNat_toInt]
  unfold Addressable at ha
  have hsum : (addr + Int32.ofNat n).toInt = addr.toInt + n - 2 ^ 32 := by
    rw [Int32.toInt_add, hn', Int.bmod_def]
    omega
  unfold check
  rw [if_neg, if_pos]
  · rw [hnc]
    omega
  · rw [Bool.or_eq_true, decide_eq_true_eq, decide_eq_true_eq, Int32.lt_iff_toInt_lt,
      Int32.lt_iff_toInt_lt, hsize, hsum, Int32.toInt_zero]
    omega

end Memory

namespace Machine

variable {m : Machine} {addr v : Int32} {n : Nat}

/-- What an access to `n` bytes answers: it succeeds if they are all in the memory, and reports the
address if they are not. Only an access that ends past the largest address gets through the check
without being inside the machine. -/
structure Answers {α : Type} (m : Machine) (addr : Int32) (n : Nat) (r : Except Trap α) : Prop where
  inside : m.memory.Has addr n → ∃ a, r = .ok a
  outside : ¬ m.memory.Has addr n → Addressable addr n → r = .error (.memory addr m.pc)
  past : ¬ Addressable addr n → r = .error .overrun

theorem answers_check (hs : m.memory.size < 2 ^ 31) (hn : n ≤ 4) :
    m.Answers addr n (m.check addr (Int32.ofNat n)) where
  inside h := ⟨(), by rw [check, Memory.check_of_has h hs hn]; rfl⟩
  outside h ha := by rw [check, Memory.check_of_outside h ha hs hn]; rfl
  past ha := by rw [check, Memory.check_of_not_addressable ha hs hn]; rfl

theorem Answers.map {α β : Type} {r : Except Trap α} (h : m.Answers addr n r) (f : α → β) :
    m.Answers addr n (r.map f) where
  inside hin := by
    obtain ⟨a, ha⟩ := h.inside hin
    exact ⟨f a, by rw [ha]; rfl⟩
  outside hout ha := by rw [h.outside hout ha]; rfl
  past ha := by rw [h.past ha]; rfl

theorem loadWord_eq (m : Machine) (addr : Int32) :
    m.loadWord addr = (m.check addr 4).map fun _ =>
      wordOfBytes (m.memory.get addr.toNatClampNeg) (m.memory.get (addr.toNatClampNeg + 1))
        (m.memory.get (addr.toNatClampNeg + 2)) (m.memory.get (addr.toNatClampNeg + 3)) := by
  rw [loadWord, Memory.loadWord, check]
  cases m.memory.check addr 4 <;> rfl

theorem loadByte_eq (m : Machine) (addr : Int32) :
    m.loadByte addr = (m.check addr 1).map fun _ => m.memory.get addr.toNatClampNeg := by
  rw [loadByte, Memory.loadByte, check]
  cases m.memory.check addr 1 <;> rfl

theorem answers_loadWord (hs : m.memory.size < 2 ^ 31) : m.Answers addr 4 (m.loadWord addr) := by
  rw [loadWord_eq]
  exact (answers_check hs (le_refl 4)).map _

theorem answers_loadByte (hs : m.memory.size < 2 ^ 31) : m.Answers addr 1 (m.loadByte addr) := by
  rw [loadByte_eq]
  exact (answers_check hs (by decide)).map _

theorem answers_storeWord (hs : m.memory.size < 2 ^ 31) :
    m.Answers addr 4 (m.storeWord addr v) := (answers_check hs (le_refl 4)).map _

theorem answers_storeByte (hs : m.memory.size < 2 ^ 31) :
    m.Answers addr 1 (m.storeByte addr v) := (answers_check hs (by decide)).map _

theorem Answers.error {α : Type} {r : Except Trap α} {t : Trap} (h : m.Answers addr n r)
    (ha : Addressable addr n) (hr : r = .error t) : t = .memory addr m.pc := by
  by_cases hin : m.memory.Has addr n
  · obtain ⟨a, hok⟩ := h.inside hin
    rw [hok] at hr
    cases hr
  · rw [h.outside hin ha] at hr
    exact (Except.error.inj hr).symm

end Machine

/-! ### Assembled instructions -/

/-- The registers of an instruction are among the sixteen, and its operation has a meaning. -/
structure MachineInstruction.Valid (i : MachineInstruction) : Prop where
  ri : i.ri < 16
  rj : i.rj < 16
  rk : i.rk < 16
  known : i.op ∈ Opcode.all

namespace Assembly

theorem register?_lt {token : String} {r : UInt8} (h : register? token = some r) : r < 16 := by
  unfold register? at h
  split at h
  · split at h
    · split at h
      · rename_i n _ hn
        rw [Bool.and_eq_true, decide_eq_true_eq, decide_eq_true_eq] at hn
        have hlow := Int64.le_iff_toInt_le.1 hn.1
        have hhigh := Int64.lt_iff_toInt_lt.1 hn.2
        have hnat : n.toNatClampNeg = n.toInt.toNat := (Int64.toNat_toInt n).symm
        have h16 : (16 : Int64).toInt = 16 := rfl
        have h0 : (0 : Int64).toInt = 0 := rfl
        rw [← Option.some.inj h, UInt8.lt_iff_toNat_lt, Nat.toUInt8_eq, UInt8.toNat_ofNat',
          hnat]
        have h16' : (16 : UInt8).toNat = 16 := rfl
        omega
      · cases h
    · cases h
  · cases h

theorem parseRegister_lt {line : Nat} {token : String} {r : UInt8}
    (h : parseRegister line token = .ok r) : r < 16 := by
  unfold parseRegister at h
  split at h
  · rename_i r' hr
    rw [← Except.ok.inj h]
    exact register?_lt hr
  · cases h

theorem parseIndexed_lt {names : Names} {line : Nat} {token : String} {k : Int32} {r : UInt8}
    (h : parseIndexed names line token = .ok (k, r)) : r < 16 := by
  unfold parseIndexed at h
  simp only at h
  split at h
  · simp only [bind_eq_ok, pure, Except.pure, Except.ok.injEq, Prod.mk.injEq] at h
    obtain ⟨_, _, r', hr, -, rfl⟩ := h
    exact parseRegister_lt hr
  · cases h

theorem valid_of_parseInstruction {names : Names} {line : Nat} {op : Opcode}
    {operands : List String} {i : MachineInstruction} (hop : op ∈ Opcode.all)
    (h : parseInstruction names line op operands = .ok i) : i.Valid := by
  have h0 : (0 : UInt8) < 16 := by decide
  unfold parseInstruction at h
  split at h <;>
    simp only [bind_eq_ok, pure, Except.pure, Except.ok.injEq, Prod.exists, reduceCtorEq] at h
  · obtain rfl := h
    exact ⟨h0, h0, h0, hop⟩
  · obtain ⟨ri, hri, k, rj, hrj, rfl⟩ := h
    exact ⟨parseRegister_lt hri, parseIndexed_lt hrj, h0, hop⟩
  · obtain ⟨k, rj, hrj, ri, hri, rfl⟩ := h
    exact ⟨parseRegister_lt hri, parseIndexed_lt hrj, h0, hop⟩
  · obtain ⟨ri, hri, rj, hrj, rk, hrk, rfl⟩ := h
    exact ⟨parseRegister_lt hri, parseRegister_lt hrj, parseRegister_lt hrk, hop⟩
  · obtain ⟨ri, hri, rj, hrj, rfl⟩ := h
    exact ⟨parseRegister_lt hri, parseRegister_lt hrj, h0, hop⟩
  · obtain ⟨ri, hri, rj, hrj, k, -, rfl⟩ := h
    exact ⟨parseRegister_lt hri, parseRegister_lt hrj, h0, hop⟩
  · obtain ⟨ri, hri, k, -, rfl⟩ := h
    exact ⟨parseRegister_lt hri, h0, h0, hop⟩
  · obtain ⟨ri, hri, rfl⟩ := h
    exact ⟨parseRegister_lt hri, h0, h0, hop⟩
  · obtain ⟨k, -, rfl⟩ := h
    exact ⟨h0, h0, h0, hop⟩

def Image.Valid (p : Image) : Prop :=
  ∀ (a : Int32) (i : MachineInstruction), p.code[a]? = some i → i.Valid

theorem Pass.Step.valid {names : Names} {l : SourceLine} {p p' : Pass} (h : Step names l p p')
    (hp : Image.Valid p.image) : Image.Valid p'.image := by
  cases hop : Opcode.parse? l.mnemonic with
  | none =>
    unfold Image.Valid
    rw [(h.code_of_none hop).1]
    exact hp
  | some op =>
    obtain ⟨i, hi, -, rfl⟩ := h.code_of_some hop
    intro a j hj
    simp only [Pass.withInstruction, Std.TreeMap.getElem?_insert] at hj
    split at hj
    · rw [← Option.some.inj hj]
      exact valid_of_parseInstruction (List.mem_of_find?_eq_some hop) hi
    · exact hp a j hj

theorem Pass.valid_of_lines {names : Names} {lines : List SourceLine} {p p' : Pass}
    (h : Pass.lines names lines p = .ok p') (hp : Image.Valid p.image) : Image.Valid p'.image := by
  induction lines generalizing p with
  | nil => rwa [← Except.ok.inj h]
  | cons l rest ih =>
    rw [Pass.lines] at h
    split at h
    · cases h
    · rename_i p₁ hline
      exact ih h ((step_of_line hline).valid hp)

theorem valid_of_assemble {text : String} {symbols : List (String × Int32)} {image : Image}
    (h : assemble text symbols = .ok image) : Image.Valid image := by
  obtain ⟨source, labels, p, -, -, hp, rfl⟩ := assemble_eq_ok.1 h
  exact Pass.valid_of_lines hp fun a i hi => by simp at hi

end Assembly

/-! ### Steps -/

/-- The faults of a program that the machine reports, with the address of the instruction. -/
inductive Trap.Reported (pc : Int32) : Trap → Prop
  | memory (addr : Int32) : Reported pc (.memory addr pc)
  | divide : Reported pc (.divide pc)
  | noInstruction : Reported pc (.noInstruction pc)

/-- How many bytes an instruction loads or stores. -/
def MachineInstruction.width? (i : MachineInstruction) : Option Nat :=
  match i.op with
  | .lw | .sw => some 4
  | .lb | .sb => some 1
  | _ => none

namespace Machine

/-- The first byte of the text that a parameter of a routine points to. -/
def textAccess (m : Machine) (off : Int64) : List (Int32 × Nat) :=
  (m.param off).toOption.toList.map fun addr => (addr, 1)

/-- What the next step asks of the memory, as addresses and numbers of bytes: what an instruction
loads or stores, or the parameters of a routine and the place of its text. -/
def accesses (m : Machine) : List (Int32 × Nat) :=
  let parameter (off : Int64) := (m.regs.get stackPointer + off.toInt32, 4)
  match m.runtime.routine? m.pc with
  | some .intToString =>
    parameter m.runtime.valueParam :: parameter m.runtime.bufferParam
      :: m.textAccess m.runtime.bufferParam
  | some _ => parameter m.runtime.valueParam :: m.textAccess m.runtime.valueParam
  | none =>
    match m.image.code[m.pc]? with
    | none => []
    | some i => i.width?.toList.map fun n => ((m.reg? i.rj).getD 0 + i.k, n)

/-- A machine whose memory is addressed by words, with a buffer for the input and a program that
names registers and operations of the machine only. -/
structure Sound (m : Machine) : Prop where
  small : m.memory.size < 2 ^ 31 - 16
  buffer : 1 ≤ m.runtime.bufferSize
  valid : Assembly.Image.Valid m.image

theorem Sound.addressed {m : Machine} (h : m.Sound) : m.memory.size < 2 ^ 31 := by
  have := h.small
  omega

structure Keeps (m m' : Machine) : Prop where
  size : m'.memory.size = m.memory.size
  runtime : m'.runtime = m.runtime
  image : m'.image = m.image

theorem Sound.of_keeps {m m' : Machine} (h : m.Sound) (hk : Keeps m m') : m'.Sound :=
  ⟨by rw [hk.size]; exact h.small, by rw [hk.runtime]; exact h.buffer,
    by rw [hk.image]; exact h.valid⟩

variable {m : Machine}

theorem keeps_perform (m : Machine) (e : Effect) : Keeps m (m.perform e) := by
  refine ⟨size_memory_perform m e, ?_, ?_⟩ <;>
  · cases e with
    | readByte r => simp only [perform, setReg, proceed]; split <;> split <;> rfl
    | write r v => simp only [perform, setReg, proceed]; split <;> rfl
    | link r target => simp only [perform, setReg, goto]; split <;> rfl
    | _ => rfl

theorem keeps_putText (m : Machine) (addr : Int32) (text : List UInt8) :
    Keeps m (m.putText addr text).2 := by
  rw [putText_eq]
  exact ⟨Memory.size_putBytes .., rfl, rfl⟩

theorem Keeps.refl (m : Machine) : Keeps m m := ⟨rfl, rfl, rfl⟩

theorem keeps_intToString (m : Machine) : Keeps m m.intToString.2 := by
  unfold intToString
  split
  · exact .refl m
  · split
    · exact .refl m
    · rename_i v _ _ addr _
      have hk := keeps_putText m addr (Text.textBytes (Text.decimal v.toInt))
      split
      · rename_i t m' hput
        rw [hput] at hk
        exact hk
      · rename_i m' hput
        rw [hput] at hk
        exact ⟨hk.size, hk.runtime, hk.image⟩

theorem keeps_readString (m : Machine) : Keeps m m.readString.2 := by
  unfold readString
  split
  · exact .refl m
  · rename_i addr _
    dsimp only
    split
    · exact ⟨rfl, rfl, rfl⟩
    · have hk := keeps_putText { m with input := (splitLine m.input).2 } addr
        ((chomp (splitLine m.input).1).take (m.runtime.bufferSize - 1).toNatClampNeg)
      exact ⟨hk.size, hk.runtime, hk.image⟩

theorem keeps_call (m : Machine) (r : Routine) : Keeps m (m.call r).2 := by
  cases r with
  | intToString => exact keeps_intToString m
  | readString => exact keeps_readString m
  | printString =>
    show Keeps m m.printString.2
    unfold printString
    split
    · exact .refl m
    · split
      · exact .refl m
      · exact ⟨rfl, rfl, rfl⟩
  | stringToInt =>
    show Keeps m m.stringToInt.2
    unfold stringToInt
    split
    · exact .refl m
    · split
      · exact .refl m
      · exact ⟨rfl, rfl, rfl⟩

theorem keeps_step (m : Machine) : Keeps m m.step.2 := by
  cases hh : m.halted with
  | true =>
    unfold step
    rw [if_pos hh]
    exact ⟨rfl, rfl, rfl⟩
  | false =>
    rw [step_eq hh]
    split
    · rename_i r _
      have hk := keeps_call (m.withSteps (m.steps + 1)) r
      split
      · rename_i t m' hcall
        rw [hcall] at hk
        exact ⟨hk.size, hk.runtime, hk.image⟩
      · rename_i m' hcall
        rw [hcall] at hk
        exact ⟨hk.size, hk.runtime, hk.image⟩
    · split
      · exact ⟨rfl, rfl, rfl⟩
      · split
        · exact ⟨rfl, rfl, rfl⟩
        · rename_i e _
          have hk := keeps_perform (m.withSteps (m.steps + 1)) e
          exact ⟨hk.size, hk.runtime, hk.image⟩

theorem Sound.step (h : m.Sound) : m.step.2.Sound := h.of_keeps (keeps_step m)

/-- The state after any number of steps, also after some that failed. -/
theorem Sound.iterate (h : m.Sound) (n : Nat) : ((fun m : Machine => m.step.2)^[n] m).Sound := by
  induction n generalizing m with
  | zero => exact h
  | succ n ih => exact ih h.step

/-! ### Faults of steps -/

/-- A valid instruction that asks for nothing past the largest address traps with a fault of the
program only. -/
theorem reported_of_effect {i : MachineInstruction} {t : Trap} (h : m.Sound) (hi : i.Valid)
    (ha : ∀ n, i.width? = some n → Addressable ((m.reg? i.rj).getD 0 + i.k) n)
    (ht : m.effect i = .error t) : t.Reported m.pc := by
  have hreg : ∀ r : UInt8, r < 16 → ∃ v, m.reg? r = some v := fun r hr =>
    ⟨_, Vector.getElem?_eq_getElem (UInt8.lt_iff_toNat_lt.1 hr)⟩
  obtain ⟨ri, hri⟩ := hreg _ hi.ri
  obtain ⟨rj, hrj⟩ := hreg _ hi.rj
  obtain ⟨rk, hrk⟩ := hreg _ hi.rk
  have hknown := hi.known
  rw [hrj, Option.getD_some] at ha
  unfold effect at ht
  rw [hri, hrj, hrk] at ht
  have haccess : ∀ {α : Type} {n : Nat} {r : Except Trap α}, i.width? = some n →
      m.Answers (rj + i.k) n r → r = .error t → t.Reported m.pc := by
    intro α n r hn hr he
    rw [hr.error (ha n hn) he]
    exact .memory _
  have hdivide : ∀ {b : Int32} {e : Effect},
      (if b == 0 then .error (.divide m.pc) else Except.ok e) = .error t → t.Reported m.pc := by
    intro b e he
    split at he
    · rw [← Except.error.inj he]
      exact .divide
    · cases he
  cases hop : i.op with
  | lw =>
    simp only [effectOn, hop] at ht
    exact haccess (by rw [MachineInstruction.width?, hop]) ((answers_loadWord h.addressed).map _) ht
  | lb =>
    simp only [effectOn, hop] at ht
    exact haccess (by rw [MachineInstruction.width?, hop]) ((answers_loadByte h.addressed).map _) ht
  | sw =>
    simp only [effectOn, hop] at ht
    exact haccess (by rw [MachineInstruction.width?, hop])
      ((answers_check h.addressed (le_refl 4)).map _) ht
  | sb =>
    simp only [effectOn, hop] at ht
    exact haccess (by rw [MachineInstruction.width?, hop])
      ((answers_check h.addressed (by decide)).map _) ht
  | div | mod | divi | modi =>
    simp only [effectOn, hop] at ht
    exact hdivide ht
  | undefined code =>
    rw [hop] at hknown
    simp [Opcode.all] at hknown
  | _ =>
    simp only [effectOn, hop] at ht
    cases ht

theorem reported_of_param {off : Int64} {t : Trap} (h : m.Sound)
    (ha : Addressable (m.regs.get stackPointer + off.toInt32) 4) (ht : m.param off = .error t) :
    t.Reported m.pc := by
  rw [(answers_loadWord h.addressed).error ha ht]
  exact .memory _

/-- Inside the memory no address is the largest one, so what follows a byte of the memory is
addressable too. -/
theorem addressable_next {m : Memory} {addr : Int32} (hs : m.size < 2 ^ 31 - 16)
    (hin : m.Has addr 1) : Addressable (addr + 1) 1 := by
  obtain ⟨hlow, hup⟩ := hin
  have hadd : (addr + 1).toInt = addr.toInt + 1 := by
    rw [Int32.toInt_add]
    exact Int.bmod_eq_of_le (by show _ ≤ addr.toInt + 1; omega) (by show addr.toInt + 1 < _; omega)
  unfold Addressable
  omega

theorem outOfRange_of_putBytes {m : Memory} {addr : Int32} {bytes : List UInt8}
    {place : Int32} {e : AccessError} (hs : m.size < 2 ^ 31 - 16) (ha : Addressable addr 1)
    (h : (m.putBytes addr bytes).1 = some (place, e)) : e = .outOfRange := by
  induction bytes generalizing m addr with
  | nil => cases h
  | cons b bytes ih =>
    unfold Memory.putBytes at h
    by_cases hin : m.Has addr 1
    · have hc := Memory.check_of_has hin (by omega) (by decide)
      rw [show Int32.ofNat 1 = 1 from rfl] at hc
      rw [hc] at h
      exact ih (by rwa [Memory.size_putByte]) (addressable_next hs hin) h
    · have hc := Memory.check_of_outside hin ha (by omega) (by decide)
      rw [show Int32.ofNat 1 = 1 from rfl] at hc
      rw [hc] at h
      cases h
      rfl

theorem outOfRange_of_textFrom {m : Memory} {fuel : Nat} {addr : Int32} {done : List UInt8}
    {place : Int32} {e : AccessError} (hs : m.size < 2 ^ 31 - 16) (ha : Addressable addr 1)
    (h : m.textFrom fuel addr done = .error (place, e)) : e = .outOfRange := by
  induction fuel generalizing addr done with
  | zero =>
    cases h
    rfl
  | succ fuel ih =>
    unfold Memory.textFrom Memory.loadByte at h
    by_cases hin : m.Has addr 1
    · have hc := Memory.check_of_has hin (by omega) (by decide)
      rw [show Int32.ofNat 1 = 1 from rfl] at hc
      simp only [hc, Except.map] at h
      split at h
      · cases h
      · exact ih (addressable_next hs hin) h
    · have hc := Memory.check_of_outside hin ha (by omega) (by decide)
      rw [show Int32.ofNat 1 = 1 from rfl] at hc
      simp only [hc, Except.map] at h
      cases h
      rfl

theorem reported_of_putText {addr : Int32} {text : List UInt8} {t : Trap} (h : m.Sound)
    (ha : Addressable addr 1) (ht : (m.putText addr text).1 = some t) : t.Reported m.pc := by
  rw [putText_eq, Option.map_eq_some_iff] at ht
  obtain ⟨⟨place, e⟩, he, rfl⟩ := ht
  rw [outOfRange_of_putBytes h.small ha he]
  exact .memory place

theorem reported_of_getText {addr : Int32} {t : Trap} (h : m.Sound) (ha : Addressable addr 1)
    (ht : m.getText addr = .error t) : t.Reported m.pc := by
  unfold getText Memory.getText at ht
  cases htext : m.memory.textFrom (m.memory.size + 1) addr [] with
  | ok text =>
    rw [htext] at ht
    cases ht
  | error refused =>
    obtain ⟨place, e⟩ := refused
    rw [htext] at ht
    rw [← Except.error.inj ht, outOfRange_of_textFrom h.small ha htext]
    exact .memory place

theorem mem_textAccess {off : Int64} {addr : Int32} (h : m.param off = .ok addr) :
    (addr, 1) ∈ m.textAccess off := by
  simp [textAccess, h, Except.toOption]

theorem reported_of_intToString {t : Trap} (h : m.Sound)
    (hr : m.runtime.routine? m.pc = some .intToString)
    (ha : ∀ a ∈ m.accesses, Addressable a.1 a.2) (ht : m.intToString.1 = some t) :
    t.Reported m.pc := by
  simp only [accesses, hr, List.forall_mem_cons] at ha
  obtain ⟨hvalue, hbuffer, htext⟩ := ha
  unfold intToString at ht
  split at ht
  · rename_i t' hparam
    cases ht
    exact reported_of_param h hvalue hparam
  · split at ht
    · rename_i t' hparam
      cases ht
      exact reported_of_param h hbuffer hparam
    · rename_i addr hparam
      split at ht
      · rename_i t' m' hput
        cases ht
        exact reported_of_putText h (htext _ (mem_textAccess hparam)) (congrArg Prod.fst hput)
      · cases ht

theorem reported_of_text {t : Trap} {r : Routine} (h : m.Sound) (hne : r ≠ .intToString)
    (hr : m.runtime.routine? m.pc = some r) (ha : ∀ a ∈ m.accesses, Addressable a.1 a.2) :
    (m.param m.runtime.valueParam = .error t → t.Reported m.pc)
      ∧ ∀ addr, m.param m.runtime.valueParam = .ok addr → Addressable addr 1 := by
  have haccesses : m.accesses = (m.regs.get stackPointer + m.runtime.valueParam.toInt32, 4)
      :: m.textAccess m.runtime.valueParam := by
    cases r with
    | intToString => exact absurd rfl hne
    | _ => simp only [accesses, hr]
  rw [haccesses, List.forall_mem_cons] at ha
  obtain ⟨hvalue, htext⟩ := ha
  exact ⟨reported_of_param h hvalue, fun addr haddr => htext (addr, 1) (mem_textAccess haddr)⟩

theorem reported_of_call {r : Routine} {t : Trap} (h : m.Sound)
    (hr : m.runtime.routine? m.pc = some r) (ha : ∀ a ∈ m.accesses, Addressable a.1 a.2)
    (ht : (m.call r).1 = some t) : t.Reported m.pc := by
  cases r with
  | intToString => exact reported_of_intToString h hr ha ht
  | printString =>
    obtain ⟨hparam, hplace⟩ := reported_of_text (t := t) h (by decide) hr ha
    replace ht : m.printString.1 = some t := ht
    unfold printString at ht
    split at ht
    · rename_i t' he
      cases ht
      exact hparam he
    · rename_i addr he
      split at ht
      · rename_i t' hget
        cases ht
        exact reported_of_getText h (hplace addr he) hget
      · cases ht
  | readString =>
    obtain ⟨hparam, hplace⟩ := reported_of_text (t := t) h (by decide) hr ha
    replace ht : m.readString.1 = some t := ht
    unfold readString at ht
    split at ht
    · rename_i t' he
      cases ht
      exact hparam he
    · rename_i addr he
      have hroom : ¬ m.runtime.bufferSize - 1 < 0 := by
        have hbuffer := Int64.le_iff_toInt_le.1 h.buffer
        have hup := Int64.toInt_lt m.runtime.bufferSize
        have h1 : (1 : Int64).toInt = 1 := rfl
        rw [Int64.lt_iff_toInt_lt, Int64.toInt_sub, h1, Int.bmod_eq_of_le (by omega) (by omega)]
        show ¬ (_ : Int) < 0
        omega
      dsimp only at ht
      rw [if_neg hroom] at ht
      have hread : Sound { m with input := (splitLine m.input).2 } := ⟨h.small, h.buffer, h.valid⟩
      have hput := reported_of_putText hread (hplace addr he) ht
      exact hput
  | stringToInt =>
    obtain ⟨hparam, hplace⟩ := reported_of_text (t := t) h (by decide) hr ha
    replace ht : m.stringToInt.1 = some t := ht
    unfold stringToInt at ht
    split at ht
    · rename_i t' he
      cases ht
      exact hparam he
    · rename_i addr he
      split at ht
      · rename_i t' hget
        cases ht
        exact reported_of_getText h (hplace addr he) hget
      · cases ht

/-- A step whose accesses are addressable succeeds or reports a fault of the program. -/
theorem reported_of_step {t : Trap} (h : m.Sound) (ha : ∀ a ∈ m.accesses, Addressable a.1 a.2)
    (ht : m.step.1 = some t) : t.Reported m.pc := by
  have hs : (m.withSteps (m.steps + 1)).Sound := ⟨h.small, h.buffer, h.valid⟩
  have ha' : ∀ a ∈ (m.withSteps (m.steps + 1)).accesses, Addressable a.1 a.2 := by
    unfold accesses textAccess
    simp only [param_withSteps]
    exact ha
  cases hh : m.halted with
  | true =>
    rw [step, if_pos hh] at ht
    cases ht
  | false =>
    rw [step_eq hh] at ht
    split at ht
    · rename_i r hr
      split at ht
      · rename_i t' m' hcall
        cases ht
        have hreported := reported_of_call hs hr ha' (congrArg Prod.fst hcall)
        exact hreported
      · cases ht
    · rename_i hr
      split at ht
      · cases ht
        exact .noInstruction
      · rename_i i hi
        split at ht
        · rename_i t' he
          cases ht
          refine reported_of_effect h (h.valid _ i hi) (fun n hn => ha (_, n) ?_) he
          simp [accesses, hr, hi, hn]
        · cases ht

theorem sound_of_assemble {text : String} {symbols : List (String × Int32)} {image : Image}
    {rt : Runtime} {input : List UInt8} (himage : Assembly.assemble text symbols = .ok image)
    (hm : ofImage image rt input = .ok m) (hlow : 0 ≤ rt.memorySize)
    (hhigh : rt.memorySize < 2147483632) (hbuffer : 1 ≤ rt.bufferSize) : m.Sound := by
  unfold ofImage at hm
  split at hm
  · cases hm
  · rw [← Except.ok.inj hm]
    refine ⟨?_, hbuffer, Assembly.valid_of_assemble himage⟩
    have h0 := Int64.le_iff_toInt_le.1 hlow
    have h1 := Int64.lt_iff_toInt_lt.1 hhigh
    have hn : rt.memorySize.toNatClampNeg = rt.memorySize.toInt.toNat :=
      (Int64.toNat_toInt _).symm
    have hz : (0 : Int64).toInt = 0 := rfl
    have hc : (2147483632 : Int64).toInt = 2147483632 := rfl
    simp only [Memory.size_ofData]
    omega

/-- From every state that the machine of an assembled text comes to, also after steps that failed,
an access succeeds or fails as its bytes are in the memory or not, and the next step succeeds or
reports a fault of the program. Excepted are accesses that end past the largest address. -/
theorem assembled_steps_reported {text : String} {symbols : List (String × Int32)} {image : Image}
    {rt : Runtime} {input : List UInt8} (himage : Assembly.assemble text symbols = .ok image)
    (hm : ofImage image rt input = .ok m) (hlow : 0 ≤ rt.memorySize)
    (hhigh : rt.memorySize < 2147483632) (hbuffer : 1 ≤ rt.bufferSize) (n : ℕ) :
    let m' := (fun m : Machine => m.step.2)^[n] m
    (∀ addr v, m'.Answers addr 4 (m'.loadWord addr) ∧ m'.Answers addr 4 (m'.storeWord addr v)
      ∧ m'.Answers addr 1 (m'.loadByte addr) ∧ m'.Answers addr 1 (m'.storeByte addr v))
    ∧ ((∀ a ∈ m'.accesses, Addressable a.1 a.2) →
      m'.step.1 = none ∨ ∃ t, m'.step.1 = some t ∧ t.Reported m'.pc) := by
  intro m'
  have hs : m'.Sound := (sound_of_assemble himage hm hlow hhigh hbuffer).iterate n
  refine ⟨fun addr v => ⟨answers_loadWord hs.addressed, answers_storeWord hs.addressed,
    answers_loadByte hs.addressed, answers_storeByte hs.addressed⟩, fun ha => ?_⟩
  cases ht : m'.step.1 with
  | none => exact .inl rfl
  | some t => exact .inr ⟨t, rfl, reported_of_step hs ha ht⟩

/-- The second instruction loads a word of which only three bytes are in a memory of 64. -/
def edgeText : String := "        addi r1,r0,30\n        lw r2,31(r1)\n        hlt\n"

theorem assembled_steps_edge : ∃ image m, Assembly.assemble edgeText [] = .ok image
    ∧ ofImage image { memorySize := 64 } [] = .ok m ∧ m.step.2.accesses = [(61, 4)]
    ∧ m.step.2.Answers 61 4 (m.step.2.loadWord 61)
    ∧ (m.step.2.step.1 = none ∨ ∃ t, m.step.2.step.1 = some t ∧ t.Reported m.step.2.pc) := by
  have hcheck : (match Assembly.assemble edgeText [] with
      | .ok image =>
        match ofImage image { memorySize := 64 } [] with
        | .ok m => decide (m.step.2.accesses = [(61, 4)])
        | .error _ => false
      | .error _ => false) = true := by decide +kernel
  split at hcheck
  · rename_i image himage
    split at hcheck
    · rename_i m hm
      have ha := of_decide_eq_true hcheck
      obtain ⟨hanswers, hreport⟩ :=
        assembled_steps_reported himage hm (by decide) (by decide) (by decide) 1
      refine ⟨image, m, himage, hm, ha, (hanswers 61 0).1, hreport fun a hmem => ?_⟩
      replace hmem : a ∈ m.step.2.accesses := hmem
      rw [ha, List.mem_singleton] at hmem
      rw [hmem]
      decide
    · cases hcheck
  · cases hcheck

def strayText : String :=
  "        addi r1,r0,32767\n        sl r1,16\n        ori r1,r1,65535\n" ++
  "        lw r2,0(r1)\n        hlt\n"

/-- The load from the largest address gets through its check and leaves the machine. -/
theorem strayText_overruns : ∃ image m, Assembly.assemble strayText [] = .ok image
    ∧ ofImage image { memorySize := 64 } [] = .ok m
    ∧ ((fun m : Machine => m.step.2)^[3] m).step.1 = some .overrun := by
  have hcheck : (match Assembly.assemble strayText [] with
      | .ok image =>
        match ofImage image { memorySize := 64 } [] with
        | .ok m => decide (((fun m : Machine => m.step.2)^[3] m).step.1 = some .overrun)
        | .error _ => false
      | .error _ => false) = true := by decide +kernel
  split at hcheck
  · rename_i image himage
    split at hcheck
    · rename_i m hm
      exact ⟨image, m, himage, hm, of_decide_eq_true hcheck⟩
    · cases hcheck
  · cases hcheck

end Machine

end MoonBackend
